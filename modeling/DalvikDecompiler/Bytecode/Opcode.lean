import DalvikDecompiler.Text

/-!
# Opcodes

**Input.** The mnemonics of the instruction set of the register machine.

**Algorithm.** An opcode is one of a fixed list, each with one mnemonic.
Reading a mnemonic ignores blanks around it; a mnemonic that names no opcode
reads as `unknown`.
-/

namespace DalvikDecompiler

/-- An opcode of the register machine, or `unknown` for an instruction that could not be decoded.
-/
inductive Opcode where
  | nop
  | move
  | moveFrom16
  | move16
  | moveWide
  | moveWideFrom16
  | moveWide16
  | moveObject
  | moveObjectFrom16
  | moveObject16
  | moveResult
  | moveResultWide
  | moveResultObject
  | moveException
  | returnVoid
  | returnValue
  | returnWide
  | returnObject
  | const4
  | const16
  | const
  | constHigh16
  | constWide16
  | constWide32
  | loadWide
  | constWideHigh16
  | loadString
  | constStringJumbo
  | loadClass
  | monitorEnter
  | monitorExit
  | checkCast
  | instanceOf
  | arrayLength
  | newInstance
  | newArray
  | filledNewArray
  | filledNewArrayRange
  | fillArrayData
  | throw
  | goto
  | goto16
  | goto32
  | packedSwitch
  | sparseSwitch
  | cmplFloat
  | cmpgFloat
  | cmplDouble
  | cmpgDouble
  | cmpLong
  | ifEq
  | ifNe
  | ifLt
  | ifGe
  | ifGt
  | ifLe
  | ifEqz
  | ifNez
  | ifLtz
  | ifGez
  | ifGtz
  | ifLez
  | aget
  | agetWide
  | agetObject
  | agetBoolean
  | agetByte
  | agetChar
  | agetShort
  | aput
  | aputWide
  | aputObject
  | aputBoolean
  | aputByte
  | aputChar
  | aputShort
  | iget
  | igetWide
  | igetObject
  | igetBoolean
  | igetByte
  | igetChar
  | igetShort
  | iput
  | iputWide
  | iputObject
  | iputBoolean
  | iputByte
  | iputChar
  | iputShort
  | sget
  | sgetWide
  | sgetObject
  | sgetBoolean
  | sgetByte
  | sgetChar
  | sgetShort
  | sput
  | sputWide
  | sputObject
  | sputBoolean
  | sputByte
  | sputChar
  | sputShort
  | invokeVirtual
  | invokeSuper
  | invokeDirect
  | invokeStatic
  | invokeInterface
  | invokeVirtualRange
  | invokeSuperRange
  | invokeDirectRange
  | invokeStaticRange
  | invokeInterfaceRange
  | negInt
  | notInt
  | negLong
  | notLong
  | negFloat
  | negDouble
  | intToLong
  | intToFloat
  | intToDouble
  | longToInt
  | longToFloat
  | longToDouble
  | floatToInt
  | floatToLong
  | floatToDouble
  | doubleToInt
  | doubleToLong
  | doubleToFloat
  | intToByte
  | intToChar
  | intToShort
  | addInt
  | subInt
  | mulInt
  | divInt
  | remInt
  | andInt
  | orInt
  | xorInt
  | shlInt
  | shrInt
  | ushrInt
  | addLong
  | subLong
  | mulLong
  | divLong
  | remLong
  | andLong
  | orLong
  | xorLong
  | shlLong
  | shrLong
  | ushrLong
  | addFloat
  | subFloat
  | mulFloat
  | divFloat
  | remFloat
  | addDouble
  | subDouble
  | mulDouble
  | divDouble
  | remDouble
  | addInt2addr
  | subInt2addr
  | mulInt2addr
  | divInt2addr
  | remInt2addr
  | andInt2addr
  | orInt2addr
  | xorInt2addr
  | shlInt2addr
  | shrInt2addr
  | ushrInt2addr
  | addLong2addr
  | subLong2addr
  | mulLong2addr
  | divLong2addr
  | remLong2addr
  | andLong2addr
  | orLong2addr
  | xorLong2addr
  | shlLong2addr
  | shrLong2addr
  | ushrLong2addr
  | addFloat2addr
  | subFloat2addr
  | mulFloat2addr
  | divFloat2addr
  | remFloat2addr
  | addDouble2addr
  | subDouble2addr
  | mulDouble2addr
  | divDouble2addr
  | remDouble2addr
  | addIntLit16
  | rsubInt
  | mulIntLit16
  | divIntLit16
  | remIntLit16
  | andIntLit16
  | orIntLit16
  | xorIntLit16
  | addIntLit8
  | rsubIntLit8
  | mulIntLit8
  | divIntLit8
  | remIntLit8
  | andIntLit8
  | orIntLit8
  | xorIntLit8
  | shlIntLit8
  | shrIntLit8
  | ushrIntLit8
  | unknown
  deriving DecidableEq, Repr

namespace Opcode

/-- The mnemonic of an opcode. -/
def mnemonic : Opcode → String
  | .nop => "nop"
  | .move => "move"
  | .moveFrom16 => "move/from16"
  | .move16 => "move/16"
  | .moveWide => "move-wide"
  | .moveWideFrom16 => "move-wide/from16"
  | .moveWide16 => "move-wide/16"
  | .moveObject => "move-object"
  | .moveObjectFrom16 => "move-object/from16"
  | .moveObject16 => "move-object/16"
  | .moveResult => "move-result"
  | .moveResultWide => "move-result-wide"
  | .moveResultObject => "move-result-object"
  | .moveException => "move-exception"
  | .returnVoid => "return-void"
  | .returnValue => "return"
  | .returnWide => "return-wide"
  | .returnObject => "return-object"
  | .const4 => "const/4"
  | .const16 => "const/16"
  | .const => "const"
  | .constHigh16 => "const/high16"
  | .constWide16 => "const-wide/16"
  | .constWide32 => "const-wide/32"
  | .loadWide => "const-wide"
  | .constWideHigh16 => "const-wide/high16"
  | .loadString => "const-string"
  | .constStringJumbo => "const-string/jumbo"
  | .loadClass => "const-class"
  | .monitorEnter => "monitor-enter"
  | .monitorExit => "monitor-exit"
  | .checkCast => "check-cast"
  | .instanceOf => "instance-of"
  | .arrayLength => "array-length"
  | .newInstance => "new-instance"
  | .newArray => "new-array"
  | .filledNewArray => "filled-new-array"
  | .filledNewArrayRange => "filled-new-array/range"
  | .fillArrayData => "fill-array-data"
  | .throw => "throw"
  | .goto => "goto"
  | .goto16 => "goto/16"
  | .goto32 => "goto/32"
  | .packedSwitch => "packed-switch"
  | .sparseSwitch => "sparse-switch"
  | .cmplFloat => "cmpl-float"
  | .cmpgFloat => "cmpg-float"
  | .cmplDouble => "cmpl-double"
  | .cmpgDouble => "cmpg-double"
  | .cmpLong => "cmp-long"
  | .ifEq => "if-eq"
  | .ifNe => "if-ne"
  | .ifLt => "if-lt"
  | .ifGe => "if-ge"
  | .ifGt => "if-gt"
  | .ifLe => "if-le"
  | .ifEqz => "if-eqz"
  | .ifNez => "if-nez"
  | .ifLtz => "if-ltz"
  | .ifGez => "if-gez"
  | .ifGtz => "if-gtz"
  | .ifLez => "if-lez"
  | .aget => "aget"
  | .agetWide => "aget-wide"
  | .agetObject => "aget-object"
  | .agetBoolean => "aget-boolean"
  | .agetByte => "aget-byte"
  | .agetChar => "aget-char"
  | .agetShort => "aget-short"
  | .aput => "aput"
  | .aputWide => "aput-wide"
  | .aputObject => "aput-object"
  | .aputBoolean => "aput-boolean"
  | .aputByte => "aput-byte"
  | .aputChar => "aput-char"
  | .aputShort => "aput-short"
  | .iget => "iget"
  | .igetWide => "iget-wide"
  | .igetObject => "iget-object"
  | .igetBoolean => "iget-boolean"
  | .igetByte => "iget-byte"
  | .igetChar => "iget-char"
  | .igetShort => "iget-short"
  | .iput => "iput"
  | .iputWide => "iput-wide"
  | .iputObject => "iput-object"
  | .iputBoolean => "iput-boolean"
  | .iputByte => "iput-byte"
  | .iputChar => "iput-char"
  | .iputShort => "iput-short"
  | .sget => "sget"
  | .sgetWide => "sget-wide"
  | .sgetObject => "sget-object"
  | .sgetBoolean => "sget-boolean"
  | .sgetByte => "sget-byte"
  | .sgetChar => "sget-char"
  | .sgetShort => "sget-short"
  | .sput => "sput"
  | .sputWide => "sput-wide"
  | .sputObject => "sput-object"
  | .sputBoolean => "sput-boolean"
  | .sputByte => "sput-byte"
  | .sputChar => "sput-char"
  | .sputShort => "sput-short"
  | .invokeVirtual => "invoke-virtual"
  | .invokeSuper => "invoke-super"
  | .invokeDirect => "invoke-direct"
  | .invokeStatic => "invoke-static"
  | .invokeInterface => "invoke-interface"
  | .invokeVirtualRange => "invoke-virtual/range"
  | .invokeSuperRange => "invoke-super/range"
  | .invokeDirectRange => "invoke-direct/range"
  | .invokeStaticRange => "invoke-static/range"
  | .invokeInterfaceRange => "invoke-interface/range"
  | .negInt => "neg-int"
  | .notInt => "not-int"
  | .negLong => "neg-long"
  | .notLong => "not-long"
  | .negFloat => "neg-float"
  | .negDouble => "neg-double"
  | .intToLong => "int-to-long"
  | .intToFloat => "int-to-float"
  | .intToDouble => "int-to-double"
  | .longToInt => "long-to-int"
  | .longToFloat => "long-to-float"
  | .longToDouble => "long-to-double"
  | .floatToInt => "float-to-int"
  | .floatToLong => "float-to-long"
  | .floatToDouble => "float-to-double"
  | .doubleToInt => "double-to-int"
  | .doubleToLong => "double-to-long"
  | .doubleToFloat => "double-to-float"
  | .intToByte => "int-to-byte"
  | .intToChar => "int-to-char"
  | .intToShort => "int-to-short"
  | .addInt => "add-int"
  | .subInt => "sub-int"
  | .mulInt => "mul-int"
  | .divInt => "div-int"
  | .remInt => "rem-int"
  | .andInt => "and-int"
  | .orInt => "or-int"
  | .xorInt => "xor-int"
  | .shlInt => "shl-int"
  | .shrInt => "shr-int"
  | .ushrInt => "ushr-int"
  | .addLong => "add-long"
  | .subLong => "sub-long"
  | .mulLong => "mul-long"
  | .divLong => "div-long"
  | .remLong => "rem-long"
  | .andLong => "and-long"
  | .orLong => "or-long"
  | .xorLong => "xor-long"
  | .shlLong => "shl-long"
  | .shrLong => "shr-long"
  | .ushrLong => "ushr-long"
  | .addFloat => "add-float"
  | .subFloat => "sub-float"
  | .mulFloat => "mul-float"
  | .divFloat => "div-float"
  | .remFloat => "rem-float"
  | .addDouble => "add-double"
  | .subDouble => "sub-double"
  | .mulDouble => "mul-double"
  | .divDouble => "div-double"
  | .remDouble => "rem-double"
  | .addInt2addr => "add-int/2addr"
  | .subInt2addr => "sub-int/2addr"
  | .mulInt2addr => "mul-int/2addr"
  | .divInt2addr => "div-int/2addr"
  | .remInt2addr => "rem-int/2addr"
  | .andInt2addr => "and-int/2addr"
  | .orInt2addr => "or-int/2addr"
  | .xorInt2addr => "xor-int/2addr"
  | .shlInt2addr => "shl-int/2addr"
  | .shrInt2addr => "shr-int/2addr"
  | .ushrInt2addr => "ushr-int/2addr"
  | .addLong2addr => "add-long/2addr"
  | .subLong2addr => "sub-long/2addr"
  | .mulLong2addr => "mul-long/2addr"
  | .divLong2addr => "div-long/2addr"
  | .remLong2addr => "rem-long/2addr"
  | .andLong2addr => "and-long/2addr"
  | .orLong2addr => "or-long/2addr"
  | .xorLong2addr => "xor-long/2addr"
  | .shlLong2addr => "shl-long/2addr"
  | .shrLong2addr => "shr-long/2addr"
  | .ushrLong2addr => "ushr-long/2addr"
  | .addFloat2addr => "add-float/2addr"
  | .subFloat2addr => "sub-float/2addr"
  | .mulFloat2addr => "mul-float/2addr"
  | .divFloat2addr => "div-float/2addr"
  | .remFloat2addr => "rem-float/2addr"
  | .addDouble2addr => "add-double/2addr"
  | .subDouble2addr => "sub-double/2addr"
  | .mulDouble2addr => "mul-double/2addr"
  | .divDouble2addr => "div-double/2addr"
  | .remDouble2addr => "rem-double/2addr"
  | .addIntLit16 => "add-int/lit16"
  | .rsubInt => "rsub-int"
  | .mulIntLit16 => "mul-int/lit16"
  | .divIntLit16 => "div-int/lit16"
  | .remIntLit16 => "rem-int/lit16"
  | .andIntLit16 => "and-int/lit16"
  | .orIntLit16 => "or-int/lit16"
  | .xorIntLit16 => "xor-int/lit16"
  | .addIntLit8 => "add-int/lit8"
  | .rsubIntLit8 => "rsub-int/lit8"
  | .mulIntLit8 => "mul-int/lit8"
  | .divIntLit8 => "div-int/lit8"
  | .remIntLit8 => "rem-int/lit8"
  | .andIntLit8 => "and-int/lit8"
  | .orIntLit8 => "or-int/lit8"
  | .xorIntLit8 => "xor-int/lit8"
  | .shlIntLit8 => "shl-int/lit8"
  | .shrIntLit8 => "shr-int/lit8"
  | .ushrIntLit8 => "ushr-int/lit8"
  | .unknown => "unknown"

/-- All opcodes. -/
def all : List Opcode :=
  [.nop, .move, .moveFrom16, .move16, .moveWide, .moveWideFrom16, .moveWide16, .moveObject,
    .moveObjectFrom16, .moveObject16, .moveResult, .moveResultWide, .moveResultObject,
    .moveException, .returnVoid, .returnValue, .returnWide, .returnObject, .const4, .const16,
    .const, .constHigh16, .constWide16, .constWide32, .loadWide, .constWideHigh16,
    .loadString, .constStringJumbo, .loadClass, .monitorEnter, .monitorExit, .checkCast,
    .instanceOf, .arrayLength, .newInstance, .newArray, .filledNewArray, .filledNewArrayRange,
    .fillArrayData, .throw, .goto, .goto16, .goto32, .packedSwitch, .sparseSwitch, .cmplFloat,
    .cmpgFloat, .cmplDouble, .cmpgDouble, .cmpLong, .ifEq, .ifNe, .ifLt, .ifGe, .ifGt, .ifLe,
    .ifEqz, .ifNez, .ifLtz, .ifGez, .ifGtz, .ifLez, .aget, .agetWide, .agetObject, .agetBoolean,
    .agetByte, .agetChar, .agetShort, .aput, .aputWide, .aputObject, .aputBoolean, .aputByte,
    .aputChar, .aputShort, .iget, .igetWide, .igetObject, .igetBoolean, .igetByte, .igetChar,
    .igetShort, .iput, .iputWide, .iputObject, .iputBoolean, .iputByte, .iputChar, .iputShort,
    .sget, .sgetWide, .sgetObject, .sgetBoolean, .sgetByte, .sgetChar, .sgetShort, .sput,
    .sputWide, .sputObject, .sputBoolean, .sputByte, .sputChar, .sputShort, .invokeVirtual,
    .invokeSuper, .invokeDirect, .invokeStatic, .invokeInterface, .invokeVirtualRange,
    .invokeSuperRange, .invokeDirectRange, .invokeStaticRange, .invokeInterfaceRange, .negInt,
    .notInt, .negLong, .notLong, .negFloat, .negDouble, .intToLong, .intToFloat, .intToDouble,
    .longToInt, .longToFloat, .longToDouble, .floatToInt, .floatToLong, .floatToDouble,
    .doubleToInt, .doubleToLong, .doubleToFloat, .intToByte, .intToChar, .intToShort, .addInt,
    .subInt, .mulInt, .divInt, .remInt, .andInt, .orInt, .xorInt, .shlInt, .shrInt, .ushrInt,
    .addLong, .subLong, .mulLong, .divLong, .remLong, .andLong, .orLong, .xorLong, .shlLong,
    .shrLong, .ushrLong, .addFloat, .subFloat, .mulFloat, .divFloat, .remFloat, .addDouble,
    .subDouble, .mulDouble, .divDouble, .remDouble, .addInt2addr, .subInt2addr, .mulInt2addr,
    .divInt2addr, .remInt2addr, .andInt2addr, .orInt2addr, .xorInt2addr, .shlInt2addr,
    .shrInt2addr, .ushrInt2addr, .addLong2addr, .subLong2addr, .mulLong2addr, .divLong2addr,
    .remLong2addr, .andLong2addr, .orLong2addr, .xorLong2addr, .shlLong2addr, .shrLong2addr,
    .ushrLong2addr, .addFloat2addr, .subFloat2addr, .mulFloat2addr, .divFloat2addr,
    .remFloat2addr, .addDouble2addr, .subDouble2addr, .mulDouble2addr, .divDouble2addr,
    .remDouble2addr, .addIntLit16, .rsubInt, .mulIntLit16, .divIntLit16, .remIntLit16,
    .andIntLit16, .orIntLit16, .xorIntLit16, .addIntLit8, .rsubIntLit8, .mulIntLit8,
    .divIntLit8, .remIntLit8, .andIntLit8, .orIntLit8, .xorIntLit8, .shlIntLit8, .shrIntLit8,
    .ushrIntLit8, .unknown]

/-- The opcode with a mnemonic; blanks around the mnemonic are skipped. -/
def ofMnemonic (text : String) : Opcode :=
  (all.find? fun op => op.mnemonic == Text.trim text).getD .unknown

/-- The opcode leaves the method with or without a value. -/
def isReturn : Opcode → Bool
  | .returnVoid | .returnValue | .returnWide | .returnObject => true
  | _ => false

/-- The opcode branches on a table of keys. -/
def isSwitch : Opcode → Bool
  | .packedSwitch | .sparseSwitch => true
  | _ => false

/-- The opcode branches on a comparison. -/
def isConditional : Opcode → Bool
  | .ifEq | .ifNe | .ifLt | .ifGe | .ifGt | .ifLe
  | .ifEqz | .ifNez | .ifLtz | .ifGez | .ifGtz | .ifLez => true
  | _ => false

/-- The opcode throws an exception. -/
def isThrow (op : Opcode) : Bool :=
  op == .throw

/-- The opcode jumps. -/
def isGoto : Opcode → Bool
  | .goto | .goto16 | .goto32 => true
  | _ => false

/-- The opcode calls a method. -/
def isInvoke : Opcode → Bool
  | .invokeVirtual | .invokeSuper | .invokeDirect | .invokeStatic | .invokeInterface
  | .invokeVirtualRange | .invokeSuperRange | .invokeDirectRange | .invokeStaticRange
  | .invokeInterfaceRange => true
  | _ => false

/-- The opcode moves the result of the call before it into a register. -/
def isMoveResult : Opcode → Bool
  | .moveResult | .moveResultWide | .moveResultObject => true
  | _ => false

/-- The opcode transfers control, so that a basic block ends with it. -/
def transfersControl (op : Opcode) : Bool :=
  op.isGoto || op.isConditional || op.isSwitch || op.isReturn || op.isThrow

/-- The number of code units an instruction takes. -/
def codeUnits : Opcode → Nat
  | .loadWide => 5
  | .move16 | .moveWide16 | .moveObject16 | .const | .constWide32 | .constStringJumbo
  | .filledNewArray | .filledNewArrayRange | .fillArrayData | .goto32 | .packedSwitch
  | .sparseSwitch | .invokeVirtual | .invokeSuper | .invokeDirect | .invokeStatic
  | .invokeInterface | .invokeVirtualRange | .invokeSuperRange | .invokeDirectRange
  | .invokeStaticRange | .invokeInterfaceRange => 3
  | .moveFrom16 | .moveWideFrom16 | .moveObjectFrom16 | .const16 | .constHigh16
  | .constWide16 | .constWideHigh16 | .loadString | .loadClass | .checkCast | .instanceOf
  | .newInstance | .newArray | .goto16 | .cmplFloat | .cmpgFloat | .cmplDouble
  | .cmpgDouble | .cmpLong | .ifEq | .ifNe | .ifLt | .ifGe | .ifGt | .ifLe | .ifEqz
  | .ifNez | .ifLtz | .ifGez | .ifGtz | .ifLez | .aget | .agetWide | .agetObject
  | .agetBoolean | .agetByte | .agetChar | .agetShort | .aput | .aputWide | .aputObject
  | .aputBoolean | .aputByte | .aputChar | .aputShort | .iget | .igetWide | .igetObject
  | .igetBoolean | .igetByte | .igetChar | .igetShort | .iput | .iputWide | .iputObject
  | .iputBoolean | .iputByte | .iputChar | .iputShort | .sget | .sgetWide | .sgetObject
  | .sgetBoolean | .sgetByte | .sgetChar | .sgetShort | .sput | .sputWide | .sputObject
  | .sputBoolean | .sputByte | .sputChar | .sputShort | .addInt | .subInt | .mulInt
  | .divInt | .remInt | .andInt | .orInt | .xorInt | .shlInt | .shrInt | .ushrInt
  | .addLong | .subLong | .mulLong | .divLong | .remLong | .andLong | .orLong | .xorLong
  | .shlLong | .shrLong | .ushrLong | .addFloat | .subFloat | .mulFloat | .divFloat
  | .remFloat | .addDouble | .subDouble | .mulDouble | .divDouble | .remDouble
  | .addIntLit16 | .rsubInt | .mulIntLit16 | .divIntLit16 | .remIntLit16 | .andIntLit16
  | .orIntLit16 | .xorIntLit16 | .addIntLit8 | .rsubIntLit8 | .mulIntLit8 | .divIntLit8
  | .remIntLit8 | .andIntLit8 | .orIntLit8 | .xorIntLit8 | .shlIntLit8 | .shrIntLit8
  | .ushrIntLit8 => 2
  | _ => 1

end Opcode
end DalvikDecompiler
