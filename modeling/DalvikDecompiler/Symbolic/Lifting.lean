import DalvikDecompiler.Symbolic.Instr

/-!
# Lifting

**Input.** Decoded instructions, one after another, and the variables known so
far.

**Algorithm.** Each instruction becomes at most one instruction on variables;
jumps vanish, since the flow graph has them as edges.  A call with a result
defines a new variable, and the instruction that moves the result reads the
variable of the last call. Operands are looked up in a fixed order, because a
register gets its variable when it is first mentioned.

**Results.** A missing operand is an error, and the variables mentioned before
it stay.
-/

namespace DalvikDecompiler
namespace Symbolic

open Bytecode (FieldRef MethodRef)

/-- Why an instruction cannot be lifted. -/
inductive LiftError where
  | missingRegister (opcode : Opcode) (offset : UInt32) (index : Nat)
  | missingLiteral (opcode : Opcode) (offset : UInt32)
  | missingType (opcode : Opcode) (offset : UInt32)
  | missingField (opcode : Opcode) (offset : UInt32)
  | missingMethod (opcode : Opcode) (offset : UInt32)
  | missingReceiver (opcode : Opcode) (offset : UInt32)
  | missingString (opcode : Opcode)
  | missingArrayData
  | noPendingResult (opcode : Opcode) (offset : UInt32)
  | tooFewArguments (opcode : Opcode) (offset : UInt32) (descriptor : String)
  deriving DecidableEq, Repr

namespace LiftError

/-- The instruction a message is about. -/
def place (opcode : Opcode) (offset : UInt32) : String :=
  opcode.mnemonic ++ " at " ++ Text.hex offset.toNat

/-- The wording of a lifting error. -/
def message : LiftError → String
  | .missingRegister opcode offset index =>
      place opcode offset ++ " is missing register operand " ++ toString index
  | .missingLiteral opcode offset => place opcode offset ++ " without literal"
  | .missingType opcode offset => place opcode offset ++ " without type"
  | .missingField opcode offset => place opcode offset ++ " without field"
  | .missingMethod opcode offset => place opcode offset ++ " without method"
  | .missingReceiver opcode offset => place opcode offset ++ " without receiver"
  | .missingString opcode => opcode.mnemonic ++ " without string operand"
  | .missingArrayData => "fill-array-data without payload"
  | .noPendingResult opcode offset => place opcode offset ++ " without a pending result"
  | .tooFewArguments opcode offset descriptor =>
      place opcode offset ++ " passes fewer registers than " ++ descriptor ++ " expects"

end LiftError

/-- What lifting carries from one instruction to the next. -/
structure LiftState where
  vars : Variables
  /-- The variable of the last call with a result. -/
  pending : Option VarId
  deriving Repr

/-- Computations that carry a lifter and may fail. -/
abbrev LiftM := EStateM LiftError LiftState

/-- The operands of an arithmetic instruction. -/
inductive ArithmeticForm where
  | threeRegister | twoAddress | literal | reverseLiteral
  deriving DecidableEq, Repr

/-- The meaning of an arithmetic opcode. -/
structure Arithmetic where
  op : BinaryOp
  type : String
  form : ArithmeticForm

/-- The arithmetic opcodes. -/
def arithmetic? : Opcode → Option Arithmetic
  | .addInt => some ⟨.add, "I", .threeRegister⟩
  | .subInt => some ⟨.sub, "I", .threeRegister⟩
  | .mulInt => some ⟨.mul, "I", .threeRegister⟩
  | .divInt => some ⟨.div, "I", .threeRegister⟩
  | .remInt => some ⟨.rem, "I", .threeRegister⟩
  | .andInt => some ⟨.and, "I", .threeRegister⟩
  | .orInt => some ⟨.or, "I", .threeRegister⟩
  | .xorInt => some ⟨.xor, "I", .threeRegister⟩
  | .shlInt => some ⟨.shl, "I", .threeRegister⟩
  | .shrInt => some ⟨.shr, "I", .threeRegister⟩
  | .ushrInt => some ⟨.ushr, "I", .threeRegister⟩
  | .addLong => some ⟨.add, "J", .threeRegister⟩
  | .subLong => some ⟨.sub, "J", .threeRegister⟩
  | .mulLong => some ⟨.mul, "J", .threeRegister⟩
  | .divLong => some ⟨.div, "J", .threeRegister⟩
  | .remLong => some ⟨.rem, "J", .threeRegister⟩
  | .andLong => some ⟨.and, "J", .threeRegister⟩
  | .orLong => some ⟨.or, "J", .threeRegister⟩
  | .xorLong => some ⟨.xor, "J", .threeRegister⟩
  | .shlLong => some ⟨.shl, "J", .threeRegister⟩
  | .shrLong => some ⟨.shr, "J", .threeRegister⟩
  | .ushrLong => some ⟨.ushr, "J", .threeRegister⟩
  | .addFloat => some ⟨.add, "F", .threeRegister⟩
  | .subFloat => some ⟨.sub, "F", .threeRegister⟩
  | .mulFloat => some ⟨.mul, "F", .threeRegister⟩
  | .divFloat => some ⟨.div, "F", .threeRegister⟩
  | .remFloat => some ⟨.rem, "F", .threeRegister⟩
  | .addDouble => some ⟨.add, "D", .threeRegister⟩
  | .subDouble => some ⟨.sub, "D", .threeRegister⟩
  | .mulDouble => some ⟨.mul, "D", .threeRegister⟩
  | .divDouble => some ⟨.div, "D", .threeRegister⟩
  | .remDouble => some ⟨.rem, "D", .threeRegister⟩
  | .addInt2addr => some ⟨.add, "I", .twoAddress⟩
  | .subInt2addr => some ⟨.sub, "I", .twoAddress⟩
  | .mulInt2addr => some ⟨.mul, "I", .twoAddress⟩
  | .divInt2addr => some ⟨.div, "I", .twoAddress⟩
  | .remInt2addr => some ⟨.rem, "I", .twoAddress⟩
  | .andInt2addr => some ⟨.and, "I", .twoAddress⟩
  | .orInt2addr => some ⟨.or, "I", .twoAddress⟩
  | .xorInt2addr => some ⟨.xor, "I", .twoAddress⟩
  | .shlInt2addr => some ⟨.shl, "I", .twoAddress⟩
  | .shrInt2addr => some ⟨.shr, "I", .twoAddress⟩
  | .ushrInt2addr => some ⟨.ushr, "I", .twoAddress⟩
  | .addLong2addr => some ⟨.add, "J", .twoAddress⟩
  | .subLong2addr => some ⟨.sub, "J", .twoAddress⟩
  | .mulLong2addr => some ⟨.mul, "J", .twoAddress⟩
  | .divLong2addr => some ⟨.div, "J", .twoAddress⟩
  | .remLong2addr => some ⟨.rem, "J", .twoAddress⟩
  | .andLong2addr => some ⟨.and, "J", .twoAddress⟩
  | .orLong2addr => some ⟨.or, "J", .twoAddress⟩
  | .xorLong2addr => some ⟨.xor, "J", .twoAddress⟩
  | .shlLong2addr => some ⟨.shl, "J", .twoAddress⟩
  | .shrLong2addr => some ⟨.shr, "J", .twoAddress⟩
  | .ushrLong2addr => some ⟨.ushr, "J", .twoAddress⟩
  | .addFloat2addr => some ⟨.add, "F", .twoAddress⟩
  | .subFloat2addr => some ⟨.sub, "F", .twoAddress⟩
  | .mulFloat2addr => some ⟨.mul, "F", .twoAddress⟩
  | .divFloat2addr => some ⟨.div, "F", .twoAddress⟩
  | .remFloat2addr => some ⟨.rem, "F", .twoAddress⟩
  | .addDouble2addr => some ⟨.add, "D", .twoAddress⟩
  | .subDouble2addr => some ⟨.sub, "D", .twoAddress⟩
  | .mulDouble2addr => some ⟨.mul, "D", .twoAddress⟩
  | .divDouble2addr => some ⟨.div, "D", .twoAddress⟩
  | .remDouble2addr => some ⟨.rem, "D", .twoAddress⟩
  | .addIntLit16 => some ⟨.add, "I", .literal⟩
  | .rsubInt => some ⟨.sub, "I", .reverseLiteral⟩
  | .mulIntLit16 => some ⟨.mul, "I", .literal⟩
  | .divIntLit16 => some ⟨.div, "I", .literal⟩
  | .remIntLit16 => some ⟨.rem, "I", .literal⟩
  | .andIntLit16 => some ⟨.and, "I", .literal⟩
  | .orIntLit16 => some ⟨.or, "I", .literal⟩
  | .xorIntLit16 => some ⟨.xor, "I", .literal⟩
  | .addIntLit8 => some ⟨.add, "I", .literal⟩
  | .rsubIntLit8 => some ⟨.sub, "I", .reverseLiteral⟩
  | .mulIntLit8 => some ⟨.mul, "I", .literal⟩
  | .divIntLit8 => some ⟨.div, "I", .literal⟩
  | .remIntLit8 => some ⟨.rem, "I", .literal⟩
  | .andIntLit8 => some ⟨.and, "I", .literal⟩
  | .orIntLit8 => some ⟨.or, "I", .literal⟩
  | .xorIntLit8 => some ⟨.xor, "I", .literal⟩
  | .shlIntLit8 => some ⟨.shl, "I", .literal⟩
  | .shrIntLit8 => some ⟨.shr, "I", .literal⟩
  | .ushrIntLit8 => some ⟨.ushr, "I", .literal⟩
  | _ => none

/-- The relation that a branch opcode tests. -/
def relationOf : Opcode → Relation
  | .ifEq | .ifEqz => .eq
  | .ifNe | .ifNez => .ne
  | .ifLt | .ifLtz => .lt
  | .ifGe | .ifGez => .ge
  | .ifGt | .ifGtz => .gt
  | _ => .le

/-- The element type that an array opcode states. -/
def elementTypeOf : Opcode → Option String
  | .agetBoolean => some "Z"
  | .agetByte => some "B"
  | .agetChar => some "C"
  | .agetShort => some "S"
  | _ => none

namespace LiftState

open Bytecode (Instruction)

/-- The operand, or an error when there is none. -/
def require {α : Type} (operand : Option α) (error : LiftError) : LiftM α :=
  match operand with
  | some x => pure x
  | none => throw error

/-- The variable of a register. -/
def varOf (r : UInt16) : LiftM VarId :=
  modifyGet fun lifter =>
    let (id, vars) := lifter.vars.register r
    (id, { lifter with vars })

/-- The variable of the n-th register operand. -/
def reg (ins : Instruction) (n : Nat) : LiftM VarId := do
  let r ← require (ins.register? n) (.missingRegister ins.opcode ins.offset n)
  varOf r

/-- The n-th register operand as an expression. -/
def operand (ins : Instruction) (n : Nat) : LiftM Expr :=
  Expr.var <$> reg ins n

/-- The literal operand. -/
def literal (ins : Instruction) : LiftM Int64 :=
  require ins.literal? (.missingLiteral ins.opcode ins.offset)

/-- The literal operand, cut to 32 bits. -/
def intLiteral (ins : Instruction) : LiftM Expr := do
  let value ← literal ins
  return .const (.int value.toInt32)

/-- The type operand. -/
def type (ins : Instruction) : LiftM String :=
  require ins.type? (.missingType ins.opcode ins.offset)

/-- The field operand. -/
def field (ins : Instruction) : LiftM FieldRef :=
  require ins.field? (.missingField ins.opcode ins.offset)

/-- Assign a value to the first register operand. -/
def assign (ins : Instruction) (value : Expr) : LiftM Instr := do
  let target ← reg ins 0
  return .assign (some target) value

/-- Convert the second register operand. -/
def cast (ins : Instruction) (type : String) : LiftM Instr := do
  let value ← operand ins 1
  assign ins (.cast type value)

/-- Apply a unary operator to the second register operand. -/
def unary (ins : Instruction) (op : UnaryOp) (type : String) : LiftM Instr := do
  let value ← operand ins 1
  assign ins (.unary op value type)

/-- Compare the second and third register operands. -/
def compare (ins : Instruction) (type : String) : LiftM Instr := do
  let left ← operand ins 1
  let right ← operand ins 2
  assign ins (.compare type left right)

/-- Apply a binary operator. -/
def binary (ins : Instruction) (a : Arithmetic) : LiftM Instr := do
  let (left, right) ←
    match a.form with
    | .threeRegister => do
        let left ← operand ins 1
        let right ← operand ins 2
        pure (left, right)
    | .twoAddress => do
        let left ← operand ins 0
        let right ← operand ins 1
        pure (left, right)
    | .literal => do
        let left ← operand ins 1
        let right ← intLiteral ins
        pure (left, right)
    | .reverseLiteral => do
        let left ← intLiteral ins
        let right ← operand ins 1
        pure (left, right)
  assign ins (.binary a.op left right a.type)

/-- Make a new variable for a result that the next instruction may move. -/
def newResult (type : String) : LiftM VarId :=
  modifyGet fun lifter =>
    let (id, vars) := lifter.vars.addTemp (some type)
    (id, { vars, pending := some id })

/-- The arguments of a call: each parameter takes as many registers as its type is wide. -/
def arguments (ins : Instruction) (descriptor : String) :
    List UInt16 → List String → LiftM (List Expr)
  | _, [] => pure []
  | registers, param :: params => do
      let r ← require registers.head? (.tooFewArguments ins.opcode ins.offset descriptor)
      let argument ← varOf r
      let rest ←
        arguments ins descriptor (registers.drop (Descriptor.registerCount param)) params
      return .var argument :: rest

/-- The method operand. -/
def method (ins : Instruction) : LiftM MethodRef :=
  require ins.method? (.missingMethod ins.opcode ins.offset)

/-- The instruction for a call; a call with a result defines a new variable. -/
def bindCall (m : MethodRef) (value : Expr) : LiftM Instr := do
  if m.returnType = "V" then
    return .assign none value
  else
    let result ← newResult m.returnType
    return .assign (some result) value

/-- Call a static method. -/
def staticCall (ins : Instruction) : LiftM Instr := do
  let m ← method ins
  let args ← arguments ins m.descriptor ins.registers m.params
  bindCall m (.staticCall m args)

/-- Call a method on an object.  A constructor called on anything but the receiver of this method
defines the variable of the new object. -/
def call (ins : Instruction) (dispatch : Dispatch) : LiftM Instr := do
  let m ← method ins
  let r ← require ins.registers.head? (.missingReceiver ins.opcode ins.offset)
  let receiver ← varOf r
  let args ← arguments ins m.descriptor (ins.registers.drop 1) m.params
  let lifter ← get
  let value := Expr.call dispatch m (.var receiver) args
  if m.isConstructor && !lifter.vars.isReceiver receiver then
    return .assign (some receiver) value
  else
    bindCall m value

/-- Move the pending result. -/
def moveResult (ins : Instruction) : LiftM Instr := do
  let lifter ← get
  let result ← require lifter.pending (.noPendingResult ins.opcode ins.offset)
  let target ← reg ins 0
  return .moveResult target (.var result)

/-- Make an array of the register operands. -/
def filledArray (ins : Instruction) : LiftM Instr := do
  let arrayType ← type ins
  let elements ← ins.registers.mapM varOf
  let result ← newResult arrayType
  return .assign (some result) (.filledArray arrayType (elements.map .var))

/-- Lift an instruction other than a jump. -/
def liftOther (ins : Instruction) : LiftM Instr :=
  match ins.opcode with
  | .move | .moveFrom16 | .move16 | .moveWide | .moveWideFrom16 | .moveWide16
  | .moveObject | .moveObjectFrom16 | .moveObject16 => do
      let target ← reg ins 0
      let value ← operand ins 1
      return .move target value
  | .moveResult | .moveResultWide | .moveResultObject => moveResult ins
  | .moveException => do
      let target ← reg ins 0
      return .moveException target
  | .returnVoid => pure (.ret none)
  | .returnValue | .returnWide | .returnObject => do
      let value ← operand ins 0
      return .ret (some value)
  | .const4 | .const16 | .const | .constHigh16 => do
      let value ← intLiteral ins
      assign ins value
  | .constWide16 | .constWide32 | .loadWide | .constWideHigh16 => do
      let value ← literal ins
      assign ins (.const (.wide value))
  | .loadString | .constStringJumbo => do
      let value ← require ins.string? (.missingString ins.opcode)
      assign ins (.const (.string value))
  | .loadClass => do
      let constant ← type ins
      assign ins (.const (.type constant))
  | .monitorEnter => do
      let object ← operand ins 0
      return .monitorEnter object
  | .monitorExit => do
      let object ← operand ins 0
      return .monitorExit object
  | .checkCast => do
      let value ← reg ins 0
      let target ← type ins
      return .assign (some value) (.checkCast target (.var value))
  | .instanceOf => do
      let value ← operand ins 1
      let tested ← type ins
      assign ins (.instanceOf tested value)
  | .arrayLength => do
      let array ← operand ins 1
      assign ins (.arrayLength array)
  | .newInstance => do
      let made ← type ins
      assign ins (.newInstance made)
  | .newArray => do
      let size ← operand ins 1
      let made ← type ins
      assign ins (.newArray made size)
  | .filledNewArray | .filledNewArrayRange => filledArray ins
  | .fillArrayData => do
      let array ← operand ins 0
      let (width, data) ← require ins.arrayData? .missingArrayData
      return .fillArrayData array width data
  | .throw => do
      let value ← operand ins 0
      return .throw value
  | .packedSwitch | .sparseSwitch => do
      let selector ← operand ins 0
      return .switch selector
  | .cmplFloat | .cmpgFloat => compare ins "F"
  | .cmplDouble | .cmpgDouble => compare ins "D"
  | .cmpLong => compare ins "J"
  | .ifEq | .ifNe | .ifLt | .ifGe | .ifGt | .ifLe => do
      let left ← operand ins 0
      let right ← operand ins 1
      return .ifCompare (relationOf ins.opcode) left right
  | .ifEqz | .ifNez | .ifLtz | .ifGez | .ifGtz | .ifLez => do
      let value ← operand ins 0
      return .ifCompareZero (relationOf ins.opcode) value
  | .aget | .agetWide | .agetObject | .agetBoolean | .agetByte | .agetChar | .agetShort => do
      let array ← operand ins 1
      let index ← operand ins 2
      assign ins (.arrayRead array index (elementTypeOf ins.opcode))
  | .aput | .aputWide | .aputObject | .aputBoolean | .aputByte | .aputChar | .aputShort => do
      let value ← operand ins 0
      let array ← operand ins 1
      let index ← operand ins 2
      return .arrayWrite array index value
  | .iget | .igetWide | .igetObject | .igetBoolean | .igetByte | .igetChar | .igetShort => do
      let object ← operand ins 1
      let source ← field ins
      assign ins (.fieldRead object source)
  | .iput | .iputWide | .iputObject | .iputBoolean | .iputByte | .iputChar | .iputShort => do
      let value ← operand ins 0
      let object ← operand ins 1
      let target ← field ins
      return .fieldWrite object target value
  | .sget | .sgetWide | .sgetObject | .sgetBoolean | .sgetByte | .sgetChar | .sgetShort => do
      let source ← field ins
      assign ins (.staticFieldRead source)
  | .sput | .sputWide | .sputObject | .sputBoolean | .sputByte | .sputChar | .sputShort => do
      let value ← operand ins 0
      let target ← field ins
      return .staticFieldWrite target value
  | .invokeVirtual | .invokeVirtualRange => call ins .virtual
  | .invokeSuper | .invokeSuperRange => call ins .super
  | .invokeDirect | .invokeDirectRange => call ins .direct
  | .invokeStatic | .invokeStaticRange => staticCall ins
  | .invokeInterface | .invokeInterfaceRange => call ins .interface
  | .negInt => unary ins .neg "I"
  | .notInt => unary ins .not "I"
  | .negLong => unary ins .neg "J"
  | .notLong => unary ins .not "J"
  | .negFloat => unary ins .neg "F"
  | .negDouble => unary ins .neg "D"
  | .intToLong | .floatToLong | .doubleToLong => cast ins "J"
  | .intToFloat | .longToFloat | .doubleToFloat => cast ins "F"
  | .intToDouble | .longToDouble | .floatToDouble => cast ins "D"
  | .longToInt | .floatToInt | .doubleToInt => cast ins "I"
  | .intToByte => cast ins "B"
  | .intToChar => cast ins "C"
  | .intToShort => cast ins "S"
  | opcode =>
      match arithmetic? opcode with
      | some a => binary ins a
      | none => pure .nop

/-- Lift an instruction; a jump has no counterpart. -/
def lift (ins : Instruction) : LiftM (Option Instr) :=
  if ins.opcode.isGoto then pure none else some <$> liftOther ins

end LiftState

end Symbolic
end DalvikDecompiler
