import DalvikDecompiler.Json.Basic
import DalvikDecompiler.Bytecode.Class

/-!
# The JSON form of bytecode

**Input.** Methods and classes as they travel between programs.

**Algorithm.** A record is an object with one member per field; an alternative
with content is an object with one member, named for the alternative, and one
without content is its name.  Opcodes are their mnemonics and access words
their texts.  A record may have members that are not read, and an optional
member may be left out; an array of the fields is read as well.
-/

namespace DalvikDecompiler

namespace Opcode

/-- The JSON form of an opcode. -/
def toJson (op : Opcode) : Json :=
  .string op.mnemonic

/-- Read an opcode; any text has one. -/
def ofJson? (j : Json) : Option Opcode :=
  j.asString?.map ofMnemonic

end Opcode

namespace AccessFlags

/-- The JSON form of an access word. -/
def toJson (flags : AccessFlags) : Json :=
  .string flags.text

/-- Read an access word. -/
def ofJson? (j : Json) : Option AccessFlags :=
  j.asString?.bind ofText?

end AccessFlags

namespace Bytecode

namespace FieldRef

/-- The JSON form of a field reference. -/
def toJson (f : FieldRef) : Json :=
  .object [("class", .string f.owner), ("name", .string f.name), ("ty", .string f.descriptor)]

/-- Read a field reference. -/
def ofJson? (j : Json) : Option FieldRef := do
  let j ← j.record? ["class", "name", "ty"]
  let owner ← j.field? "class" Json.asString?
  let name ← j.field? "name" Json.asString?
  let descriptor ← j.field? "ty" Json.asString?
  return { owner, name, descriptor }

end FieldRef

namespace MethodRef

/-- The JSON form of a method reference. -/
def toJson (m : MethodRef) : Json :=
  .object
    [("class", .string m.owner), ("name", .string m.name), ("descriptor", .string m.descriptor)]

/-- Read a method reference. -/
def ofJson? (j : Json) : Option MethodRef := do
  let j ← j.record? ["class", "name", "descriptor"]
  let owner ← j.field? "class" Json.asString?
  let name ← j.field? "name" Json.asString?
  let descriptor ← j.field? "descriptor" Json.asString?
  return { owner, name, descriptor }

end MethodRef

namespace Operand

/-- The JSON form of an operand. -/
def toJson : Operand → Json
  | .register r => .tagged "Register" (.ofNat r.toNat)
  | .literal v => .tagged "Literal" (.ofInt v.toInt)
  | .wideLiteral v => .tagged "WideLiteral" (.ofInt v.toInt)
  | .string s => .tagged "String" (.string s)
  | .type t => .tagged "Type" (.string t)
  | .field f => .tagged "Field" f.toJson
  | .method m => .tagged "Method" m.toJson
  | .offset d => .tagged "Offset" (.ofInt d.toInt)
  | .switchKeys keys => .tagged "SwitchKeys" (.ofList (fun k => .ofInt k.toInt) keys)
  | .dataConstants width data =>
      .tagged "ArrayData"
        (.object
          [("width", .ofNat width.toNat), ("data", .ofList (fun b => .ofNat b.toNat) data)])

/-- Read array data. -/
def readArrayData? (j : Json) : Option Operand := do
  let width ← j.field? "width" Json.asUInt16?
  let data ← j.field? "data" (Json.asList? Json.asUInt8?)
  return .dataConstants width data

/-- Read an operand. -/
def ofJson? (j : Json) : Option Operand :=
  match j.asTagged? with
  | some ("Register", content) => content.asUInt16?.map .register
  | some ("Literal", content) => content.asInt64?.map .literal
  | some ("WideLiteral", content) => content.asInt64?.map .wideLiteral
  | some ("String", content) => content.asString?.map .string
  | some ("Type", content) => content.asString?.map .type
  | some ("Field", content) => (FieldRef.ofJson? content).map .field
  | some ("Method", content) => (MethodRef.ofJson? content).map .method
  | some ("Offset", content) => content.asInt32?.map .offset
  | some ("SwitchKeys", content) => (content.asList? Json.asInt32?).map .switchKeys
  | some ("ArrayData", content) => readArrayData? content
  | _ => none

end Operand

namespace Instruction

/-- The JSON form of an instruction. -/
def toJson (ins : Instruction) : Json :=
  .object
    [("opcode", ins.opcode.toJson), ("operands", .ofList Operand.toJson ins.operands),
      ("offset", .ofNat ins.offset.toNat), ("length", .ofNat ins.length.toNat),
      ("ref_offset", .ofOption (fun d => .ofInt d.toInt) ins.branchDistance)]

/-- Read an instruction. -/
def ofJson? (j : Json) : Option Instruction := do
  let j ← j.record? ["opcode", "operands", "offset", "length", "ref_offset"]
  let opcode ← j.field? "opcode" Opcode.ofJson?
  let operands ← j.field? "operands" (Json.asList? Operand.ofJson?)
  let offset ← j.field? "offset" Json.asUInt32?
  let length ← j.field? "length" Json.asUInt32?
  let branchDistance ← j.optionalField? "ref_offset" Json.asInt32?
  return { opcode, operands, offset, length, branchDistance }

end Instruction

namespace Block

/-- The JSON form of a child: its start offset and its index. -/
def childToJson (child : UInt32 × UInt64) : Json :=
  .array [.ofNat child.1.toNat, .ofNat child.2.toNat]

/-- Read a child. -/
def readChild? (j : Json) : Option (UInt32 × UInt64) :=
  match j with
  | .array [start, index] => do
      let start ← start.asUInt32?
      let index ← index.asUInt64?
      return (start, index)
  | _ => none

/-- The JSON form of a basic block. -/
def toJson (b : Block) : Json :=
  .object
    [("name", .string b.name), ("start", .ofNat b.start.toNat), ("end", .ofNat b.stop.toNat),
      ("instructions", .ofList Instruction.toJson b.instructions),
      ("children", .ofList childToJson b.children)]

/-- Read a basic block. -/
def ofJson? (j : Json) : Option Block := do
  let j ← j.record? ["name", "start", "end", "instructions", "children"]
  let name ← j.field? "name" Json.asString?
  let start ← j.field? "start" Json.asUInt32?
  let stop ← j.field? "end" Json.asUInt32?
  let instructions ← j.field? "instructions" (Json.asList? Instruction.ofJson?)
  let children ← j.field? "children" (Json.asList? readChild?)
  return { name, start, stop, instructions, children }

end Block

namespace Handler

/-- The JSON form of a handler. -/
def toJson (h : Handler) : Json :=
  .object
    [("exception_type", .ofOption .string h.exceptionType), ("block", .ofNat h.block.toNat)]

/-- Read a handler. -/
def ofJson? (j : Json) : Option Handler := do
  let j ← j.record? ["exception_type", "block"]
  let exceptionType ← j.optionalField? "exception_type" Json.asString?
  let block ← j.field? "block" Json.asUInt64?
  return { exceptionType, block }

end Handler

namespace ProtectedRange

/-- The JSON form of a protected range. -/
def toJson (r : ProtectedRange) : Json :=
  .object
    [("start", .ofNat r.start.toNat), ("end", .ofNat r.stop.toNat),
      ("handlers", .ofList Handler.toJson r.handlers)]

/-- Read a protected range. -/
def ofJson? (j : Json) : Option ProtectedRange := do
  let j ← j.record? ["start", "end", "handlers"]
  let start ← j.field? "start" Json.asUInt32?
  let stop ← j.field? "end" Json.asUInt32?
  let handlers ← j.field? "handlers" (Json.asList? Handler.ofJson?)
  return { start, stop, handlers }

end ProtectedRange

namespace ExceptionTable

/-- The JSON form of the ranges of a method. -/
def toJson (table : ExceptionTable) : Json :=
  .object [("ranges", .ofList ProtectedRange.toJson table.ranges)]

/-- Read the ranges of a method. -/
def ofJson? (j : Json) : Option ExceptionTable := do
  let j ← j.record? ["ranges"]
  let ranges ← j.field? "ranges" (Json.asList? ProtectedRange.ofJson?)
  return { ranges }

end ExceptionTable

namespace Method

/-- The JSON form of a method. -/
def toJson (m : Method) : Json :=
  .object
    [("class", .string m.owner), ("name", .string m.name), ("descriptor", .string m.descriptor),
      ("access", m.access.toJson), ("registers", .ofNat m.registers.toNat),
      ("blocks", .ofList Block.toJson m.blocks), ("exceptions", m.exceptions.toJson)]

/-- Read a method. -/
def ofJson? (j : Json) : Option Method := do
  let j ← j.record? ["class", "name", "descriptor", "access", "registers", "blocks", "exceptions"]
  let owner ← j.field? "class" Json.asString?
  let name ← j.field? "name" Json.asString?
  let descriptor ← j.field? "descriptor" Json.asString?
  let access ← j.field? "access" AccessFlags.ofJson?
  let registers ← j.field? "registers" Json.asUInt16?
  let blocks ← j.field? "blocks" (Json.asList? Block.ofJson?)
  let exceptions ← j.field? "exceptions" ExceptionTable.ofJson?
  return { owner, name, descriptor, access, registers, blocks, exceptions }

end Method

namespace FieldValue

/-- Round a value of 64 bits to 32 bits. -/
def narrow (bits : UInt64) : UInt32 :=
  UInt32.ofNat (Decimal.BinaryFormat.double.convert .single bits.toNat)

/-- The value of 64 bits that equals one of 32 bits. -/
def widen (bits : UInt32) : UInt64 :=
  UInt64.ofNat (Decimal.BinaryFormat.single.convert .double bits.toNat)

/-- The JSON number of a floating-point value; what is not finite has none and is null. -/
def doubleToJson (bits : UInt64) : Json :=
  match Decimal.BinaryFormat.double.decode bits.toNat with
  | .finite .. => .float bits
  | _ => .null

/-- The value of a format that is nearest to an integer. -/
def nearest (f : Decimal.BinaryFormat) (n : Int) : Nat :=
  f.encode (n < 0) n.natAbs 1

/-- Read a JSON number as the nearest value of 64 bits. -/
def readDouble? : Json → Option UInt64
  | .int n => some (UInt64.ofNat (nearest .double n))
  | .float bits => some bits
  | _ => none

/-- Read a JSON number as the nearest value of 32 bits. -/
def readSingle? : Json → Option UInt32
  | .int n => some (UInt32.ofNat (nearest .single n))
  | .float bits => some (narrow bits)
  | _ => none

/-- The JSON form of an initial value. -/
def toJson : FieldValue → Json
  | .boolean b => .tagged "Boolean" (.bool b)
  | .byte v => .tagged "Byte" (.ofInt v.toInt)
  | .short v => .tagged "Short" (.ofInt v.toInt)
  | .char unit => .tagged "Char" (.ofNat unit.toNat)
  | .int v => .tagged "Int" (.ofInt v.toInt)
  | .long v => .tagged "Long" (.ofInt v.toInt)
  | .float bits => .tagged "Float" (doubleToJson (widen bits))
  | .double bits => .tagged "Double" (doubleToJson bits)
  | .string s => .tagged "String" (.string s)
  | .type t => .tagged "Type" (.string t)
  | .null => .string "Null"

/-- Read an initial value that has content. -/
def readContent? (name : String) (content : Json) : Option FieldValue :=
  match name with
  | "Boolean" => content.asBool?.map .boolean
  | "Byte" => content.asInt8?.map .byte
  | "Short" => content.asInt16?.map .short
  | "Char" => content.asUInt16?.map .char
  | "Int" => content.asInt32?.map .int
  | "Long" => content.asInt64?.map .long
  | "Float" => (readSingle? content).map .float
  | "Double" => (readDouble? content).map .double
  | "String" => content.asString?.map .string
  | "Type" => content.asString?.map .type
  | _ => none

/-- Read an initial value. -/
def ofJson? (j : Json) : Option FieldValue :=
  if j.asUnit? = some "Null" then
    some .null
  else
    j.asTagged?.bind fun (name, content) => readContent? name content

end FieldValue

namespace Field

/-- The JSON form of a field. -/
def toJson (f : Field) : Json :=
  .object
    [("name", .string f.name), ("ty", .string f.descriptor), ("access", f.access.toJson),
      ("value", .ofOption FieldValue.toJson f.value)]

/-- Read a field. -/
def ofJson? (j : Json) : Option Field := do
  let j ← j.record? ["name", "ty", "access", "value"]
  let name ← j.field? "name" Json.asString?
  let descriptor ← j.field? "ty" Json.asString?
  let access ← j.field? "access" AccessFlags.ofJson?
  let value ← j.optionalField? "value" FieldValue.ofJson?
  return { name, descriptor, access, value }

end Field

namespace Class

/-- The JSON form of a class. -/
def toJson (c : Class) : Json :=
  .object
    [("descriptor", .string c.descriptor), ("access", c.access.toJson),
      ("superclass", .ofOption .string c.superclass), ("interfaces", .ofList .string c.interfaces),
      ("fields", .ofList Field.toJson c.fields), ("methods", .ofList Method.toJson c.methods)]

/-- Read a class. -/
def ofJson? (j : Json) : Option Class := do
  let j ← j.record? ["descriptor", "access", "superclass", "interfaces", "fields", "methods"]
  let descriptor ← j.field? "descriptor" Json.asString?
  let access ← j.field? "access" AccessFlags.ofJson?
  let superclass ← j.optionalField? "superclass" Json.asString?
  let interfaces ← j.field? "interfaces" (Json.asList? Json.asString?)
  let fields ← j.field? "fields" (Json.asList? Field.ofJson?)
  let methods ← j.field? "methods" (Json.asList? Method.ofJson?)
  return { descriptor, access, superclass, interfaces, fields, methods }

end Class

end Bytecode
end DalvikDecompiler
