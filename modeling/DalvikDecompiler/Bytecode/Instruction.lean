import DalvikDecompiler.Descriptor
import DalvikDecompiler.Bytecode.Opcode

/-!
# Decoded instructions

**Input.** An instruction as a decoder delivers it: an opcode, operands of
several kinds in the order of the encoding, its place in the code and, for a
branch, the distance to its target.

The operands of one kind are read off in order: the n-th register, the first
literal, the first type.
-/

namespace DalvikDecompiler
namespace Bytecode

/-- A reference to a field. -/
structure FieldRef where
  owner : String
  name : String
  descriptor : String
  deriving DecidableEq, Repr, Inhabited

/-- A reference to a method. -/
structure MethodRef where
  owner : String
  name : String
  descriptor : String
  deriving DecidableEq, Repr, Inhabited

/-- The name of constructors. -/
def constructorName : String :=
  "<init>"

namespace MethodRef

/-- The descriptors of the parameters. -/
def params (m : MethodRef) : List String :=
  Descriptor.params m.descriptor

/-- The descriptor of the result. -/
def returnType (m : MethodRef) : String :=
  Descriptor.returnType m.descriptor

/-- Whether the method is a constructor. -/
def isConstructor (m : MethodRef) : Bool :=
  m.name == constructorName

end MethodRef

/-- An operand of an instruction. -/
inductive Operand where
  | register (register : UInt16)
  | literal (value : Int64)
  | wideLiteral (value : Int64)
  | string (value : String)
  | type (descriptor : String)
  | field (field : FieldRef)
  | method (method : MethodRef)
  | offset (distance : Int32)
  | switchKeys (keys : List Int32)
  | dataConstants (width : UInt16) (data : List UInt8)
  deriving DecidableEq, Repr

namespace Operand

/-- The register of a register operand. -/
def register? : Operand → Option UInt16
  | .register r => some r
  | _ => none

/-- The value of a literal of either width. -/
def literal? : Operand → Option Int64
  | .literal v => some v
  | .wideLiteral v => some v
  | _ => none

/-- The text of a string operand. -/
def string? : Operand → Option String
  | .string s => some s
  | _ => none

/-- The descriptor of a type operand. -/
def type? : Operand → Option String
  | .type t => some t
  | _ => none

/-- The field of a field operand. -/
def field? : Operand → Option FieldRef
  | .field f => some f
  | _ => none

/-- The method of a method operand. -/
def method? : Operand → Option MethodRef
  | .method m => some m
  | _ => none

/-- The keys of a table of keys. -/
def switchKeys? : Operand → Option (List Int32)
  | .switchKeys keys => some keys
  | _ => none

/-- The element width and the bytes of array data. -/
def arrayData? : Operand → Option (UInt16 × List UInt8)
  | .dataConstants width data => some (width, data)
  | _ => none

end Operand

/-- A decoded instruction. -/
structure Instruction where
  opcode : Opcode
  operands : List Operand
  /-- The place of the instruction, in code units. -/
  offset : UInt32
  /-- The size of the instruction, in code units. -/
  length : UInt32
  /-- The distance from the instruction to its branch target. -/
  branchDistance : Option Int32
  deriving DecidableEq, Repr

namespace Instruction

/-- The offset a branch goes to, if it is one. -/
def targetOffset (ins : Instruction) : Option UInt32 :=
  ins.branchDistance.bind fun distance =>
    let target := (ins.offset.toNat : Int) + distance.toInt
    if 0 ≤ target ∧ target < 4294967296 then some (UInt32.ofNat target.toNat) else none

/-- The register operands in order. -/
def registers (ins : Instruction) : List UInt16 :=
  ins.operands.filterMap Operand.register?

/-- The n-th register operand. -/
def register? (ins : Instruction) (n : Nat) : Option UInt16 :=
  ins.registers[n]?

/-- The first literal. -/
def literal? (ins : Instruction) : Option Int64 :=
  ins.operands.findSome? Operand.literal?

/-- The first text. -/
def string? (ins : Instruction) : Option String :=
  ins.operands.findSome? Operand.string?

/-- The first type. -/
def type? (ins : Instruction) : Option String :=
  ins.operands.findSome? Operand.type?

/-- The first field. -/
def field? (ins : Instruction) : Option FieldRef :=
  ins.operands.findSome? Operand.field?

/-- The first method. -/
def method? (ins : Instruction) : Option MethodRef :=
  ins.operands.findSome? Operand.method?

/-- The first table of keys. -/
def switchKeys? (ins : Instruction) : Option (List Int32) :=
  ins.operands.findSome? Operand.switchKeys?

/-- The first array data. -/
def arrayData? (ins : Instruction) : Option (UInt16 × List UInt8) :=
  ins.operands.findSome? Operand.arrayData?

end Instruction

end Bytecode
end DalvikDecompiler
