import DalvikDecompiler.Bytecode.Format
import DalvikDecompiler.Bytecode.Listing

/-!
# The JSON form of listings

**Input.** A method whose code is a list of items.  An item is an array that
starts with the name of what it stands for, followed by its operands; what is
behind them is not read, and neither is what is behind the parts of an operand.

**Results.** A listing, or what is wrong: the form of an item, or an operand
that is given in its general form.
-/

namespace DalvikDecompiler
namespace Bytecode

/-- Why a listing cannot be read. -/
inductive ListingFault where
  | form
  | operand
  deriving DecidableEq, Repr

/-- Computations that read a listing. -/
abbrev ReadM := Except ListingFault

namespace Listing

/-- What has been read, or else the form is wrong. -/
def formed {α : Type} : Option α → ReadM α
  | some a => .ok a
  | none => .error .form

/-- Read a list of registers. -/
def registers? (j : Json) : Option (List UInt16) :=
  j.asList? Json.asUInt16?

/-- Read the class, the name and the descriptor of a member. -/
def memberOf? {α : Type} (make : String → String → String → α) : Json → Option α
  | .array (owner :: name :: descriptor :: _) => do
      return make (← owner.asString?) (← name.asString?) (← descriptor.asString?)
  | _ => none

/-- Read a key and a label of a switch. -/
def caseOf? : Json → Option (Int32 × String)
  | .array (key :: label :: _) => do return (← key.asInt32?, ← label.asString?)
  | _ => none

/-- Read the type and the label of a handler. -/
def handlerOf? : Json → Option (Option String × String)
  | .array (type :: label :: _) => do
      return (← type.asOption? Json.asString?, ← label.asString?)
  | _ => none

/-- The operand of an item at a position. -/
def argument (items : List Json) (n : Nat) : Json :=
  items[n]?.getD .null

/-- Read operands in their general form. -/
def operands (j : Json) : ReadM (List Operand) :=
  match j.asList? Operand.ofJson? with
  | some list => .ok list
  | none => .error .operand

/-- Read an item with a name. -/
def lineNamed (name : String) (items : List Json) : ReadM Line := do
  let reg (n : Nat) : ReadM UInt16 := formed (argument items n).asUInt16?
  let text (n : Nat) : ReadM String := formed (argument items n).asString?
  let opc (n : Nat) : ReadM Opcode := formed (Opcode.ofJson? (argument items n))
  let regs (n : Nat) : ReadM (List UInt16) := formed (registers? (argument items n))
  let int (n : Nat) : ReadM Int32 := formed (argument items n).asInt32?
  match name with
  | "label" => return .label (← text 1)
  | "raw" => return .raw (← opc 1) (← operands (← formed items[2]?))
  | "op" => return .op (← opc 1) (← regs 2)
  | "nop" => return .op .nop []
  | "mov" => return .op (← opc 1) [← reg 2, ← reg 3]
  | "move_result" => return .op (← opc 1) [← reg 2]
  | "move_exception" => return .op .moveException [← reg 1]
  | "const_int" => return .loadInt (← reg 1) (← int 2)
  | "const_wide" => return .loadWide (← reg 1) (← formed (argument items 2).asInt64?)
  | "const_string" => return .loadString (← reg 1) (← text 2)
  | "const_class" => return .loadClass (← reg 1) (← text 2)
  | "new_instance" => return .newInstance (← reg 1) (← text 2)
  | "new_array" => return .newArray (← reg 1) (← reg 2) (← text 3)
  | "check_cast" => return .checkCast (← reg 1) (← text 2)
  | "instance_of" => return .instanceOf (← reg 1) (← reg 2) (← text 3)
  | "field" =>
      return .field (← opc 1) (← regs 2) (← formed (memberOf? FieldRef.mk (argument items 3)))
  | "invoke" =>
      return .invoke (← opc 1) (← formed (memberOf? MethodRef.mk (argument items 2))) (← regs 3)
  | "filled_new_array" => return .filledNewArray (← text 1) (← regs 2)
  | "fill_array_data" =>
      return .fillArrayData (← reg 1) (← reg 2)
        (← formed ((argument items 3).asList? Json.asUInt8?))
  | "binop_lit" => return .binaryLiteral (← opc 1) (← reg 2) (← reg 3) (← int 4)
  | "if_cmp" => return .branch (← opc 1) [← reg 2, ← reg 3] (← text 4)
  | "if_zero" => return .branch (← opc 1) [← reg 2] (← text 3)
  | "goto" => return .branch .goto [] (← text 1)
  | "switch" =>
      return .switch (← opc 1) (← reg 2) (← formed ((argument items 3).asList? caseOf?))
  | "ret_void" => return .op .returnVoid []
  | "ret" => return .op (← opc 1) [← reg 2]
  | "throw" => return .op .throw [← reg 1]
  | "try" =>
      return .protect (← text 1) (← text 2) (← formed ((argument items 3).asList? handlerOf?))
  | _ => throw .form

/-- Read an item. -/
def lineOf (j : Json) : ReadM Line := do
  let items ← formed j.asArray?
  lineNamed (← formed (items.head?.bind Json.asString?)) items

/-- A member that is there and not null. -/
def given? (j : Json) (name : String) : Option Json :=
  match j.member? name with
  | some .null => none
  | other => other

/-- Read a member that has to be there. -/
def required {α : Type} (read : Json → Option α) (j : Json) (name : String) : ReadM α :=
  formed ((given? j name).bind read)

/-- Read a member that may be left out. -/
def optional {α : Type} (read : Json → Option α) (j : Json) (name : String) :
    ReadM (Option α) :=
  match given? j name with
  | none => .ok none
  | some value => (formed (read value)).map some

end Listing

/-- Read a method whose code is a listing. -/
def MethodSource.ofJson (j : Json) : ReadM MethodSource := do
  let owner ← Listing.required Json.asString? j "class"
  let name ← Listing.required Json.asString? j "name"
  let descriptor ← Listing.required Json.asString? j "desc"
  let access ← Listing.optional Json.asUInt32? j "access"
  let registers ← Listing.optional Json.asUInt16? j "registers"
  let items ← Listing.optional Json.asArray? j "code"
  let code ← items.mapM fun items => items.mapM Listing.lineOf
  return { owner, name, descriptor, access := ⟨access.getD 0⟩, registers, code }

end Bytecode
end DalvikDecompiler
