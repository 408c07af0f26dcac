import DalvikDecompiler.Bytecode.Method
import DalvikDecompiler.OrderedSet

/-!
# Variables

**Input.** The registers of a method, its arguments, the results of its calls
and the webs that registers are split into.

**Algorithm.** Variables are numbered in the order in which they are first
needed.  A variable's name is read off its kind, and its type is set at most
once.
-/

namespace DalvikDecompiler
namespace Symbolic

/-- Variables are numbered from zero. -/
abbrev VarId := Nat

/-- What a variable stands for. -/
inductive VarOrigin where
  | register (register : UInt16)
  | param (register : UInt16)
  | receiver
  /-- The result of a call. -/
  | temp (number : Nat)
  /-- One of the parts of another variable. -/
  | split (base : VarId) (version : Nat)
  deriving DecidableEq, Repr

/-- A variable. -/
structure Variable where
  kind : VarOrigin
  type : Option String
  /-- Whether a declaration has been written. -/
  declared : Bool
  deriving DecidableEq, Repr

namespace Variable

/-- A variable that is not declared yet. -/
def fresh (kind : VarOrigin) (type : Option String) : Variable :=
  { kind, type, declared := false }

/-- Whether the variable is an argument. -/
def isParam (v : Variable) : Bool :=
  match v.kind with
  | .param _ => true
  | .receiver => true
  | _ => false

/-- Whether the variable is a register of the frame. -/
def isRegister (v : Variable) : Bool :=
  match v.kind with
  | .register _ => true
  | _ => v.isParam

end Variable

/-- The variables of a method. -/
structure Variables where
  entries : Array Variable
  /-- The variable of each register that has been mentioned. -/
  registers : List (UInt16 × VarId)
  /-- The arguments in order, the receiver first. -/
  params : List VarId
  /-- The number of call results so far. -/
  temps : Nat
  deriving Repr

namespace Variables

/-- No variables. -/
def empty : Variables :=
  { entries := #[], registers := [], params := [], temps := 0 }

/-- The number of variables. -/
def size (vars : Variables) : Nat :=
  vars.entries.size

/-- The numbers of all variables. -/
def ids (vars : Variables) : List VarId :=
  List.range vars.size

/-- The variable with a number. -/
def get? (vars : Variables) (id : VarId) : Option Variable :=
  vars.entries[id]?

/-- Add a variable; its number is the former size. -/
def push (vars : Variables) (v : Variable) : Variables :=
  { vars with entries := vars.entries.push v }

/-- Change the variable with a number, if there is one. -/
def modify (vars : Variables) (id : VarId) (f : Variable → Variable) : Variables :=
  { vars with entries := vars.entries.modify id f }

/-- Add an argument of a method. -/
def addArgument (owner : String) (vars : Variables) (argument : UInt16 × Option String) :
    Variables :=
  let id := vars.size
  let v :=
    match argument.2 with
    | some type => Variable.fresh (.param argument.1) (some type)
    | none => Variable.fresh .receiver (some owner)
  let vars := vars.push v
  { vars with
    registers := OrderedMap.insert argument.1 id vars.registers
    params := vars.params ++ [id] }

/-- The variables a method starts with: its arguments. -/
def ofMethod (m : Bytecode.Method) : Variables :=
  m.argumentRegisters.foldl (addArgument m.owner) empty

/-- The variable of a register, which is added when the register is mentioned for the first time.
-/
def register (vars : Variables) (r : UInt16) : VarId × Variables :=
  match vars.registers.lookup r with
  | some id => (id, vars)
  | none =>
      let id := vars.size
      let vars := vars.push (.fresh (.register r) none)
      (id, { vars with registers := OrderedMap.insert r id vars.registers })

/-- Add the result of a call. -/
def addTemp (vars : Variables) (type : Option String) : VarId × Variables :=
  let id := vars.size
  let vars := vars.push (.fresh (.temp vars.temps) type)
  (id, { vars with temps := vars.temps + 1 })

/-- The type of a variable, if it is known. -/
def type? (vars : Variables) (id : VarId) : Option String :=
  (vars.get? id).bind Variable.type

/-- Add a part of a variable, of the same type. -/
def addSplit (vars : Variables) (base : VarId) (version : Nat) : VarId × Variables :=
  (vars.size, vars.push (.fresh (.split base version) (vars.type? base)))

/-- Whether a variable exists and has no type yet. -/
def isUntyped (vars : Variables) (id : VarId) : Bool :=
  (vars.get? id).any fun v => v.type.isNone

/-- Give a type to a variable that has none.  No variable has the type of no value. -/
def suggestType (vars : Variables) (id : VarId) (type : String) : Variables :=
  if vars.isUntyped id && type != "V" then
    vars.modify id fun v => { v with type := some type }
  else
    vars

/-- The number of variables with a type. -/
def typedCount (vars : Variables) : Nat :=
  vars.entries.toList.countP fun v => v.type.isSome

/-- Whether a variable is an argument. -/
def isParam (vars : Variables) (id : VarId) : Bool :=
  (vars.get? id).any Variable.isParam

/-- Whether a variable is the receiver. -/
def isReceiver (vars : Variables) (id : VarId) : Bool :=
  (vars.get? id).any fun v => v.kind == .receiver

/-- Whether a variable exists and has not been declared. -/
def isUndeclared (vars : Variables) (id : VarId) : Bool :=
  (vars.get? id).any fun v => !v.declared

/-- Record that a variable is declared. -/
def markDeclared (vars : Variables) (id : VarId) : Variables :=
  vars.modify id fun v => { v with declared := true }

/-- The name of a variable whose chain of bases is shorter than a bound. -/
def nameWithin (vars : Variables) : Nat → VarId → String
  | bound, id =>
      match (vars.get? id).map Variable.kind with
      | some (.register r) => "v" ++ toString r.toNat
      | some (.param r) => "p" ++ toString r.toNat
      | some .receiver => "this"
      | some (.temp n) => "vtmp" ++ toString n
      | some (.split base version) =>
          match bound with
          | 0 => "var" ++ toString id
          | bound + 1 => nameWithin vars bound base ++ "_" ++ toString version
      | none => "var" ++ toString id

/-- The name of a variable.  The base of a part is an older variable, so that no chain of bases is
longer than the number of variables. -/
def name (vars : Variables) (id : VarId) : String :=
  vars.nameWithin vars.size id

end Variables

end Symbolic
end DalvikDecompiler
