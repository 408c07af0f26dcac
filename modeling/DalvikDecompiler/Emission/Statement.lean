import DalvikDecompiler.Bytecode.Class
import DalvikDecompiler.Emission.Expression

/-!
# Java statements of instructions

**Input.** An instruction over variables, the method it stands in, and which
variables have been declared.

**Algorithm.** The first assignment to a variable declares it.  A later one of
the form `x = x op e` is written as a compound assignment, or as an increment
or decrement when `e` is one; adding a negative literal is subtracting its
absolute value.
-/

namespace DalvikDecompiler
namespace Emission

open Symbolic (VarId Variables Constant Expr Instr BinaryOp)
open Java (Expression Statement VarDecl)

/-- The method whose code is written. -/
structure Writing where
  method : Bytecode.Method
  /-- Whether a call of the superclass constructor without arguments is left out. -/
  skipSuper : Bool

/-- The declaration of a variable; one without a known type is an object. -/
def declaration (vars : Variables) (v : VarId) : VarDecl :=
  { type := .ofDescriptor ((vars.type? v).getD Bytecode.objectDescriptor)
    name := vars.name v }

/-- Whether values of a type are ints of some width. -/
def isIntLike (type : String) : Bool :=
  type == "I" || type == "S" || type == "B" || type == "C"

/-- The absolute value of a negative integer literal of a type, unless it is too large. -/
def negatedLiteral? (e : Expr) (type : String) : Option Expr :=
  match e with
  | .const (.int v) =>
      if isIntLike type && v < 0 && v != Int32.minValue then some (.const (.int (-v))) else none
  | .const (.wide v) =>
      if type == "J" && v < 0 && v != Int64.minValue then some (.const (.wide (-v))) else none
  | _ => none

/-- The operation that undoes an addition or a subtraction. -/
def opposite? : BinaryOp → Option BinaryOp
  | .add => some .sub
  | .sub => some .add
  | _ => none

/-- Turn the addition of a negative literal into a subtraction, and the other way round. -/
def foldNegative (op : BinaryOp) (right : Expr) (type : String) : BinaryOp × Expr :=
  match opposite? op, negatedLiteral? right type with
  | some flipped, some value => (flipped, value)
  | _, _ => (op, right)

/-- Whether an operand is the integer one. -/
def isOne (e : Expr) (type : String) : Bool :=
  match e with
  | .const (.int v) => v == 1 && isIntLike type
  | .const (.wide v) => v == 1 && type == "J"
  | _ => false

/-- How a variable is changed by an operation on itself. -/
inductive Update where
  /-- Increment or decrement. -/
  | step (op : BinaryOp)
  /-- Assignment with an operator. -/
  | compound (op : BinaryOp) (value : Expr) (type : String)

/-- The update of a variable that an assignment makes, if it has that form. -/
def update? (target : VarId) (value : Expr) : Option Update :=
  match value with
  | .binary op left right type =>
      if left.isVar target then
        let (op, right) := foldNegative op right type
        if (opposite? op).isSome && isOne right type then
          some (.step op)
        else
          some (.compound op right (op.rightType type))
      else
        none
  | _ => none

/-- Whether an assignment to a variable has to declare it. -/
def declares (vars : Variables) (v : VarId) : Bool :=
  !vars.isParam v && vars.isUndeclared v

/-- The statement of an assignment. -/
def assignment (vars : Variables) (owner : String) (target : VarId) (value : Expr) :
    Statement × Variables :=
  if declares vars target then
    (.declaration (declaration vars target)
      (some (expression vars owner value (vars.type? target))), vars.markDeclared target)
  else
    let name : Expression := .localVar (vars.name target)
    let change : Expression :=
      match update? target value with
      | some (.step op) => .unary (op.symbol ++ op.symbol) name true
      | some (.compound op right type) =>
          .assignment name (expression vars owner right (some type)) (some op.symbol)
      | none => .assign name (expression vars owner value (vars.type? target))
    (.expression change, vars)

/-- Whether a value is the call of a constructor without arguments on the receiver. -/
def isDefaultSuperCall (vars : Variables) : Expr → Bool
  | .call _ method receiver args =>
      method.isConstructor && args.isEmpty && isReceiver vars receiver
  | _ => false

/-- The bytes of a list in groups of a size, without an incomplete last group. -/
def groups (size : Nat) : Nat → List UInt8 → List (List UInt8)
  | 0, _ => []
  | steps + 1, bytes =>
      if bytes.length < size then
        []
      else
        bytes.take size :: groups size steps (bytes.drop size)

/-- The number with given bytes, the least significant one first. -/
def littleEndian : List UInt8 → Nat
  | [] => 0
  | b :: rest => b.toNat + 256 * littleEndian rest

/-- The constant with given bytes. -/
def constantOfBytes (bytes : List UInt8) : Constant :=
  let n := littleEndian bytes
  match bytes.length with
  | 1 => .int (Int32.ofInt (Int8.ofNat n).toInt)
  | 2 => .int (Int32.ofInt (Int16.ofNat n).toInt)
  | 4 => .int (Int32.ofNat n)
  | 8 => .wide (Int64.ofNat n)
  | _ => .int 0

/-- The constants in the data of an array whose elements take some bytes each. -/
def dataConstants (width : UInt16) (data : List UInt8) : List Constant :=
  (groups (max width.toNat 1) data.length data).map constantOfBytes

/-- The type of the elements of an array, if it is known. -/
def elementType (vars : Variables) (array : Expr) : Option String :=
  (array.knownType vars).bind Descriptor.element?

/-- The statement of the instruction that takes the exception in a handler. -/
def exceptionStatement (vars : Variables) (v : VarId) : Statement × Variables :=
  let caught : Expression := .note "move-exception"
  if vars.isUndeclared v then
    (.declaration (declaration vars v) (some caught), vars.markDeclared v)
  else
    (.expression (.assign (.localVar (vars.name v)) caught), vars)

/-- The statement of an instruction, if it needs one, and what is declared then. -/
def statement (w : Writing) (vars : Variables) (ins : Instr) : Option Statement × Variables :=
  let owner := w.method.owner
  let java := expression vars owner
  let plain (e : Expression) : Option Statement × Variables := (some (.expression e), vars)
  let assigned (target : VarId) (value : Expr) : Option Statement × Variables :=
    let (s, vars) := assignment vars owner target value
    (some s, vars)
  match ins with
  | .nop => (none, vars)
  | .switch _ => (none, vars)
  | .ret value =>
      (some (.ret (value.map fun v => java v (some w.method.returnType))), vars)
  | .throw value => (some (.throw (java value none)), vars)
  | .move target value => if value.isVar target then (none, vars) else assigned target value
  | .moveResult target value => assigned target value
  | .assign (some target) value => assigned target value
  | .assign none value =>
      if w.skipSuper && w.method.isConstructor && isDefaultSuperCall vars value then
        (none, vars)
      else
        plain (java value none)
  | .ifCompare .. => plain (condition vars owner ins false)
  | .ifCompareZero .. => plain (condition vars owner ins false)
  | .fillArrayData array width data =>
      plain
        (.assign (java array none)
          (.arrayInitializer none
            ((dataConstants width data).map fun c => constant c (elementType vars array))))
  | .fieldWrite object field value =>
      plain
        (.assign
          (.fieldAccess (some (.of field.owner field.name field.descriptor)) field.name
            (java object none))
          (java value (some field.descriptor)))
  | .staticFieldWrite field value =>
      plain
        (.assign
          (.fieldAccess (some (.of field.owner field.name field.descriptor)) field.name
            (classExpression field.owner))
          (java value (some field.descriptor)))
  | .arrayWrite array index value =>
      plain
        (.assign (.arrayAccess (java array none) (java index (some "I")))
          (java value (elementType vars array)))
  | .monitorEnter object => plain (.placeholder "monitor enter" [java object none])
  | .monitorExit object => plain (.placeholder "monitor exit" [java object none])
  | .moveException v =>
      let (s, vars) := exceptionStatement vars v
      (some s, vars)

end Emission
end DalvikDecompiler
