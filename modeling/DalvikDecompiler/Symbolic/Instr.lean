import DalvikDecompiler.Symbolic.Expr

/-!
# Instructions on variables

**Input.** An instruction whose operands are expressions over variables
instead of registers.

An instruction defines at most one variable.  Its operands are listed in the
order in which they are evaluated.
-/

namespace DalvikDecompiler
namespace Symbolic

open Bytecode (FieldRef)

/-- An instruction on variables. -/
inductive Instr where
  | nop
  | move (target : VarId) (value : Expr)
  | moveResult (target : VarId) (value : Expr)
  | assign (target : Option VarId) (value : Expr)
  | ret (value : Option Expr)
  | throw (value : Expr)
  | switch (selector : Expr)
  | ifCompare (relation : Relation) (left right : Expr)
  | ifCompareZero (relation : Relation) (operand : Expr)
  | fillArrayData (array : Expr) (width : UInt16) (data : List UInt8)
  | fieldWrite (object : Expr) (field : FieldRef) (value : Expr)
  | staticFieldWrite (field : FieldRef) (value : Expr)
  | arrayWrite (array index value : Expr)
  | monitorEnter (object : Expr)
  | monitorExit (object : Expr)
  | moveException (target : VarId)
  deriving Repr

namespace Instr

/-- The operands in order of evaluation. -/
def operands : Instr → List Expr
  | .nop => []
  | .moveException _ => []
  | .ret none => []
  | .ret (some value) => [value]
  | .move _ value => [value]
  | .moveResult _ value => [value]
  | .assign _ value => [value]
  | .throw value => [value]
  | .switch selector => [selector]
  | .ifCompare _ left right => [left, right]
  | .ifCompareZero _ operand => [operand]
  | .fillArrayData array _ _ => [array]
  | .fieldWrite object _ value => [object, value]
  | .staticFieldWrite _ value => [value]
  | .arrayWrite array index value => [array, index, value]
  | .monitorEnter object => [object]
  | .monitorExit object => [object]

/-- Change every operand. -/
def mapOperands (f : Expr → Expr) : Instr → Instr
  | .nop => .nop
  | .moveException target => .moveException target
  | .ret value => .ret (value.map f)
  | .move target value => .move target (f value)
  | .moveResult target value => .moveResult target (f value)
  | .assign target value => .assign target (f value)
  | .throw value => .throw (f value)
  | .switch selector => .switch (f selector)
  | .ifCompare relation left right => .ifCompare relation (f left) (f right)
  | .ifCompareZero relation operand => .ifCompareZero relation (f operand)
  | .fillArrayData array width data => .fillArrayData (f array) width data
  | .fieldWrite object field value => .fieldWrite (f object) field (f value)
  | .staticFieldWrite field value => .staticFieldWrite field (f value)
  | .arrayWrite array index value => .arrayWrite (f array) (f index) (f value)
  | .monitorEnter object => .monitorEnter (f object)
  | .monitorExit object => .monitorExit (f object)

/-- The variables read, in order and with repetition. -/
def reads (ins : Instr) : List VarId :=
  ins.operands.flatMap Expr.varsRead

/-- The variables read, each once. -/
def varsRead (ins : Instr) : List VarId :=
  OrderedSet.ofList ins.reads

/-- How often a variable is read. -/
def readsOf (ins : Instr) (id : VarId) : Nat :=
  ins.reads.count id

/-- The variable defined. -/
def target? : Instr → Option VarId
  | .move target _ => some target
  | .moveResult target _ => some target
  | .assign target _ => target
  | .moveException target => some target
  | _ => none

/-- The value of an assignment. -/
def value? : Instr → Option Expr
  | .move _ value => some value
  | .moveResult _ value => some value
  | .assign _ value => some value
  | _ => none

/-- Whether the instruction has to stay even if no one reads what it defines. -/
def hasEffect : Instr → Bool
  | .nop => false
  | .moveException _ => false
  | .move _ value => value.hasEffect
  | .moveResult _ value => value.hasEffect
  | .assign _ value => value.hasEffect
  | .ifCompare _ left right => left.hasEffect || right.hasEffect
  | .ifCompareZero _ operand => operand.hasEffect
  | .switch selector => selector.hasEffect
  | _ => true

/-- Whether the instruction itself writes the heap or takes or leaves a monitor. -/
def writesHeap : Instr → Bool
  | .fillArrayData .. => true
  | .fieldWrite .. => true
  | .staticFieldWrite .. => true
  | .arrayWrite .. => true
  | .monitorEnter _ => true
  | .monitorExit _ => true
  | _ => false

/-- Whether the value assigned is a call. -/
def isCall (ins : Instr) : Bool :=
  ins.value?.any Expr.isCall

/-- Whether the value assigned may move to where it is read. -/
def isMovable (ins : Instr) : Bool :=
  ins.target?.isSome && ins.value?.any Expr.isMovable

/-- Whether the value assigned is a constant. -/
def isConst (ins : Instr) : Bool :=
  ins.value?.any Expr.isConst

/-- Whether the instruction branches on a comparison. -/
def isConditional : Instr → Bool
  | .ifCompare .. => true
  | .ifCompareZero .. => true
  | _ => false

/-- Put an expression in the place of a variable that is read. -/
def substitute (ins : Instr) (id : VarId) (value : Expr) : Instr :=
  ins.mapOperands (Expr.substitute id value)

/-- Define another variable. -/
def replaceTarget (ins : Instr) (id : VarId) : Instr :=
  match ins with
  | .move _ value => .move id value
  | .moveResult _ value => .moveResult id value
  | .assign _ value => .assign (some id) value
  | .moveException _ => .moveException id
  | other => other

/-- Keep the value of an assignment, but not the variable. -/
def dropTarget (ins : Instr) : Instr :=
  match ins.value? with
  | some value => .assign none value
  | none => ins

/-- The text of an instruction in dumps. -/
def dumpText (vars : Variables) (ins : Instr) : String :=
  let e := Expr.dumpText vars
  match ins with
  | .nop => "nop"
  | .move target value => vars.name target ++ " = " ++ e value
  | .moveResult target value => vars.name target ++ " = " ++ e value
  | .assign (some target) value => vars.name target ++ " = " ++ e value
  | .assign none value => e value
  | .ret none => "return"
  | .ret (some value) => "return " ++ e value
  | .throw value => "throw " ++ e value
  | .switch selector => "switch(" ++ e selector ++ ")"
  | .ifCompare relation left right =>
      "if (" ++ e left ++ " " ++ relation.symbol ++ " " ++ e right ++ ")"
  | .ifCompareZero relation operand => "if (" ++ e operand ++ " " ++ relation.symbol ++ " 0)"
  | .fillArrayData array width data =>
      e array ++ " = fill[" ++ toString (data.length / max width.toNat 1) ++ "x" ++
        toString width.toNat ++ "]"
  | .fieldWrite object field value => e object ++ "." ++ field.name ++ " = " ++ e value
  | .staticFieldWrite field value =>
      Descriptor.javaName field.owner ++ "." ++ field.name ++ " = " ++ e value
  | .arrayWrite array index value => e array ++ "[" ++ e index ++ "] = " ++ e value
  | .monitorEnter object => "monitor-enter(" ++ e object ++ ")"
  | .monitorExit object => "monitor-exit(" ++ e object ++ ")"
  | .moveException target => vars.name target ++ " = move-exception"

end Instr

end Symbolic
end DalvikDecompiler
