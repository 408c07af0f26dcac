import DalvikDecompiler.FlowGraph.Basic

/-!
# Types of variables

**Input.** A flow graph and its variables, some of which have types.

**Algorithm.** Instructions are swept for hints: the type of a value goes to
the variable it is assigned to, and the types that an operation, a call, a
field, an array or the method's result asks for go to the variables in these
places.  A type once found stays, so that each sweep but the last finds one
more.  At the end, variables that hold an integer constant are ints.
-/

namespace DalvikDecompiler

open Symbolic (VarId Variables Expr Instr)

namespace Typing

/-- The type of all exceptions. -/
def throwable : String :=
  "Ljava/lang/Throwable;"

/-- Give a type to an expression that is a variable without one. -/
def suggestFor (vars : Variables) (e : Expr) (type : String) : Variables :=
  match e with
  | .var v => vars.suggestType v type
  | _ => vars

/-- Give types to several expressions, one after another. -/
def suggestAll (vars : Variables) (hints : List (Expr × String)) : Variables :=
  hints.foldl (fun vars hint => suggestFor vars hint.1 hint.2) vars

/-- The types that an operation asks of its operands. -/
def operandTypes : Expr → List (Expr × String)
  | .staticCall method args => args.zip method.params
  | .call _ method receiver args => (receiver, method.owner) :: args.zip method.params
  | .binary op left right type => [(left, type), (right, op.rightType type)]
  | .unary _ operand type => [(operand, type)]
  | .compare type left right => [(left, type), (right, type)]
  | .fieldRead object field => [(object, field.owner)]
  | .arrayRead _ index _ => [(index, "I")]
  | .newArray _ size => [(size, "I")]
  | .filledArray type elements =>
      elements.map fun element => (element, Descriptor.elementOrSelf type)
  | _ => []

/-- Use the hints of an expression and all its parts. -/
def suggestOperands (vars : Variables) (e : Expr) : Variables :=
  e.subterms.foldl (fun vars part => suggestAll vars (operandTypes part)) vars

/-- Use the hint of an assignment: a known type of either side goes to the other one. -/
def suggestAssignment (vars : Variables) (ins : Instr) : Variables :=
  match ins.target?, ins.value? with
  | some v, some value =>
      match value.knownType vars, vars.type? v with
      | some type, _ => vars.suggestType v type
      | none, some type => suggestFor vars value type
      | none, none => vars
  | _, _ => vars

/-- Use what kind of instruction reads or defines a variable. -/
def suggestByKind (returns : String) (catchType : Option String) (vars : Variables) (ins : Instr) :
    Variables :=
  match ins with
  | .moveException v => vars.suggestType v (catchType.getD throwable)
  | .ret (some value) => suggestFor vars value returns
  | .fieldWrite object field value =>
      suggestAll vars [(object, field.owner), (value, field.descriptor)]
  | .staticFieldWrite field value => suggestFor vars value field.descriptor
  | .arrayWrite array index value =>
      let vars := suggestFor vars index "I"
      match (array.knownType vars).bind Descriptor.element? with
      | some element => suggestFor vars value element
      | none => vars
  | .ifCompare _ left right =>
      match left.knownType vars, right.knownType vars with
      | some type, _ => suggestFor vars right type
      | none, some type => suggestFor vars left type
      | none, none => vars
  | .throw value => suggestFor vars value throwable
  | _ => vars

/-- Use all hints of an instruction. -/
def suggestInstr (returns : String) (catchType : Option String) (vars : Variables) (ins : Instr) :
    Variables :=
  ins.operands.foldl suggestOperands
    (suggestByKind returns catchType (suggestAssignment vars ins) ins)

/-- Use all hints of the nodes that can be reached. -/
def sweep (g : FlowGraph) (returns : String) (vars : Variables) : Variables :=
  g.order.foldl
    (fun vars id => (g.node id).ins.foldl (suggestInstr returns (g.node id).catchType) vars)
    vars

/-- Sweep until no type is found any more. -/
def settle (g : FlowGraph) (returns : String) : Nat → Variables → Variables
  | 0, vars => vars
  | sweeps + 1, vars =>
      let next := sweep g returns vars
      if next.typedCount = vars.typedCount then next else settle g returns sweeps next

/-- A variable that holds an integer constant is an int, if nothing else is known. -/
def suggestConstant (vars : Variables) (ins : Instr) : Variables :=
  match ins.target?, ins.value? with
  | some v, some (.const (.int _)) => vars.suggestType v "I"
  | _, _ => vars

/-- Infer the types of variables in a method with a given result. -/
def infer (g : FlowGraph) (returns : String) (vars : Variables) : Variables :=
  g.order.foldl (fun vars id => (g.node id).ins.foldl suggestConstant vars)
    (settle g returns (vars.size + 1) vars)

end Typing

end DalvikDecompiler
