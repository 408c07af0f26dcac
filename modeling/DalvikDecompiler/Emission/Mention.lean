import DalvikDecompiler.Emission.Statement

/-!
# The types that written code names

**Input.** Expressions and instructions over variables.

For each of them, the descriptors whose Java names are asked for when it is
written.  The dimensions of arrays are left out, since only element types have
names.
-/

namespace DalvikDecompiler
namespace Emission

open Symbolic (VarId Variables Constant Expr Instr)

/-- The element type that a descriptor names. -/
def mentionOf (type : String) : String :=
  (Descriptor.splitDims type).1

/-- The types that a constant names. -/
def constantMentions (c : Constant) (expected : Option String) : List String :=
  let own := mentionOf (constantLiteral c expected).2
  match c with
  | .type t => [mentionOf t, own]
  | _ => [own]

mutual

/-- The types that an expression names. -/
def mentions : Expr → Option String → List String
  | .var _, _ => []
  | .const c, expected => constantMentions c expected
  | .unary _ operand type, _ => mentions operand (some type)
  | .binary op left right type, _ =>
      mentions left (some type) ++ mentions right (some (op.rightType type))
  | .compare type left right, _ =>
      comparisonClass type :: (mentions left (some type) ++ mentions right (some type))
  | .cast type operand, _ => mentionOf type :: mentions operand none
  | .checkCast type operand, _ => mentionOf type :: mentions operand none
  | .instanceOf type operand, _ => mentionOf type :: mentions operand none
  | .arrayLength array, _ => mentions array none
  | .newInstance type, _ => [mentionOf type]
  | .newArray type size, _ => mentionOf type :: mentions size (some "I")
  | .filledArray type elements, _ =>
      mentionOf type :: elementMentions elements (Descriptor.elementOrSelf type)
  | .fieldRead object _, _ => mentions object none
  | .staticFieldRead field, _ => [mentionOf field.owner]
  | .arrayRead array index _, _ => mentions array none ++ mentions index (some "I")
  | .staticCall method args, _ => mentionOf method.owner :: argumentMentions args method.params
  | .call _ method receiver args, _ =>
      mentions receiver none ++ argumentMentions args method.params

/-- The types that elements of a type name. -/
def elementMentions : List Expr → String → List String
  | [], _ => []
  | e :: rest, type => mentions e (some type) ++ elementMentions rest type

/-- The types that arguments for parameters of given types name. -/
def argumentMentions : List Expr → List String → List String
  | [], _ => []
  | e :: rest, types => mentions e types.head? ++ argumentMentions rest types.tail

end

/-- The types that the condition of a branch names. -/
def conditionMentions (vars : Variables) (ins : Instr) (negate : Bool) : List String :=
  match ins with
  | .ifCompare _ left right =>
      let type := (left.knownType vars).or (right.knownType vars)
      mentions left type ++ mentions right type
  | .ifCompareZero _ (.compare type left right) =>
      mentions left (some type) ++ mentions right (some type)
  | .ifCompareZero relation operand =>
      let test := relationFor relation negate
      mentions operand none ++
        (match operand.knownType vars with
        | some "Z" => if test = .eq ∨ test = .ne then [] else ["I"]
        | some type => [if Descriptor.isReference type then mentionOf type else "I"]
        | none => ["I"])
  | _ => []

/-- The type that the declaration of a variable names. -/
def declarationMention (vars : Variables) (v : VarId) : String :=
  mentionOf ((vars.type? v).getD Bytecode.objectDescriptor)

/-- The types that an assignment names. -/
def assignmentMentions (vars : Variables) (target : VarId) (value : Expr) : List String :=
  if declares vars target then
    declarationMention vars target :: mentions value (vars.type? target)
  else
    match update? target value with
    | some (.step _) => []
    | some (.compound _ right type) => mentions right (some type)
    | none => mentions value (vars.type? target)

/-- The types that the statement of an instruction names. -/
def statementMentions (w : Writing) (vars : Variables) (ins : Instr) : List String :=
  match ins with
  | .nop => []
  | .switch _ => []
  | .ret value => (value.map fun v => mentions v (some w.method.returnType)).getD []
  | .throw value => mentions value none
  | .move target value =>
      if value.isVar target then [] else assignmentMentions vars target value
  | .moveResult target value => assignmentMentions vars target value
  | .assign (some target) value => assignmentMentions vars target value
  | .assign none value =>
      if w.skipSuper && w.method.isConstructor && isDefaultSuperCall vars value then
        []
      else
        mentions value none
  | .ifCompare .. => conditionMentions vars ins false
  | .ifCompareZero .. => conditionMentions vars ins false
  | .fillArrayData array width data =>
      (dataConstants width data).flatMap (fun c => constantMentions c (elementType vars array)) ++
        mentions array none
  | .fieldWrite object field value =>
      mentions object none ++ mentions value (some field.descriptor)
  | .staticFieldWrite field value =>
      mentionOf field.owner :: mentions value (some field.descriptor)
  | .arrayWrite array index value =>
      mentions array none ++ mentions index (some "I") ++
        mentions value (elementType vars array)
  | .monitorEnter object => mentions object none
  | .monitorExit object => mentions object none
  | .moveException v => if vars.isUndeclared v then [declarationMention vars v] else []

end Emission
end DalvikDecompiler
