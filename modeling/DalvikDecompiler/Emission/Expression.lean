import DalvikDecompiler.Decimal
import DalvikDecompiler.Java.Ast
import DalvikDecompiler.Symbolic.Instr

/-!
# Java expressions of values and conditions

**Input.** An expression over variables, the class of the method it stands in,
and the type that is expected of it where there is one.

**Algorithm.** Operations are written in parentheses.  The expected type
decides how the bits of a constant are read.  A call of a constructor becomes
a creation, or a call of this or super on the receiver itself.
-/

namespace DalvikDecompiler
namespace Emission

open Symbolic (VarId Variables Constant Expr Instr Relation Dispatch)
open Java (Expression Member TypeName)

/-- A literal of the type with a descriptor. -/
def literal (value type : String) : Expression :=
  .literal value (.ofDescriptor type)

/-- The literal of a truth value. -/
def truthLiteral (value : Bool) : Expression :=
  literal (if value then "true" else "false") "Z"

/-- The text of a floating-point constant; values without a literal are constants of their class.
-/
def floatText (f : Decimal.BinaryFormat) (bits : Nat) (owner suffix : String) : String :=
  match f.decode bits with
  | .nan => owner ++ ".NaN"
  | .infinite negative =>
      owner ++ (if negative then ".NEGATIVE" else ".POSITIVE") ++ "_INFINITY"
  | value => f.spell value ++ suffix

/-- The text and the type of the literal of an int, which may stand for a value of another type.
-/
def intLiteral (value : Int32) (expected : String) : String × String :=
  if expected = "Z" then
    (if value ≠ 0 then "true" else "false", "Z")
  else if expected = "F" then
    (floatText .single value.toUInt32.toNat "Float" "f", "F")
  else if expected = "J" then
    (toString value.toInt ++ "L", "J")
  else if Descriptor.isReference expected ∧ value = 0 then
    ("null", expected)
  else
    (toString value.toInt, "I")

/-- The text and the type of the literal of a constant. -/
def constantLiteral (c : Constant) (expected : Option String) : String × String :=
  match c with
  | .string s => (Text.quoted s, "Ljava/lang/String;")
  | .type t => ((TypeName.ofDescriptor t).spelling ++ ".class", "Ljava/lang/Class;")
  | .int value => intLiteral value (expected.getD "I")
  | .wide value =>
      if expected = some "D" then
        (floatText .double value.toUInt64.toNat "Double" "", "D")
      else
        (toString value.toInt ++ "L", "J")

/-- A constant. -/
def constant (c : Constant) (expected : Option String) : Expression :=
  let (text, type) := constantLiteral c expected
  literal text type

/-- The class whose `compare` does a three-way comparison. -/
def comparisonClass (type : String) : String :=
  if type = "J" then
    "Ljava/lang/Long;"
  else if type = "F" then
    "Ljava/lang/Float;"
  else
    "Ljava/lang/Double;"

/-- Whether an expression is the receiver of the method. -/
def isReceiver (vars : Variables) (e : Expr) : Bool :=
  e.var?.any vars.isReceiver

/-- The type name of a class as an expression. -/
def classExpression (type : String) : Expression :=
  .typeName (.ofDescriptor type)

/-- A call on an object, whose Java form is given beside it. -/
def callExpression (vars : Variables) (owner : String) (dispatch : Dispatch)
    (method : Bytecode.MethodRef) (receiver : Expr) (object : Expression)
    (args : List Expression) : Expression :=
  let member := Member.of method.owner method.name method.descriptor
  let plain : Expression :=
    .invocation member method.name
      (some (if dispatch = .super ∧ isReceiver vars receiver then .localVar "super" else object))
      args
  if method.isConstructor then
    if isReceiver vars receiver then
      .invocation member (if method.owner = owner then "this" else "super") none args
    else
      match receiver with
      | .newInstance type => .creation member (.ofDescriptor type) args
      | _ => plain
  else
    plain

mutual

/-- The Java form of an expression. -/
def expression (vars : Variables) (owner : String) : Expr → Option String → Expression
  | .var id, _ => .localVar (vars.name id)
  | .const c, expected => constant c expected
  | .unary op operand type, _ =>
      .parenthesis (.unary op.symbol (expression vars owner operand (some type)) false)
  | .binary op left right type, _ =>
      .parenthesis
        (.binary op.symbol (expression vars owner left (some type))
          (expression vars owner right (some (op.rightType type))))
  | .compare type left right, _ =>
      .invocation (.of (comparisonClass type) "compare" ("(" ++ type ++ type ++ ")I")) "compare"
        (some (classExpression (comparisonClass type)))
        [expression vars owner left (some type), expression vars owner right (some type)]
  | .cast type operand, _ =>
      .parenthesis (.cast (.ofDescriptor type) (expression vars owner operand none))
  | .checkCast type operand, _ =>
      .parenthesis (.cast (.ofDescriptor type) (expression vars owner operand none))
  | .instanceOf type operand, _ =>
      .parenthesis
        (.binary "instanceof" (expression vars owner operand none) (classExpression type))
  | .arrayLength array, _ => .fieldAccess none "length" (expression vars owner array none)
  | .newInstance type, _ => .note ("new " ++ (TypeName.ofDescriptor type).spelling)
  | .newArray type size, _ =>
      .arrayCreation (.ofDescriptor (Descriptor.elementOrSelf type))
        [expression vars owner size (some "I")]
  | .filledArray type elements, _ =>
      .arrayInitializer (some (.ofDescriptor type))
        (elementExpressions vars owner elements (Descriptor.elementOrSelf type))
  | .fieldRead object field, _ =>
      .fieldAccess (some (.of field.owner field.name field.descriptor)) field.name
        (expression vars owner object none)
  | .staticFieldRead field, _ =>
      .fieldAccess (some (.of field.owner field.name field.descriptor)) field.name
        (classExpression field.owner)
  | .arrayRead array index _, _ =>
      .arrayAccess (expression vars owner array none) (expression vars owner index (some "I"))
  | .staticCall method args, _ =>
      .invocation (.of method.owner method.name method.descriptor) method.name
        (some (classExpression method.owner))
        (argumentExpressions vars owner args method.params)
  | .call dispatch method receiver args, _ =>
      callExpression vars owner dispatch method receiver (expression vars owner receiver none)
        (argumentExpressions vars owner args method.params)

/-- The Java forms of elements of a type. -/
def elementExpressions (vars : Variables) (owner : String) :
    List Expr → String → List Expression
  | [], _ => []
  | e :: rest, type =>
      expression vars owner e (some type) :: elementExpressions vars owner rest type

/-- The Java forms of arguments for parameters of given types. -/
def argumentExpressions (vars : Variables) (owner : String) :
    List Expr → List String → List Expression
  | [], _ => []
  | e :: rest, types =>
      expression vars owner e types.head? :: argumentExpressions vars owner rest types.tail

end

/-- The relation that is tested, or its negation. -/
def relationFor (relation : Relation) (negate : Bool) : Relation :=
  if negate then relation.negate else relation

/-- The Java form of a comparison with zero: truth values need no comparison, and references are
compared with null. -/
def zeroTest (relation : Relation) (value : Expression) (type : Option String) : Expression :=
  match type with
  | some "Z" =>
      match relation with
      | .eq => .unary "!" value false
      | .ne => value
      | _ => .binary relation.symbol value (literal "0" "I")
  | some type =>
      if Descriptor.isReference type then
        .binary relation.symbol value (literal "null" type)
      else
        .binary relation.symbol value (literal "0" "I")
  | none => .binary relation.symbol value (literal "0" "I")

/-- The Java form of the condition of a branch, or of its negation. -/
def condition (vars : Variables) (owner : String) (ins : Instr) (negate : Bool) : Expression :=
  match ins with
  | .ifCompare relation left right =>
      let type := (left.knownType vars).or (right.knownType vars)
      .binary (relationFor relation negate).symbol (expression vars owner left type)
        (expression vars owner right type)
  | .ifCompareZero relation (.compare type left right) =>
      .binary (relationFor relation negate).symbol (expression vars owner left (some type))
        (expression vars owner right (some type))
  | .ifCompareZero relation operand =>
      zeroTest (relationFor relation negate) (expression vars owner operand none)
        (operand.knownType vars)
  | other => .note (other.dumpText vars)

end Emission
end DalvikDecompiler
