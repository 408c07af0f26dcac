import DalvikDecompiler.Java.Ast
import DalvikDecompiler.Json.Printer

/-!
# The JSON form of Java syntax trees

**Input.** Syntax trees as they travel between programs.

**Algorithm.** A statement or an expression is an object whose first member
`type` names the alternative and whose other members are its parts.  Absent
parts are null, except for the label of a jump, which is left out.  Read as
well is the array of the name and the parts in their order, and, inside of
another statement or expression, the number of the alternative in place of its
name.  Reading follows the nesting of the value and therefore never goes deeper
than it.
-/

namespace DalvikDecompiler

namespace Json

mutual

/-- How deep arrays and objects are nested in a value. -/
def depth : Json → Nat
  | .array items => depthOfItems items + 1
  | .object members => depthOfMembers members + 1
  | _ => 0

/-- The greatest depth among the items of a list. -/
def depthOfItems : List Json → Nat
  | [] => 0
  | item :: rest => max (depth item) (depthOfItems rest)

/-- The greatest depth among the values of members. -/
def depthOfMembers : List (String × Json) → Nat
  | [] => 0
  | (_, value) :: rest => max (depth value) (depthOfMembers rest)

end

end Json

namespace Java

namespace Member

/-- The JSON form of a member. -/
def toJson (m : Member) : Json :=
  .object
    [("class", .string m.owner), ("name", .string m.name), ("descriptor", .string m.descriptor)]

/-- Read a member. -/
def ofJson? (j : Json) : Option Member := do
  let j ← j.record? ["class", "name", "descriptor"]
  let owner ← j.field? "class" Json.asString?
  let name ← j.field? "name" Json.asString?
  let descriptor ← j.field? "descriptor" Json.asString?
  return { owner, name, descriptor }

end Member

namespace TypeName

/-- The members of the JSON form of a type. -/
def members (t : TypeName) : List (String × Json) :=
  [("name", .string t.name), ("dim", .ofNat t.dims.toNat)]

/-- The JSON form of a type. -/
def toJson (t : TypeName) : Json :=
  .object t.members

/-- Read a type. -/
def ofJson? (j : Json) : Option TypeName := do
  let j ← j.record? ["name", "dim"]
  let name ← j.field? "name" Json.asString?
  let dims ← j.field? "dim" Json.asUInt64?
  return { name, dims }

end TypeName

namespace VarDecl

/-- The JSON form of a declared variable. -/
def toJson (d : VarDecl) : Json :=
  .object [("ty", d.type.toJson), ("name", .string d.name)]

/-- Read a declared variable. -/
def ofJson? (j : Json) : Option VarDecl := do
  let j ← j.record? ["ty", "name"]
  let type ← j.field? "ty" TypeName.ofJson?
  let name ← j.field? "name" Json.asString?
  return { type, name }

end VarDecl

/-- An object that names its alternative. -/
def variant (name : String) (members : List (String × Json)) : Json :=
  .object (("type", .string name) :: members)

/-- The form of an alternative: its name, the names of its parts in order, and how many parts there
are at least. -/
structure Form where
  name : String
  parts : List String
  least : Nat

/-- An alternative whose parts all have to be there. -/
def Form.full (name : String) (parts : List String) : Form :=
  ⟨name, parts, parts.length⟩

/-- Where a value stands: by itself, or inside of another statement or expression. -/
inductive Position where
  | outer
  | inner
  deriving DecidableEq, Repr

/-- The form that a name stands for, or, in an inner position, its number. -/
def formOf? (forms : List Form) (position : Position) : Json → Option Form
  | .string name => forms.find? fun form => form.name == name
  | .int number =>
      match position with
      | .outer => none
      | .inner => number.toNat?.bind fun n => forms[n]?
  | _ => none

/-- The name of an alternative and the object of its parts.  An array starts with the name and goes
on with the parts. -/
def alternative? (forms : List Form) (position : Position) : Json → Option (String × Json)
  | .object members => do
      let form ← (members.lookup "type").bind (formOf? forms position)
      return (form.name, .object members)
  | .array (tag :: items) => do
      let form ← formOf? forms position tag
      let object ← Json.ofPositions? form.parts form.least items
      return (form.name, object)
  | _ => none

namespace Expression

mutual

/-- The JSON form of an expression. -/
def toJson : Expression → Json
  | .assignment target value op =>
      variant "Assignment"
        [("lhs", toJson target), ("rhs", toJson value), ("op", .ofOption .string op)]
  | .binary op left right =>
      variant "BinaryInfix" [("op", .string op), ("lhs", toJson left), ("rhs", toJson right)]
  | .unary op operand after =>
      variant "Unary" [("op", .string op), ("operand", toJson operand), ("postfix", .bool after)]
  | .invocation member name receiver args =>
      variant "MethodInvocation"
        [("triple", member.toJson), ("name", .string name), ("receiver", optionToJson receiver),
          ("args", .array (listToJson args))]
  | .creation member type args =>
      variant "ClassInstanceCreation"
        [("triple", member.toJson), ("ty", type.toJson), ("args", .array (listToJson args))]
  | .fieldAccess member name object =>
      variant "FieldAccess"
        [("triple", .ofOption Member.toJson member), ("name", .string name),
          ("object", toJson object)]
  | .arrayAccess array index =>
      variant "ArrayAccess" [("array", toJson array), ("index", toJson index)]
  | .cast type operand => variant "Cast" [("ty", type.toJson), ("operand", toJson operand)]
  | .literal value type => variant "Literal" [("value", .string value), ("ty", type.toJson)]
  | .localVar name => variant "Local" [("name", .string name)]
  | .typeName type => variant "TypeName" type.members
  | .arrayInitializer type elements =>
      variant "ArrayInitializer"
        [("ty", .ofOption TypeName.toJson type), ("elements", .array (listToJson elements))]
  | .arrayCreation type sizes =>
      variant "ArrayCreation" [("ty", type.toJson), ("dims", .array (listToJson sizes))]
  | .parenthesis inner => variant "Parenthesis" [("expr", toJson inner)]
  | .placeholder label args =>
      variant "Dummy" [("label", .string label), ("args", .array (listToJson args))]

/-- The JSON form of an expression that may be absent. -/
def optionToJson : Option Expression → Json
  | none => .null
  | some e => toJson e

/-- The JSON forms of the expressions of a list. -/
def listToJson : List Expression → List Json
  | [] => []
  | e :: rest => toJson e :: listToJson rest

end

/-- The forms of expressions. -/
def forms : List Form :=
  [.full "Assignment" ["lhs", "rhs", "op"],
    .full "BinaryInfix" ["op", "lhs", "rhs"],
    .full "Unary" ["op", "operand", "postfix"],
    .full "MethodInvocation" ["triple", "name", "receiver", "args"],
    .full "ClassInstanceCreation" ["triple", "ty", "args"],
    .full "FieldAccess" ["triple", "name", "object"],
    .full "ArrayAccess" ["array", "index"],
    .full "Cast" ["ty", "operand"],
    .full "Literal" ["value", "ty"],
    .full "Local" ["name"],
    .full "TypeName" ["name", "dim"],
    .full "ArrayInitializer" ["ty", "elements"],
    .full "ArrayCreation" ["ty", "dims"],
    .full "Parenthesis" ["expr"],
    .full "Dummy" ["label", "args"]]

/-- Read an expression nested less deeply than a bound. -/
def ofJsonWithin? : Nat → Position → Json → Option Expression
  | 0, _, _ => none
  | bound + 1, position, j => do
      let expression := ofJsonWithin? bound .inner
      let (kind, j) ← alternative? forms position j
      match kind with
      | "Assignment" =>
          let target ← j.field? "lhs" expression
          let value ← j.field? "rhs" expression
          let op ← j.optionalField? "op" Json.asString?
          return .assignment target value op
      | "BinaryInfix" =>
          let op ← j.field? "op" Json.asString?
          let left ← j.field? "lhs" expression
          let right ← j.field? "rhs" expression
          return .binary op left right
      | "Unary" =>
          let op ← j.field? "op" Json.asString?
          let operand ← j.field? "operand" expression
          let after ← j.field? "postfix" Json.asBool?
          return .unary op operand after
      | "MethodInvocation" =>
          let member ← j.field? "triple" Member.ofJson?
          let name ← j.field? "name" Json.asString?
          let receiver ← j.optionalField? "receiver" expression
          let args ← j.field? "args" (Json.asList? expression)
          return .invocation member name receiver args
      | "ClassInstanceCreation" =>
          let member ← j.field? "triple" Member.ofJson?
          let type ← j.field? "ty" TypeName.ofJson?
          let args ← j.field? "args" (Json.asList? expression)
          return .creation member type args
      | "FieldAccess" =>
          let member ← j.optionalField? "triple" Member.ofJson?
          let name ← j.field? "name" Json.asString?
          let object ← j.field? "object" expression
          return .fieldAccess member name object
      | "ArrayAccess" =>
          let array ← j.field? "array" expression
          let index ← j.field? "index" expression
          return .arrayAccess array index
      | "Cast" =>
          let type ← j.field? "ty" TypeName.ofJson?
          let operand ← j.field? "operand" expression
          return .cast type operand
      | "Literal" =>
          let value ← j.field? "value" Json.asString?
          let type ← j.field? "ty" TypeName.ofJson?
          return .literal value type
      | "Local" =>
          let name ← j.field? "name" Json.asString?
          return .localVar name
      | "TypeName" => (TypeName.ofJson? j).map .typeName
      | "ArrayInitializer" =>
          let type ← j.optionalField? "ty" TypeName.ofJson?
          let elements ← j.field? "elements" (Json.asList? expression)
          return .arrayInitializer type elements
      | "ArrayCreation" =>
          let type ← j.field? "ty" TypeName.ofJson?
          let sizes ← j.field? "dims" (Json.asList? expression)
          return .arrayCreation type sizes
      | "Parenthesis" =>
          let inner ← j.field? "expr" expression
          return .parenthesis inner
      | "Dummy" =>
          let label ← j.field? "label" Json.asString?
          let args ← j.field? "args" (Json.asList? expression)
          return .placeholder label args
      | _ => none

/-- Read an expression in a position. -/
def ofJsonAt? (position : Position) (j : Json) : Option Expression :=
  ofJsonWithin? j.depth position j

/-- Read an expression that stands by itself. -/
def ofJson? : Json → Option Expression :=
  ofJsonAt? .outer

end Expression

/-- Read the name of the keyword of a jump. -/
def JumpKind.ofName? : String → Option JumpKind
  | "break" => some .break
  | "continue" => some .continue
  | "goto" => some .goto
  | _ => none

/-- Read the keyword of a jump; as an alternative without content, it may have an empty object for
content. -/
def JumpKind.ofJson? : Json → Option JumpKind
  | .object [(name, .object [])] => ofName? name
  | j => j.asUnit?.bind ofName?

/-- The JSON form of the statements of a block. -/
def blockObject (statements : List Json) : Json :=
  .object [("statements", .array statements)]

mutual

/-- The JSON form of a statement. -/
def Statement.toJson : Statement → Json
  | .block body => variant "BlockStatement" [("statements", .array (Block.listToJson body))]
  | .ifThen condition thenBlock elseBlock =>
      variant "IfStatement"
        [("condition", condition.toJson),
          ("then_block", blockObject (Block.listToJson thenBlock)),
          ("else_block", Block.optionToJson elseBlock)]
  | .whileLoop condition body =>
      variant "WhileStatement"
        [("condition", condition.toJson), ("body", blockObject (Block.listToJson body))]
  | .doLoop condition body =>
      variant "DoStatement"
        [("condition", condition.toJson), ("body", blockObject (Block.listToJson body))]
  | .switch selector arms =>
      variant "SwitchStatement"
        [("selector", selector.toJson), ("cases", .array (SwitchArm.listToJson arms))]
  | .tryCatch body clauses =>
      variant "TryStatement"
        [("body", blockObject (Block.listToJson body)),
          ("catches", .array (CatchClause.listToJson clauses))]
  | .ret value => variant "ReturnStatement" [("value", .ofOption Expression.toJson value)]
  | .throw value => variant "ThrowStatement" [("value", value.toJson)]
  | .expression value => variant "ExpressionStatement" [("expression", value.toJson)]
  | .declaration decl init =>
      variant "LocalDeclarationStatement"
        [("decl", decl.toJson), ("init", .ofOption Expression.toJson init)]
  | .jump kind none => variant "JumpStatement" [("keyword", .string kind.keyword)]
  | .jump kind (some label) =>
      variant "JumpStatement" [("keyword", .string kind.keyword), ("label", .string label)]
  | .label name => variant "LabelStatement" [("label", .string name)]

/-- The JSON forms of the statements of a block. -/
def Block.listToJson : List Statement → List Json
  | [] => []
  | statement :: rest => Statement.toJson statement :: Block.listToJson rest

/-- The JSON form of a block that may be absent. -/
def Block.optionToJson : Option (List Statement) → Json
  | none => .null
  | some body => blockObject (Block.listToJson body)

/-- The JSON form of an arm of a switch. -/
def SwitchArm.toJson : SwitchArm → Json
  | .mk keys isDefault body =>
      .object
        [("keys", .ofList (fun key => .ofInt key.toInt) keys), ("is_default", .bool isDefault),
          ("body", blockObject (Block.listToJson body))]

/-- The JSON forms of the arms of a switch. -/
def SwitchArm.listToJson : List SwitchArm → List Json
  | [] => []
  | arm :: rest => SwitchArm.toJson arm :: SwitchArm.listToJson rest

/-- The JSON form of a handler. -/
def CatchClause.toJson : CatchClause → Json
  | .mk decl body =>
      .object [("decl", decl.toJson), ("body", blockObject (Block.listToJson body))]

/-- The JSON forms of the handlers of a try statement. -/
def CatchClause.listToJson : List CatchClause → List Json
  | [] => []
  | clause :: rest => CatchClause.toJson clause :: CatchClause.listToJson rest

end

/-- The JSON form of a block. -/
def Block.toJson (body : Block) : Json :=
  blockObject (Block.listToJson body)

/-- Read a block with a reader for its statements. -/
def Block.readWith? (statement : Json → Option Statement) (j : Json) : Option Block :=
  (j.record? ["statements"]).bind (Json.field? "statements" (Json.asList? statement))

/-- Read an arm of a switch with a reader for its body. -/
def SwitchArm.readWith? (block : Json → Option Block) (j : Json) : Option SwitchArm := do
  let j ← j.record? ["keys", "is_default", "body"]
  let keys ← j.field? "keys" (Json.asList? Json.asInt32?)
  let isDefault ← j.field? "is_default" Json.asBool?
  let body ← j.field? "body" block
  return .mk keys isDefault body

/-- Read a handler with a reader for its body. -/
def CatchClause.readWith? (block : Json → Option Block) (j : Json) : Option CatchClause := do
  let j ← j.record? ["decl", "body"]
  let decl ← j.field? "decl" VarDecl.ofJson?
  let body ← j.field? "body" block
  return .mk decl body

/-- The forms of statements. -/
def Statement.forms : List Form :=
  [.full "BlockStatement" ["statements"],
    .full "IfStatement" ["condition", "then_block", "else_block"],
    .full "WhileStatement" ["condition", "body"],
    .full "DoStatement" ["condition", "body"],
    .full "SwitchStatement" ["selector", "cases"],
    .full "TryStatement" ["body", "catches"],
    .full "ReturnStatement" ["value"],
    .full "ThrowStatement" ["value"],
    .full "ExpressionStatement" ["expression"],
    .full "LocalDeclarationStatement" ["decl", "init"],
    ⟨"JumpStatement", ["keyword", "label"], 1⟩,
    .full "LabelStatement" ["label"]]

/-- Read a statement nested less deeply than a bound. -/
def Statement.ofJsonWithin? : Nat → Position → Json → Option Statement
  | 0, _, _ => none
  | bound + 1, position, j => do
      let block := Block.readWith? (Statement.ofJsonWithin? bound .inner)
      let expression := Expression.ofJsonAt? .inner
      let (kind, j) ← alternative? Statement.forms position j
      match kind with
      | "BlockStatement" => (block j).map .block
      | "IfStatement" =>
          let condition ← j.field? "condition" expression
          let thenBlock ← j.field? "then_block" block
          let elseBlock ← j.optionalField? "else_block" block
          return .ifThen condition thenBlock elseBlock
      | "WhileStatement" =>
          let condition ← j.field? "condition" expression
          let body ← j.field? "body" block
          return .whileLoop condition body
      | "DoStatement" =>
          let condition ← j.field? "condition" expression
          let body ← j.field? "body" block
          return .doLoop condition body
      | "SwitchStatement" =>
          let selector ← j.field? "selector" expression
          let arms ← j.field? "cases" (Json.asList? (SwitchArm.readWith? block))
          return .switch selector arms
      | "TryStatement" =>
          let body ← j.field? "body" block
          let clauses ← j.field? "catches" (Json.asList? (CatchClause.readWith? block))
          return .tryCatch body clauses
      | "ReturnStatement" =>
          let value ← j.optionalField? "value" expression
          return .ret value
      | "ThrowStatement" =>
          let value ← j.field? "value" expression
          return .throw value
      | "ExpressionStatement" =>
          let value ← j.field? "expression" expression
          return .expression value
      | "LocalDeclarationStatement" =>
          let decl ← j.field? "decl" VarDecl.ofJson?
          let init ← j.optionalField? "init" expression
          return .declaration decl init
      | "JumpStatement" =>
          let kind ← j.field? "keyword" JumpKind.ofJson?
          let label ← j.optionalField? "label" Json.asString?
          return .jump kind label
      | "LabelStatement" =>
          let name ← j.field? "label" Json.asString?
          return .label name
      | _ => none

/-- Read a statement that stands by itself. -/
def Statement.ofJson? (j : Json) : Option Statement :=
  Statement.ofJsonWithin? j.depth .outer j

/-- Read a block. -/
def Block.ofJson? (j : Json) : Option Block :=
  Block.readWith? Statement.ofJson? j

namespace Method

/-- The JSON form of a method. -/
def toJson (m : Method) : Json :=
  .object
    [("triple", m.member.toJson), ("flags", .ofList .string m.flags), ("ret", m.returns.toJson),
      ("params", .ofList VarDecl.toJson m.params), ("comments", .ofList .string m.comments),
      ("body", .ofOption Block.toJson m.body)]

/-- Read a method. -/
def ofJson? (j : Json) : Option Method := do
  let j ← j.record? ["triple", "flags", "ret", "params", "comments", "body"]
  let member ← j.field? "triple" Member.ofJson?
  let flags ← j.field? "flags" (Json.asList? Json.asString?)
  let returns ← j.field? "ret" TypeName.ofJson?
  let params ← j.field? "params" (Json.asList? VarDecl.ofJson?)
  let comments ← j.field? "comments" (Json.asList? Json.asString?)
  let body ← j.optionalField? "body" Block.ofJson?
  return { member, flags, returns, params, comments, body }

end Method

namespace Field

/-- The JSON form of a field. -/
def toJson (f : Field) : Json :=
  .object
    [("name", .string f.name), ("ty", f.type.toJson), ("flags", .ofList .string f.flags),
      ("value", .ofOption .string f.value)]

/-- Read a field. -/
def ofJson? (j : Json) : Option Field := do
  let j ← j.record? ["name", "ty", "flags", "value"]
  let name ← j.field? "name" Json.asString?
  let type ← j.field? "ty" TypeName.ofJson?
  let flags ← j.field? "flags" (Json.asList? Json.asString?)
  let value ← j.optionalField? "value" Json.asString?
  return { name, type, flags, value }

end Field

namespace Class

/-- The JSON form of a class. -/
def toJson (c : Class) : Json :=
  .object
    [("rawname", .string c.descriptor), ("name", .string c.name),
      ("super", .ofOption .string c.superclass), ("flags", .ofList .string c.flags),
      ("is_interface", .bool c.isInterface), ("interfaces", .ofList .string c.interfaces),
      ("fields", .ofList Field.toJson c.fields), ("methods", .ofList Method.toJson c.methods)]

/-- Read a class. -/
def ofJson? (j : Json) : Option Class := do
  let j ←
    j.record?
      ["rawname", "name", "super", "flags", "is_interface", "interfaces", "fields", "methods"]
  let descriptor ← j.field? "rawname" Json.asString?
  let name ← j.field? "name" Json.asString?
  let superclass ← j.optionalField? "super" Json.asString?
  let flags ← j.field? "flags" (Json.asList? Json.asString?)
  let isInterface ← j.field? "is_interface" Json.asBool?
  let interfaces ← j.field? "interfaces" (Json.asList? Json.asString?)
  let fields ← j.field? "fields" (Json.asList? Field.ofJson?)
  let methods ← j.field? "methods" (Json.asList? Method.ofJson?)
  return { descriptor, name, superclass, flags, isInterface, interfaces, fields, methods }

end Class

end Java
end DalvikDecompiler
