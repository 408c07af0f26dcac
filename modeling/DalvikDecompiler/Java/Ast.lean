import DalvikDecompiler.Descriptor

/-!
# Java syntax trees

**Input.** Expressions, statements, methods and classes of Java source, with
two extensions: labels with jumps to them, for control flow that has no
structure, and placeholders for what has no Java form.

A block is the list of its statements.
-/

namespace DalvikDecompiler
namespace Java

/-- A member of a class, named as class files name it. -/
structure Member where
  owner : String
  name : String
  descriptor : String
  deriving DecidableEq, Repr

/-- A member of the class with a descriptor. -/
def Member.of (ownerDescriptor name descriptor : String) : Member :=
  { owner := Descriptor.internalName ownerDescriptor, name, descriptor }

/-- The name of a type: that of an element, and the number of array dimensions. -/
structure TypeName where
  name : String
  dims : UInt64
  deriving DecidableEq, Repr

/-- One pair of brackets per dimension. -/
def brackets (dims : UInt64) : String :=
  String.ofList (List.replicate dims.toNat ['[', ']']).flatten

/-- A type as it stands in source. -/
def TypeName.spelling (t : TypeName) : String :=
  t.name ++ brackets t.dims

/-- The name of the type with a descriptor. -/
def TypeName.ofDescriptor (descriptor : String) : TypeName :=
  let (element, dims) := Descriptor.splitDims descriptor
  { name := Descriptor.javaName element, dims := UInt64.ofNat dims }

/-- A variable with its type. -/
structure VarDecl where
  type : TypeName
  name : String
  deriving DecidableEq, Repr

/-- A Java expression. -/
inductive Expression where
  /-- Plain or, with an operator, compound assignment. -/
  | assignment (target value : Expression) (op : Option String)
  | binary (op : String) (left right : Expression)
  /-- An operator before its operand, or after it. -/
  | unary (op : String) (operand : Expression) (after : Bool)
  | invocation (member : Member) (name : String) (receiver : Option Expression)
      (args : List Expression)
  | creation (member : Member) (type : TypeName) (args : List Expression)
  | fieldAccess (member : Option Member) (name : String) (object : Expression)
  | arrayAccess (array index : Expression)
  | cast (type : TypeName) (operand : Expression)
  | literal (value : String) (type : TypeName)
  | localVar (name : String)
  | typeName (type : TypeName)
  | arrayInitializer (type : Option TypeName) (elements : List Expression)
  | arrayCreation (type : TypeName) (sizes : List Expression)
  | parenthesis (inner : Expression)
  /-- A placeholder with arguments. -/
  | placeholder (label : String) (args : List Expression)
  deriving Repr

namespace Expression

/-- Put parentheses around an expression whose parts could otherwise be grouped with what stands
beside it. -/
def asOperand : Expression → Expression
  | .binary op left right => .parenthesis (.binary op left right)
  | .assignment target value op => .parenthesis (.assignment target value op)
  | .cast type operand => .parenthesis (.cast type operand)
  | other => other

/-- A placeholder without arguments. -/
def note (label : String) : Expression :=
  .placeholder label []

/-- A plain assignment. -/
def assign (target value : Expression) : Expression :=
  .assignment target value none

end Expression

/-- The keyword of a jump. -/
inductive JumpKind where
  | «break» | «continue» | goto
  deriving DecidableEq, Repr

/-- The spelling of a jump. -/
def JumpKind.keyword : JumpKind → String
  | .break => "break"
  | .continue => "continue"
  | .goto => "goto"

mutual

/-- A Java statement. -/
inductive Statement where
  | block (body : List Statement)
  | ifThen (condition : Expression) (thenBlock : List Statement)
      (elseBlock : Option (List Statement))
  | whileLoop (condition : Expression) (body : List Statement)
  | doLoop (condition : Expression) (body : List Statement)
  | switch (selector : Expression) (arms : List SwitchArm)
  | tryCatch (body : List Statement) (clauses : List CatchClause)
  | ret (value : Option Expression)
  | throw (value : Expression)
  | expression (value : Expression)
  | declaration (decl : VarDecl) (init : Option Expression)
  | jump (keyword : JumpKind) (label : Option String)
  | label (name : String)

/-- An arm of a switch. -/
inductive SwitchArm where
  | mk (keys : List Int32) (isDefault : Bool) (body : List Statement)

/-- A handler of a try statement. -/
inductive CatchClause where
  | mk (decl : VarDecl) (body : List Statement)

end

/-- A block is the list of its statements. -/
abbrev Block := List Statement

namespace Statement

/-- Whether control never reaches the statement behind this one. -/
def neverCompletes : Statement → Bool
  | .ret _ => true
  | .throw _ => true
  | .jump .. => true
  | _ => false

end Statement

/-- A method; one without a body has only its signature. -/
structure Method where
  member : Member
  flags : List String
  returns : TypeName
  params : List VarDecl
  comments : List String
  body : Option Block

/-- A field. -/
structure Field where
  name : String
  type : TypeName
  flags : List String
  value : Option String
  deriving DecidableEq, Repr

/-- A class. -/
structure Class where
  descriptor : String
  name : String
  superclass : Option String
  flags : List String
  isInterface : Bool
  interfaces : List String
  fields : List Field
  methods : List Method

end Java
end DalvikDecompiler
