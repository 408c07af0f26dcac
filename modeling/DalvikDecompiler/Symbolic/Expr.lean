import DalvikDecompiler.Symbolic.Variable
import DalvikDecompiler.Text

/-!
# Expressions

**Input.** Values computed from variables, constants, the heap and calls.

**Algorithm.** Questions about all parts of an expression are asked of the
list of its subterms, in the order in which they are met from the outside in
and from left to right.
-/

namespace DalvikDecompiler
namespace Symbolic

open Bytecode (FieldRef MethodRef)

/-- A binary operator. -/
inductive BinaryOp where
  | add | sub | mul | div | rem | and | or | xor | shl | shr | ushr
  deriving DecidableEq, Repr

namespace BinaryOp

/-- The Java symbol of an operator. -/
def symbol : BinaryOp → String
  | .add => "+"
  | .sub => "-"
  | .mul => "*"
  | .div => "/"
  | .rem => "%"
  | .and => "&"
  | .or => "|"
  | .xor => "^"
  | .shl => "<<"
  | .shr => ">>"
  | .ushr => ">>>"

/-- Whether the right operand is a distance, which is an int whatever the left one is. -/
def isShift : BinaryOp → Bool
  | .shl | .shr | .ushr => true
  | _ => false

/-- The type of the right operand of an operation of a type. -/
def rightType (op : BinaryOp) (type : String) : String :=
  if op.isShift then "I" else type

end BinaryOp

/-- A unary operator. -/
inductive UnaryOp where
  | neg | not
  deriving DecidableEq, Repr

/-- The Java symbol of a unary operator. -/
def UnaryOp.symbol : UnaryOp → String
  | .neg => "-"
  | .not => "~"

/-- A relation that a branch tests. -/
inductive Relation where
  | eq | ne | lt | ge | gt | le
  deriving DecidableEq, Repr

namespace Relation

/-- The relation that holds exactly when the given one does not. -/
def negate : Relation → Relation
  | .eq => .ne
  | .ne => .eq
  | .lt => .ge
  | .ge => .lt
  | .gt => .le
  | .le => .gt

/-- The Java symbol of a relation. -/
def symbol : Relation → String
  | .eq => "=="
  | .ne => "!="
  | .lt => "<"
  | .ge => ">="
  | .gt => ">"
  | .le => "<="

end Relation

/-- A constant. -/
inductive Constant where
  | int (value : Int32)
  | wide (value : Int64)
  | string (value : String)
  | type (descriptor : String)
  deriving DecidableEq, Repr

/-- How the target of a call on an object is found. -/
inductive Dispatch where
  | virtual | super | direct | interface
  deriving DecidableEq, Repr

/-- An expression. -/
inductive Expr where
  | var (id : VarId)
  | const (constant : Constant)
  | unary (op : UnaryOp) (operand : Expr) (type : String)
  | binary (op : BinaryOp) (left right : Expr) (type : String)
  /-- Three-way comparison. -/
  | compare (type : String) (left right : Expr)
  /-- Conversion of a number. -/
  | cast (type : String) (operand : Expr)
  /-- Checked conversion of a reference. -/
  | checkCast (type : String) (operand : Expr)
  | instanceOf (type : String) (operand : Expr)
  | arrayLength (array : Expr)
  | newInstance (type : String)
  | newArray (type : String) (size : Expr)
  | filledArray (type : String) (elements : List Expr)
  | fieldRead (object : Expr) (field : FieldRef)
  | staticFieldRead (field : FieldRef)
  /-- Element of an array, with its type where the instruction says it. -/
  | arrayRead (array index : Expr) (type : Option String)
  | staticCall (method : MethodRef) (args : List Expr)
  | call (dispatch : Dispatch) (method : MethodRef) (receiver : Expr) (args : List Expr)
  deriving Repr

namespace Expr

/-- The operands of an expression, from left to right. -/
def children : Expr → List Expr
  | .var _ => []
  | .const _ => []
  | .newInstance _ => []
  | .staticFieldRead _ => []
  | .unary _ operand _ => [operand]
  | .cast _ operand => [operand]
  | .checkCast _ operand => [operand]
  | .instanceOf _ operand => [operand]
  | .arrayLength array => [array]
  | .newArray _ size => [size]
  | .fieldRead object _ => [object]
  | .binary _ left right _ => [left, right]
  | .compare _ left right => [left, right]
  | .arrayRead array index _ => [array, index]
  | .filledArray _ elements => elements
  | .staticCall _ args => args
  | .call _ _ receiver args => receiver :: args

mutual

/-- The expression itself and all its parts, from the outside in and from left to right. -/
def subterms : Expr → List Expr
  | .var id => [.var id]
  | .const constant => [.const constant]
  | .newInstance type => [.newInstance type]
  | .staticFieldRead field => [.staticFieldRead field]
  | .unary op operand type => .unary op operand type :: subterms operand
  | .cast type operand => .cast type operand :: subterms operand
  | .checkCast type operand => .checkCast type operand :: subterms operand
  | .instanceOf type operand => .instanceOf type operand :: subterms operand
  | .arrayLength array => .arrayLength array :: subterms array
  | .newArray type size => .newArray type size :: subterms size
  | .fieldRead object field => .fieldRead object field :: subterms object
  | .binary op left right type =>
      .binary op left right type :: (subterms left ++ subterms right)
  | .compare type left right => .compare type left right :: (subterms left ++ subterms right)
  | .arrayRead array index type =>
      .arrayRead array index type :: (subterms array ++ subterms index)
  | .filledArray type elements => .filledArray type elements :: subtermsOfAll elements
  | .staticCall method args => .staticCall method args :: subtermsOfAll args
  | .call dispatch method receiver args =>
      .call dispatch method receiver args :: (subterms receiver ++ subtermsOfAll args)

/-- The subterms of the expressions of a list, one after another. -/
def subtermsOfAll : List Expr → List Expr
  | [] => []
  | e :: rest => subterms e ++ subtermsOfAll rest

end

/-- The variable, if the expression is one. -/
def var? : Expr → Option VarId
  | .var id => some id
  | _ => none

/-- The constant, if the expression is one. -/
def const? : Expr → Option Constant
  | .const constant => some constant
  | _ => none

/-- Whether the expression is a given variable. -/
def isVar (id : VarId) (e : Expr) : Bool :=
  e.var? == some id

/-- The variables read, in order and with repetition. -/
def varsRead (e : Expr) : List VarId :=
  e.subterms.filterMap var?

/-- Whether the expression itself is a call. -/
def isCall : Expr → Bool
  | .staticCall .. => true
  | .call .. => true
  | _ => false

/-- Whether the expression itself reads the heap. -/
def isHeapRead : Expr → Bool
  | .fieldRead .. => true
  | .staticFieldRead _ => true
  | .arrayRead .. => true
  | _ => false

/-- Whether evaluating the expression calls a method. -/
def hasEffect (e : Expr) : Bool :=
  e.subterms.any isCall

/-- Whether evaluating the expression reads the heap. -/
def readsHeap (e : Expr) : Bool :=
  e.subterms.any isHeapRead

/-- Whether the expression is a constant. -/
def isConst (e : Expr) : Bool :=
  e.const?.isSome

/-- Whether the expression may move to where its value is used; new arrays stay where they are
named. -/
def isMovable : Expr → Bool
  | .newArray .. => false
  | .filledArray .. => false
  | _ => true

mutual

/-- Put an expression in the place of a variable. -/
def substitute (id : VarId) (value : Expr) : Expr → Expr
  | .var other => if other = id then value else .var other
  | .const constant => .const constant
  | .newInstance type => .newInstance type
  | .staticFieldRead field => .staticFieldRead field
  | .unary op operand type => .unary op (substitute id value operand) type
  | .cast type operand => .cast type (substitute id value operand)
  | .checkCast type operand => .checkCast type (substitute id value operand)
  | .instanceOf type operand => .instanceOf type (substitute id value operand)
  | .arrayLength array => .arrayLength (substitute id value array)
  | .newArray type size => .newArray type (substitute id value size)
  | .fieldRead object field => .fieldRead (substitute id value object) field
  | .binary op left right type =>
      .binary op (substitute id value left) (substitute id value right) type
  | .compare type left right =>
      .compare type (substitute id value left) (substitute id value right)
  | .arrayRead array index type =>
      .arrayRead (substitute id value array) (substitute id value index) type
  | .filledArray type elements => .filledArray type (substituteAll id value elements)
  | .staticCall method args => .staticCall method (substituteAll id value args)
  | .call dispatch method receiver args =>
      .call dispatch method (substitute id value receiver) (substituteAll id value args)

/-- Put an expression in the place of a variable in all expressions of a list. -/
def substituteAll (id : VarId) (value : Expr) : List Expr → List Expr
  | [] => []
  | e :: rest => substitute id value e :: substituteAll id value rest

end

/-- The type an expression is known to have. -/
def knownType (vars : Variables) : Expr → Option String
  | .var id => vars.type? id
  | .const (.string _) => some "Ljava/lang/String;"
  | .const (.type _) => some "Ljava/lang/Class;"
  | .const (.wide _) => some "J"
  | .const (.int _) => none
  | .unary _ _ type => some type
  | .binary _ _ _ type => some type
  | .cast type _ => some type
  | .checkCast type _ => some type
  | .newInstance type => some type
  | .newArray type _ => some type
  | .filledArray type _ => some type
  | .compare .. => some "I"
  | .arrayLength _ => some "I"
  | .instanceOf .. => some "Z"
  | .fieldRead _ field => some field.descriptor
  | .staticFieldRead field => some field.descriptor
  | .arrayRead array _ type =>
      match type with
      | some type => some type
      | none => (knownType vars array).bind Descriptor.element?
  | .staticCall method _ => callType method
  | .call _ method _ _ => callType method
where
  /-- The type of the result of a call. -/
  callType (method : MethodRef) : Option String :=
    if method.returnType = "V" then none else some method.returnType

/-- Whether an expression is known to be a reference. -/
def isReference (vars : Variables) (e : Expr) : Bool :=
  (e.knownType vars).any Descriptor.isReference

end Expr

/-- The text of a constant. -/
def Constant.dumpText : Constant → String
  | .int v => toString v.toInt
  | .wide v => toString v.toInt ++ "L"
  | .string s => Text.quoted s
  | .type t => Descriptor.javaName t ++ ".class"

namespace Expr

mutual

/-- The text of an expression in dumps. -/
def dumpText (vars : Variables) : Expr → String
  | .var id => vars.name id
  | .const constant => constant.dumpText
  | .unary op operand _ => op.symbol ++ dumpText vars operand
  | .binary op left right _ =>
      "(" ++ dumpText vars left ++ " " ++ op.symbol ++ " " ++ dumpText vars right ++ ")"
  | .compare type left right =>
      "cmp" ++ type ++ "(" ++ dumpText vars left ++ ", " ++ dumpText vars right ++ ")"
  | .cast type operand =>
      "((" ++ Descriptor.javaName type ++ ") " ++ dumpText vars operand ++ ")"
  | .checkCast type operand =>
      "((" ++ Descriptor.javaName type ++ ") " ++ dumpText vars operand ++ ")"
  | .instanceOf type operand =>
      dumpText vars operand ++ " instanceof " ++ Descriptor.javaName type
  | .arrayLength array => dumpText vars array ++ ".length"
  | .newInstance type => "new " ++ Descriptor.javaName type
  | .newArray type size =>
      "new " ++ Descriptor.javaName (Descriptor.elementOrSelf type) ++ "[" ++
        dumpText vars size ++ "]"
  | .filledArray _ elements =>
      "\x7b" ++ Text.joinWith ", " (dumpTexts vars elements) ++ "\x7d"
  | .fieldRead object field => dumpText vars object ++ "." ++ field.name
  | .staticFieldRead field => Descriptor.javaName field.owner ++ "." ++ field.name
  | .arrayRead array index _ => dumpText vars array ++ "[" ++ dumpText vars index ++ "]"
  | .staticCall method args =>
      Descriptor.javaName method.owner ++ "." ++ method.name ++ "(" ++
        Text.joinWith ", " (dumpTexts vars args) ++ ")"
  | .call _ method receiver args =>
      dumpText vars receiver ++ "." ++ method.name ++ "(" ++
        Text.joinWith ", " (dumpTexts vars args) ++ ")"

/-- The texts of the expressions of a list. -/
def dumpTexts (vars : Variables) : List Expr → List String
  | [] => []
  | e :: rest => dumpText vars e :: dumpTexts vars rest

end

end Expr

end Symbolic
end DalvikDecompiler
