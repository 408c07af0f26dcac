import DalvikDecompiler.Java.Ast
import DalvikDecompiler.Text

/-!
# Java source text

**Input.** A syntax tree and the depth at which it stands.

**Algorithm.** Statements become lines, each with its depth; an expression
takes no line of its own.  No parentheses are added, and the outermost ones of
a condition are left out, since the statement has its own.  A line is indented
by four blanks per depth.
-/

namespace DalvikDecompiler
namespace Java

/-- A line of source with its depth. -/
structure SourceLine where
  depth : Nat
  text : String
  deriving DecidableEq, Repr

namespace SourceLine

/-- The indentation of a depth. -/
def indent (depth : Nat) : String :=
  String.ofList (List.replicate (4 * depth) ' ')

/-- The text of a line, with its line break. -/
def render (line : SourceLine) : String :=
  indent line.depth ++ line.text ++ "\n"

/-- The text of several lines. -/
def renderAll (lines : List SourceLine) : String :=
  String.join (lines.map render)

end SourceLine

/-- A unary operator in front of the text of its operand; equal symbols are kept apart. -/
def unaryText (op operand : String) : String :=
  if op.toList.isPrefixOf operand.toList then op ++ " " ++ operand else op ++ operand

namespace Expression

mutual

/-- The text of an expression. -/
def render : Expression → String
  | .assignment target value op => render target ++ " " ++ op.getD "" ++ "= " ++ render value
  | .binary op left right => render left ++ " " ++ op ++ " " ++ render right
  | .unary op operand after =>
      if after then render operand ++ op else unaryText op (render operand)
  | .invocation _ name receiver args =>
      renderReceiver receiver ++ name ++ "(" ++ Text.joinWith ", " (renderAll args) ++ ")"
  | .creation _ type args =>
      "new " ++ type.spelling ++ "(" ++ Text.joinWith ", " (renderAll args) ++ ")"
  | .fieldAccess _ name object => render object ++ "." ++ name
  | .arrayAccess array index => render array ++ "[" ++ render index ++ "]"
  | .cast type operand => "(" ++ type.spelling ++ ") " ++ render operand
  | .literal value _ => value
  | .localVar name => name
  | .typeName type => type.spelling
  | .arrayInitializer type elements =>
      let items := "\x7b" ++ Text.joinWith ", " (renderAll elements) ++ "\x7d"
      match type with
      | some type => "new " ++ type.spelling ++ " " ++ items
      | none => items
  | .arrayCreation type sizes =>
      "new " ++ type.name ++ String.join ((renderAll sizes).map fun s => "[" ++ s ++ "]") ++
        brackets type.dims
  | .parenthesis inner => "(" ++ render inner ++ ")"
  | .placeholder label [] => label
  | .placeholder label (arg :: args) =>
      label ++ "(" ++ Text.joinWith ", " (render arg :: renderAll args) ++ ")"

/-- The text of a receiver and the dot behind it, if there is one. -/
def renderReceiver : Option Expression → String
  | none => ""
  | some receiver => render receiver ++ "."

/-- The texts of the expressions of a list. -/
def renderAll : List Expression → List String
  | [] => []
  | e :: rest => render e :: renderAll rest

end

/-- The text of an expression that stands between the parentheses of a statement. -/
def renderInParens : Expression → String
  | .parenthesis inner => inner.render
  | other => other.render

end Expression

/-- A declared variable behind its type. -/
def VarDecl.render (decl : VarDecl) : String :=
  decl.type.spelling ++ " " ++ decl.name

mutual

/-- The lines of a statement at a depth. -/
def Statement.lines (depth : Nat) : Statement → List SourceLine
  | .block body => ⟨depth, "\x7b"⟩ :: (Block.lines (depth + 1) body ++ [⟨depth, "\x7d"⟩])
  | .ifThen condition thenBlock elseBlock =>
      ⟨depth, "if (" ++ condition.renderInParens ++ ") \x7b"⟩ ::
        (Block.lines (depth + 1) thenBlock ++ elseLines depth elseBlock ++ [⟨depth, "\x7d"⟩])
  | .whileLoop condition body =>
      ⟨depth, "while (" ++ condition.renderInParens ++ ") \x7b"⟩ ::
        (Block.lines (depth + 1) body ++ [⟨depth, "\x7d"⟩])
  | .doLoop condition body =>
      ⟨depth, "do \x7b"⟩ ::
        (Block.lines (depth + 1) body ++
          [⟨depth, "\x7d while (" ++ condition.renderInParens ++ ");"⟩])
  | .switch selector arms =>
      ⟨depth, "switch (" ++ selector.renderInParens ++ ") \x7b"⟩ ::
        (armsLines (depth + 1) arms ++ [⟨depth, "\x7d"⟩])
  | .tryCatch body clauses =>
      ⟨depth, "try \x7b"⟩ ::
        (Block.lines (depth + 1) body ++ clausesLines depth clauses ++ [⟨depth, "\x7d"⟩])
  | .ret none => [⟨depth, "return;"⟩]
  | .ret (some value) => [⟨depth, "return " ++ value.render ++ ";"⟩]
  | .throw value => [⟨depth, "throw " ++ value.render ++ ";"⟩]
  | .expression value => [⟨depth, value.render ++ ";"⟩]
  | .declaration decl none => [⟨depth, decl.render ++ ";"⟩]
  | .declaration decl (some init) => [⟨depth, decl.render ++ " = " ++ init.render ++ ";"⟩]
  | .jump kind none => [⟨depth, kind.keyword ++ ";"⟩]
  | .jump kind (some label) => [⟨depth, kind.keyword ++ " " ++ label ++ ";"⟩]
  | .label name => [⟨depth, name ++ ":"⟩]

/-- The lines of the statements of a block at a depth. -/
def Block.lines (depth : Nat) : List Statement → List SourceLine
  | [] => []
  | statement :: rest => Statement.lines depth statement ++ Block.lines depth rest

/-- The lines of an alternative. -/
def elseLines (depth : Nat) : Option (List Statement) → List SourceLine
  | none => []
  | some body => ⟨depth, "\x7d else \x7b"⟩ :: Block.lines (depth + 1) body

/-- The lines of an arm of a switch. -/
def SwitchArm.lines (depth : Nat) : SwitchArm → List SourceLine
  | .mk keys isDefault body =>
      keys.map (fun key => ⟨depth, "case " ++ toString key.toInt ++ ":"⟩) ++
        (if isDefault then [⟨depth, "default:"⟩] else []) ++ Block.lines (depth + 1) body

/-- The lines of the arms of a switch. -/
def armsLines (depth : Nat) : List SwitchArm → List SourceLine
  | [] => []
  | arm :: rest => SwitchArm.lines depth arm ++ armsLines depth rest

/-- The lines of a handler. -/
def CatchClause.lines (depth : Nat) : CatchClause → List SourceLine
  | .mk decl body =>
      ⟨depth, "\x7d catch (" ++ decl.render ++ ") \x7b"⟩ :: Block.lines (depth + 1) body

/-- The lines of the handlers of a try statement. -/
def clausesLines (depth : Nat) : List CatchClause → List SourceLine
  | [] => []
  | clause :: rest => CatchClause.lines depth clause ++ clausesLines depth rest

end

/-- The text of the statements of a block at a depth. -/
def Block.render (body : Block) (depth : Nat) : String :=
  SourceLine.renderAll (Block.lines depth body)

namespace Method

/-- The name of a class without its package and the classes around it. -/
def simpleName (owner : String) : String :=
  String.ofList (Text.afterLast (fun c => c == '/' || c == '$') owner.toList)

/-- The words in front of the body.  A class initializer is only marked static, and a constructor
has the name of its class and no result. -/
def signature (m : Method) : String :=
  if m.member.name = "<clinit>" then
    "static"
  else
    let params := "(" ++ Text.joinWith ", " (m.params.map VarDecl.render) ++ ")"
    let head :=
      if m.member.name = "<init>" then
        [simpleName m.member.owner ++ params]
      else
        [m.returns.spelling, m.member.name ++ params]
    Text.joinWith " " (m.flags ++ head)

/-- The lines of a method at a depth. -/
def lines (m : Method) (depth : Nat) : List SourceLine :=
  m.comments.map (fun comment => ⟨depth, "// " ++ comment⟩) ++
    match m.body with
    | some body =>
        ⟨depth, m.signature ++ " \x7b"⟩ :: (Block.lines (depth + 1) body ++ [⟨depth, "\x7d"⟩])
    | none => [⟨depth, m.signature ++ ";"⟩]

/-- The text of a method at a depth. -/
def render (m : Method) (depth : Nat) : String :=
  SourceLine.renderAll (m.lines depth)

end Method

end Java
end DalvikDecompiler
