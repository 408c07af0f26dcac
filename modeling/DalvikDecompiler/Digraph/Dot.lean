import DalvikDecompiler.Text

/-!
# Drawings of graphs

**Input.** Boxes with lines of text, and edges of several styles between them.

**Algorithm.** The drawing is a text in the language of graph drawing tools,
one box or edge a line, in the order in which they are given.
-/

namespace DalvikDecompiler
namespace Dot

/-- The spelling of one character of a label or a name. -/
def spellChar (c : Char) : List Char :=
  if c = '\\' then ['\\', '\\']
  else if c = '"' then ['\\', '"']
  else if c = '\n' then ['\\', 'l']
  else if c = '\r' then []
  else if c = '<' ∨ c = '>' ∨ c.toNat = 0x7B ∨ c.toNat = 0x7D then ['\\', c]
  else [c]

/-- The spelling of a label or a name. -/
def escape (s : String) : String :=
  String.ofList (s.toList.flatMap spellChar)

/-- The style of an edge. -/
inductive LineStyle where
  | normal | onTrue | onFalse | exceptional
  deriving DecidableEq, Repr

/-- The attributes of an edge of a style. -/
def LineStyle.attributes : LineStyle → String
  | .normal => "color=\"blue\""
  | .onTrue => "color=\"green\""
  | .onFalse => "color=\"red\""
  | .exceptional => "color=\"black\", style=\"dashed\""

/-- A part of a drawing. -/
inductive Item where
  | box (id : String) (lines : List String)
  | edge (source target : String) (style : LineStyle)

/-- The line of a part. -/
def Item.render : Item → String
  | .box id lines =>
      "  \"" ++ escape id ++ "\" [label=\"" ++
        String.join (lines.map fun line => escape line ++ "\\l") ++ "\"];\n"
  | .edge source target style =>
      "  \"" ++ escape source ++ "\" -> \"" ++ escape target ++ "\" [" ++ style.attributes ++
        "];\n"

/-- The text of a drawing. -/
def render (name : String) (items : List Item) : String :=
  "digraph \"" ++ escape name ++ "\" \x7b\n" ++
    "  node [shape=box, fontname=\"monospace\"];\n" ++
    String.join (items.map Item.render) ++ "\x7d\n"

end Dot
end DalvikDecompiler
