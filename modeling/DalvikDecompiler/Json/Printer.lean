import DalvikDecompiler.Decimal
import DalvikDecompiler.Json.Basic
import DalvikDecompiler.Text

/-!
# JSON text

**Over several lines.** Members and items stand on lines of their own, two
blanks deeper than what holds them; empty arrays and objects stay on one line;
a member's name and value are divided by a colon and one blank.

**On one line.** Nothing stands between the marks and the values.
-/

namespace DalvikDecompiler
namespace Json

/-- The spelling of one character inside a JSON string: quote, backslash and the control
characters below the blank are escaped. -/
def spellChar (c : Char) : List Char :=
  if c = '"' then ['\\', '"']
  else if c = '\\' then ['\\', '\\']
  else if c.toNat = 0x08 then ['\\', 'b']
  else if c.toNat = 0x0C then ['\\', 'f']
  else if c = '\n' then ['\\', 'n']
  else if c = '\r' then ['\\', 'r']
  else if c = '\t' then ['\\', 't']
  else if c.toNat < 0x20 then Text.unicodeEscape c.toNat
  else [c]

/-- A JSON string, quotes included. -/
def quoted (s : String) : String :=
  String.ofList ('"' :: s.toList.flatMap spellChar ++ ['"'])

/-- The text of a floating-point number. -/
def floatText (bits : UInt64) : String :=
  Decimal.BinaryFormat.double.spellBits bits.toNat

/-- A line break and the indentation of a depth. -/
def newLine (depth : Nat) : String :=
  String.ofList ('\n' :: List.replicate (2 * depth) ' ')

mutual

/-- The text of a value at a depth. -/
def pretty (depth : Nat) : Json → String
  | .null => "null"
  | .bool b => if b then "true" else "false"
  | .int value => toString value
  | .float bits => floatText bits
  | .string s => quoted s
  | .array [] => "[]"
  | .array (item :: items) =>
      "[" ++ newLine (depth + 1) ++ pretty (depth + 1) item ++ prettyItems (depth + 1) items ++
        newLine depth ++ "]"
  | .object [] => "\x7b\x7d"
  | .object ((name, value) :: members) =>
      "\x7b" ++ newLine (depth + 1) ++ quoted name ++ ": " ++ pretty (depth + 1) value ++
        prettyMembers (depth + 1) members ++ newLine depth ++ "\x7d"

/-- The text of the items after the first. -/
def prettyItems (depth : Nat) : List Json → String
  | [] => ""
  | item :: items => "," ++ newLine depth ++ pretty depth item ++ prettyItems depth items

/-- The text of the members after the first. -/
def prettyMembers (depth : Nat) : List (String × Json) → String
  | [] => ""
  | (name, value) :: members =>
      "," ++ newLine depth ++ quoted name ++ ": " ++ pretty depth value ++
        prettyMembers depth members

end

mutual

/-- The text of a value on one line. -/
def compact : Json → String
  | .null => "null"
  | .bool b => if b then "true" else "false"
  | .int value => toString value
  | .float bits => floatText bits
  | .string s => quoted s
  | .array [] => "[]"
  | .array (item :: items) => "[" ++ compact item ++ compactItems items ++ "]"
  | .object [] => "\x7b\x7d"
  | .object ((name, value) :: members) =>
      "\x7b" ++ quoted name ++ ":" ++ compact value ++ compactMembers members ++ "\x7d"

/-- The text of the items after the first on one line. -/
def compactItems : List Json → String
  | [] => ""
  | item :: items => "," ++ compact item ++ compactItems items

/-- The text of the members after the first on one line. -/
def compactMembers : List (String × Json) → String
  | [] => ""
  | (name, value) :: members =>
      "," ++ quoted name ++ ":" ++ compact value ++ compactMembers members

end

end Json
end DalvikDecompiler
