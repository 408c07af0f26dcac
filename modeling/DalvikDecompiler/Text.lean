/-!
# Texts

Blanks, numerals, quoted literals and lines.
-/

/-!
## Blank characters and trimming

**Input.** Texts that a class file may pad with blanks: mnemonics, type
descriptors, lists of access flags.

**Algorithm.** A character is blank when it has the Unicode property
White_Space.  Trimming drops the blanks at either end and touches nothing in
between.
-/

namespace DalvikDecompiler
namespace Text

/-- Inclusive ranges of the code points with the property White_Space, in increasing order. -/
def blankRanges : List (Nat × Nat) :=
  [(0x9, 0xD), (0x20, 0x20), (0x85, 0x85), (0xA0, 0xA0), (0x1680, 0x1680),
    (0x2000, 0x200A), (0x2028, 0x2029), (0x202F, 0x202F), (0x205F, 0x205F), (0x3000, 0x3000)]

/-- A character with the property White_Space. -/
def isBlank (c : Char) : Bool :=
  blankRanges.any fun range => range.1 ≤ c.toNat && c.toNat ≤ range.2

/-- Drop the blanks at the front. -/
def trimFront (cs : List Char) : List Char :=
  cs.dropWhile isBlank

/-- Drop the blanks at the back. -/
def trimBack (cs : List Char) : List Char :=
  (cs.reverse.dropWhile isBlank).reverse

/-- Drop the blanks at both ends. -/
def trimChars (cs : List Char) : List Char :=
  trimBack (trimFront cs)

/-- Drop the blanks at both ends of a text. -/
def trim (s : String) : String :=
  String.ofList (trimChars s.toList)

/-- The parts of a list between occurrences of a separator; there is always one more part than
separators. -/
def splitAt {α : Type} [BEq α] (separator : α) : List α → List (List α)
  | [] => [[]]
  | x :: rest =>
      if x == separator then
        [] :: splitAt separator rest
      else
        match splitAt separator rest with
        | [] => [[x]]
        | part :: parts => (x :: part) :: parts

/-- The part of a list after the last occurrence of a separator, or all of it. -/
def afterLast {α : Type} (isSeparator : α → Bool) (xs : List α) : List α :=
  (xs.reverse.takeWhile fun x => !isSeparator x).reverse

end Text
end DalvikDecompiler

/-!
## Numerals

Texts of numbers in messages and literals: hexadecimal with lower case digits,
with or without a marker, and padded to a fixed number of places.
-/

namespace DalvikDecompiler
namespace Text

/-- Hexadecimal digits of a number, the most significant one first and no leading zero. -/
def hexDigits (n : Nat) : List Char :=
  Nat.toDigits 16 n

/-- A number behind the marker 0x. -/
def hex (n : Nat) : String :=
  "0x" ++ String.ofList (hexDigits n)

/-- Four hexadecimal digits at least, filled up with zeros. -/
def hexPadded (n : Nat) : List Char :=
  List.replicate (4 - (hexDigits n).length) '0' ++ hexDigits n

/-- Value of a hexadecimal digit of either case. -/
def hexValue? (c : Char) : Option Nat :=
  if '0' ≤ c ∧ c ≤ '9' then some (c.toNat - '0'.toNat)
  else if 'a' ≤ c ∧ c ≤ 'f' then some (c.toNat - 'a'.toNat + 10)
  else if 'A' ≤ c ∧ c ≤ 'F' then some (c.toNat - 'A'.toNat + 10)
  else none

/-- Read hexadecimal digits behind a value read so far. -/
def readHexFrom (value : Nat) : List Char → Option Nat
  | [] => some value
  | c :: rest =>
      match hexValue? c with
      | some digit => readHexFrom (value * 16 + digit) rest
      | none => none

/-- Read one or more hexadecimal digits, behind a plus sign or without one. -/
def readHex? : List Char → Option Nat
  | [] => none
  | '+' :: [] => none
  | '+' :: c :: rest => readHexFrom 0 (c :: rest)
  | c :: rest => readHexFrom 0 (c :: rest)

/-- Texts with a separator between them. -/
def joinWith (separator : String) : List String → String
  | [] => ""
  | [s] => s
  | s :: t :: rest => s ++ separator ++ joinWith separator (t :: rest)

end Text
end DalvikDecompiler

/-!
## Quoted literals

**Input.** A character or a text that is to stand in Java source.

**Algorithm.** Backslash, line feed, carriage return, tab, NUL and the quote
in use have short escapes; any other control character becomes a Unicode
escape of four hexadecimal digits; the rest stands for itself.
-/

namespace DalvikDecompiler
namespace Text

/-- The control characters: the general category Cc. -/
def isControl (c : Char) : Bool :=
  c.toNat < 0x20 || (0x7F ≤ c.toNat && c.toNat < 0xA0)

/-- A Unicode escape. -/
def unicodeEscape (code : Nat) : List Char :=
  '\\' :: 'u' :: hexPadded code

/-- The spelling of one character between two quotes. -/
def spellChar (quote : Char) (c : Char) : List Char :=
  if c = '\\' then ['\\', '\\']
  else if c = '\n' then ['\\', 'n']
  else if c = '\r' then ['\\', 'r']
  else if c = '\t' then ['\\', 't']
  else if c = Char.ofNat 0 then ['\\', '0']
  else if c = quote then ['\\', c]
  else if isControl c then unicodeEscape c.toNat
  else [c]

/-- A string literal, quotes included. -/
def quotedChars (cs : List Char) : List Char :=
  '"' :: cs.flatMap (spellChar '"') ++ ['"']

/-- A string literal, quotes included. -/
def quoted (s : String) : String :=
  String.ofList (quotedChars s.toList)

/-- A character literal for a UTF-16 code unit; control characters and halves of surrogate pairs
are written as Unicode escapes. -/
def quotedUnit (unit : UInt16) : String :=
  let code := unit.toNat
  let inner :=
    if (0xD800 ≤ code && code < 0xE000) || isControl (Char.ofNat code) then
      unicodeEscape code
    else
      spellChar '\'' (Char.ofNat code)
  String.ofList ('\'' :: inner ++ ['\''])

end Text
end DalvikDecompiler

/-!
## Lines of a text

A line ends with a line break, in front of which a carriage return may stand.
Behind the last line break, an empty rest is no line.
-/

namespace DalvikDecompiler
namespace Text

/-- Split off the characters in front of the first line break and those behind it. -/
def cutLine (cs : List Char) : List Char × List Char :=
  (cs.takeWhile (· != '\n'), (cs.dropWhile (· != '\n')).drop 1)

/-- The lines of a text, at most some number of them. -/
def linesWithin : Nat → List Char → List (List Char)
  | 0, _ => []
  | _, [] => []
  | bound + 1, cs =>
      let (line, rest) := cutLine cs
      let closed := line.length < cs.length
      let line := if closed && line.getLast? == some '\r' then line.dropLast else line
      line :: linesWithin bound rest

/-- The lines of a text. -/
def lines (s : String) : List String :=
  (linesWithin s.length s.toList).map String.ofList

end Text
end DalvikDecompiler
