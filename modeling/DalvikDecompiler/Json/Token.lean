import DalvikDecompiler.Decimal
import DalvikDecompiler.Json.Basic
import DalvikDecompiler.Text

/-!
# Tokens of JSON text

**Input.** The characters of a text.

**Algorithm.** The characters are taken one by one.  Between tokens blanks are
skipped and marks are tokens by themselves; letters, digits, signs and points
that stand together form a word, and what stands between quotes a text.  A word
is a number or one of three names.

**Results.** The tokens in order, or nothing if a character, a word or an
escape is not allowed.
-/

namespace DalvikDecompiler
namespace Json

/-- A unit of JSON text. -/
inductive Token where
  | openArray
  | closeArray
  | openObject
  | closeObject
  | comma
  | colon
  | text (value : String)
  /-- A number, a truth value or null. -/
  | plain (value : Json)

/-- The blanks between tokens. -/
def isBlank (c : Char) : Bool :=
  c == ' ' || c == '\t' || c == '\n' || c == '\r'

/-- The mark that a character is. -/
def mark? (c : Char) : Option Token :=
  if c = '[' then some .openArray
  else if c = ']' then some .closeArray
  else if c.toNat = 0x7B then some .openObject
  else if c.toNat = 0x7D then some .closeObject
  else if c = ',' then some .comma
  else if c = ':' then some .colon
  else none

/-- The characters of words. -/
def isWordChar (c : Char) : Bool :=
  c.isAlphanum || c == '-' || c == '+' || c == '.'

/-- Whether the digits before the point of a number have no needless zero. -/
def isMinimal : List Char → Bool
  | '0' :: _ :: _ => false
  | _ => true

/-- The floating-point number of a numeral, unless it is too large. -/
def ofNumeral? (n : Decimal.Numeral) : Option Json :=
  n.double?.map .float

/-- The number that digits without point and exponent stand for.  An integer has 64 bits, with or
without sign; minus zero is none. -/
def ofWhole? (n : Decimal.Numeral) : Option Json :=
  let magnitude := Decimal.digitsValue 0 n.whole
  if n.negative then
    if 0 < magnitude ∧ magnitude ≤ 9223372036854775808 then
      some (.int (-magnitude))
    else
      ofNumeral? n
  else if magnitude < 18446744073709551616 then
    some (.int magnitude)
  else
    ofNumeral? n

/-- Read a number. -/
def number? (word : List Char) : Option Json := do
  let (negative, unsigned) :=
    match word with
    | '-' :: rest => (true, rest)
    | _ => (false, word)
  let (whole, behind) ← Decimal.Numeral.digits? unsigned
  if isMinimal whole then
    match behind with
    | [] => ofWhole? { negative, whole, fraction := [], exponent := 0 }
    | _ =>
        let (fraction, rest) ← Decimal.Numeral.fraction? behind
        let exponent ← Decimal.Numeral.exponent? rest
        ofNumeral? { negative, whole, fraction, exponent }
  else
    none

/-- Read a word. -/
def word? (word : List Char) : Option Json :=
  if word = "null".toList then some .null
  else if word = "true".toList then some (.bool true)
  else if word = "false".toList then some (.bool false)
  else number? word

/-- The character of a short escape. -/
def shortEscape? (c : Char) : Option Char :=
  if c = '"' ∨ c = '\\' ∨ c = '/' then some c
  else if c = 'b' then some (Char.ofNat 0x08)
  else if c = 'f' then some (Char.ofNat 0x0C)
  else if c = 'n' then some '\n'
  else if c = 'r' then some '\r'
  else if c = 't' then some '\t'
  else none

/-- The code unit of four hexadecimal digits. -/
def codeUnit? (a b c d : Char) : Option Nat :=
  Text.readHexFrom 0 [a, b, c, d]

/-- Whether a code unit is the first of a pair. -/
def isLeading (unit : Nat) : Bool :=
  0xD800 ≤ unit && unit < 0xDC00

/-- Whether a code unit is the second of a pair. -/
def isTrailing (unit : Nat) : Bool :=
  0xDC00 ≤ unit && unit < 0xE000

/-- The character of a pair of code units. -/
def pairChar (leading trailing : Nat) : Char :=
  Char.ofNat (0x10000 + (leading - 0xD800) * 0x400 + (trailing - 0xDC00))

/-- What stands between two quotes, escapes resolved.  A code unit that is one of a pair has to come
with the other. -/
def unescape? : List Char → Option (List Char)
  | [] => some []
  | '\\' :: 'u' :: a :: b :: c :: d :: rest =>
      match codeUnit? a b c d with
      | none => none
      | some unit =>
          if isLeading unit then
            match rest with
            | '\\' :: 'u' :: e :: f :: g :: h :: more =>
                match codeUnit? e f g h with
                | some second =>
                    if isTrailing second then
                      (unescape? more).map (pairChar unit second :: ·)
                    else
                      none
                | none => none
            | _ => none
          else if isTrailing unit then
            none
          else
            (unescape? rest).map (Char.ofNat unit :: ·)
  | '\\' :: c :: rest =>
      match shortEscape? c with
      | some char => (unescape? rest).map (char :: ·)
      | none => none
  | c :: rest => if c = '\\' ∨ c.toNat < 0x20 then none else (unescape? rest).map (c :: ·)

/-- Where in a token the next character stands.  The characters of a token are kept last first. -/
inductive Place where
  | between
  | inWord (done : List Char)
  | inText (done : List Char)
  | behindEscape (done : List Char)

/-- The tokens read so far, the last one first, and the place behind them. -/
structure Scan where
  tokens : List Token
  place : Place

namespace Scan

/-- Before the first character. -/
def start : Scan :=
  ⟨[], .between⟩

/-- Take a character between two tokens. -/
def enter (tokens : List Token) (c : Char) : Option Scan :=
  if isBlank c then
    some ⟨tokens, .between⟩
  else if c = '"' then
    some ⟨tokens, .inText []⟩
  else if isWordChar c then
    some ⟨tokens, .inWord [c]⟩
  else
    (mark? c).map fun mark => ⟨mark :: tokens, .between⟩

/-- Take a character. -/
def step (s : Scan) (c : Char) : Option Scan :=
  match s.place with
  | .between => enter s.tokens c
  | .inWord done =>
      if isWordChar c then
        some ⟨s.tokens, .inWord (c :: done)⟩
      else
        (word? done.reverse).bind fun value => enter (.plain value :: s.tokens) c
  | .inText done =>
      if c = '"' then
        (unescape? done.reverse).map fun chars =>
          ⟨.text (String.ofList chars) :: s.tokens, .between⟩
      else if c = '\\' then
        some ⟨s.tokens, .behindEscape (c :: done)⟩
      else
        some ⟨s.tokens, .inText (c :: done)⟩
  | .behindEscape done => some ⟨s.tokens, .inText (c :: done)⟩

/-- The tokens at the end of the text. -/
def finish (s : Scan) : Option (List Token) :=
  match s.place with
  | .between => some s.tokens.reverse
  | .inWord done => (word? done.reverse).map fun value => (.plain value :: s.tokens).reverse
  | _ => none

end Scan

/-- The tokens of a text. -/
def tokens? (cs : List Char) : Option (List Token) :=
  (cs.foldlM Scan.step Scan.start).bind Scan.finish

end Json
end DalvikDecompiler
