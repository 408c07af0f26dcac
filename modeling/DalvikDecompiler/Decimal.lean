import DalvikDecompiler.Natural

/-!
# Binary and decimal numbers

Floating-point numbers, how numerals are read, and how numbers are spelled.
-/

/-!
## Binary floating-point numbers

**Input.** The bit pattern of a number in one of the binary interchange
formats of 32 and 64 bits.

**Algorithm.** A finite pattern stands for a sign and a value m · 2^q with
natural m.  Going back, a quotient of natural numbers is rounded to the
nearest value of the format, a tie to the even significand.
-/

namespace DalvikDecompiler
namespace Decimal

open Natural (twoTo tenTo)

/-- A binary interchange format: the width of the stored significand and of the exponent. -/
structure BinaryFormat where
  fractionBits : Nat
  exponentBits : Nat

/-- The format of 32 bits. -/
def BinaryFormat.single : BinaryFormat :=
  ⟨23, 8⟩

/-- The format of 64 bits. -/
def BinaryFormat.double : BinaryFormat :=
  ⟨52, 11⟩

/-- What a bit pattern stands for. -/
inductive BinaryValue where
  | nan
  | infinite (negative : Bool)
  | finite (negative : Bool) (significand : Nat) (exponent : Int)

namespace BinaryFormat

/-- The least exponent of a unit in the last place. -/
def minExponent (f : BinaryFormat) : Int :=
  2 - (twoTo (f.exponentBits - 1) : Nat) - f.fractionBits

/-- The largest stored exponent, that of infinities and NaN. -/
def maxStored (f : BinaryFormat) : Nat :=
  twoTo f.exponentBits - 1

/-- The value of a bit pattern. -/
def decode (f : BinaryFormat) (bits : Nat) : BinaryValue :=
  let fraction := bits % twoTo f.fractionBits
  let stored := bits / twoTo f.fractionBits % twoTo f.exponentBits
  let negative := bits / twoTo (f.fractionBits + f.exponentBits) % 2 == 1
  if stored = f.maxStored then
    if fraction = 0 then .infinite negative else .nan
  else if stored = 0 then
    .finite negative fraction f.minExponent
  else
    .finite negative (fraction + twoTo f.fractionBits) (f.minExponent + (stored - 1 : Nat))

/-- The bit pattern of a sign. -/
def signBits (f : BinaryFormat) (negative : Bool) : Nat :=
  if negative then twoTo (f.fractionBits + f.exponentBits) else 0

/-- A quotient rounded to the nearest natural number, a tie to the even one. -/
def roundQuotient (num den : Nat) : Nat :=
  let low := num / den
  let rest := num % den
  if 2 * rest > den ∨ (2 * rest = den ∧ low % 2 = 1) then low + 1 else low

/-- The exponent of the unit in which the quotient `num / den` is rounded: the least one that
leaves at most `fractionBits + 1` bits of integral part, but none below the least of the format.
-/
def unitExponent (f : BinaryFormat) (num den : Nat) : Int :=
  let estimate : Int := (num.log2 : Int) - den.log2 - f.fractionBits - 1
  let fits (q : Int) : Bool :=
    num * twoTo (-q).toNat < den * twoTo q.toNat * twoTo (f.fractionBits + 1)
  let least := if fits estimate then estimate else estimate + 1
  max least f.minExponent

/-- The bit pattern nearest to a signed quotient of natural numbers. -/
def encode (f : BinaryFormat) (negative : Bool) (num den : Nat) : Nat :=
  if num = 0 ∨ den = 0 then f.signBits negative
  else
    let q := f.unitExponent num den
    let m := roundQuotient (num * twoTo (-q).toNat) (den * twoTo q.toNat)
    let stored := (q - f.minExponent).toNat
    let pattern := stored * twoTo f.fractionBits + m
    f.signBits negative + min pattern (f.maxStored * twoTo f.fractionBits)

/-- The bit pattern of the number of another format that is nearest to a number. -/
def convert (f g : BinaryFormat) (bits : Nat) : Nat :=
  match f.decode bits with
  | .finite negative m q => g.encode negative (m * twoTo q.toNat) (twoTo (-q).toNat)
  | .infinite negative => g.signBits negative + g.maxStored * twoTo g.fractionBits
  | .nan => g.maxStored * twoTo g.fractionBits + twoTo (g.fractionBits - 1)

end BinaryFormat

end Decimal
end DalvikDecompiler

/-!
## Decimal numerals

**Input.** A numeral: a sign, digits before the point, and possibly digits
behind it and an exponent.

**Algorithm.** Its digits are gathered into a significand of 64 bits as long as
they fit; digits before the point that do not fit raise the exponent, those
behind the point are dropped.  The significand, rounded to a binary number of
64 bits, is multiplied or divided by the binary number nearest to the power of
ten, in steps of 10^308 where that is the largest power there is.

**Results.** The binary number, unless it is infinite.
-/

namespace DalvikDecompiler
namespace Decimal

open Natural (twoTo tenTo)

/-- The value of a decimal digit. -/
def digitValue (c : Char) : Nat :=
  c.toNat - '0'.toNat

/-- The number that digits are written for, behind a value read so far. -/
def digitsValue (value : Nat) (digits : List Char) : Nat :=
  Nat.ofDigitChars 10 digits value

/-- The parts of a numeral. -/
structure Numeral where
  negative : Bool
  whole : List Char
  fraction : List Char
  exponent : Int

namespace Numeral

/-- A sign in front of digits: whether it is a minus, and what is behind it. -/
def sign : List Char → Bool × List Char
  | '-' :: rest => (true, rest)
  | '+' :: rest => (false, rest)
  | cs => (false, cs)

/-- One digit or more, and what is behind them. -/
def digits? (cs : List Char) : Option (List Char × List Char) :=
  match cs.takeWhile Char.isDigit with
  | [] => none
  | digits => some (digits, cs.dropWhile Char.isDigit)

/-- Read the digits behind a point; there need be no point. -/
def fraction? : List Char → Option (List Char × List Char)
  | '.' :: rest => digits? rest
  | cs => some ([], cs)

/-- Read the exponent that a numeral ends in; there need be none. -/
def exponent? : List Char → Option Int
  | [] => some 0
  | mark :: rest =>
      if mark = 'e' ∨ mark = 'E' then
        let (negative, cs) := sign rest
        match digits? cs with
        | some (digits, []) =>
            let value : Int := digitsValue 0 digits
            some (if negative then -value else value)
        | _ => none
      else
        none

/-- Digits take part in the significand as long as it stays below 2^64: the significand, and the
digits that are left. -/
def gather (significand : Nat) : List Char → Nat × List Char
  | [] => (significand, [])
  | c :: rest =>
      let next := significand * 10 + digitValue c
      if next < twoTo 64 then gather next rest else (significand, c :: rest)

/-- The significand and the exponent of a numeral. -/
def scientific (n : Numeral) : Nat × Int :=
  let (high, overflow) := gather 0 n.whole
  let (significand, dropped) := gather high n.fraction
  (significand, overflow.length + dropped.length - n.fraction.length + n.exponent)

end Numeral

namespace BinaryFormat

/-- The magnitude of a finite number as a quotient; of what is not finite, none. -/
def quotient? (f : BinaryFormat) (bits : Nat) : Option (Nat × Nat) :=
  match f.decode bits with
  | .finite _ m q => some (m * twoTo q.toNat, twoTo (-q).toNat)
  | _ => none

/-- The largest power of ten that is used at once. -/
def largestPower : Nat :=
  308

/-- The number nearest to the product of the magnitudes of two. -/
def multiply? (f : BinaryFormat) (x y : Nat) : Option Nat := do
  let (n, d) ← f.quotient? x
  let (m, e) ← f.quotient? y
  return f.encode false (n * m) (d * e)

/-- The number nearest to the quotient of the magnitudes of two. -/
def divide? (f : BinaryFormat) (x y : Nat) : Option Nat := do
  let (n, d) ← f.quotient? x
  let (m, e) ← f.quotient? y
  return f.encode false (n * e) (d * m)

/-- The number nearest to a power of ten. -/
def powerOfTen (f : BinaryFormat) (k : Nat) : Nat :=
  f.encode false (tenTo k) 1

/-- A magnitude divided by a power of ten, at most a given number of times by the largest one. -/
def lower? (f : BinaryFormat) : Nat → Nat → Nat → Option Nat
  | 0, x, k => f.divide? x (f.powerOfTen k)
  | steps + 1, x, k =>
      if k ≤ largestPower then
        f.divide? x (f.powerOfTen k)
      else do
        f.lower? steps (← f.divide? x (f.powerOfTen largestPower)) (k - largestPower)

/-- A significand times a power of ten.  Two divisions by the largest power take a significand of
64 bits to zero, so that an exponent below three times that power counts as that. -/
def scale? (f : BinaryFormat) (significand : Nat) (exponent : Int) : Option Nat :=
  let x := f.encode false significand 1
  if significand = 0 then
    some x
  else if exponent < 0 then
    f.lower? 2 x (min (-exponent).toNat (3 * largestPower))
  else if exponent ≤ largestPower then
    f.multiply? x (f.powerOfTen exponent.toNat)
  else
    none

end BinaryFormat

/-- The bit pattern of 64 bits that a numeral stands for, unless it is too large. -/
def Numeral.double? (n : Numeral) : Option UInt64 := do
  let (significand, exponent) := n.scientific
  let magnitude ← BinaryFormat.double.scale? significand exponent
  let _ ← BinaryFormat.double.quotient? magnitude
  return UInt64.ofNat (BinaryFormat.double.signBits n.negative + magnitude)

end Decimal
end DalvikDecompiler

/-!
## Shortest decimals

**Input.** A finite binary value m · 2^q of a format.

**Algorithm.** The reals that round to the value form an interval around it,
its ends included exactly when m is even.  For one, two, … significant digits
the two neighbours of the value on the decimal grid of that many digits are
tested; the first grid with a neighbour in the interval wins, of two the
nearer one, and an exact tie goes up.  All tests compare natural numbers.
-/

namespace DalvikDecompiler
namespace Decimal

open Natural (twoTo tenTo)

/-- The number `significand · 10 ^ exponent`. -/
structure Scientific where
  significand : Nat
  exponent : Int
  deriving Repr, DecidableEq

/-- The interval of the reals that round to a value, in units `1 / scale`. -/
structure RoundingInterval where
  value : Nat
  low : Nat
  high : Nat
  scale : Nat
  closed : Bool

namespace RoundingInterval

/-- The rounding interval of `m · 2 ^ q`.  Below a power of two the neighbours are half as far
apart, unless the exponent is the least one already. -/
def ofBinary (f : BinaryFormat) (m : Nat) (q : Int) : RoundingInterval :=
  let factor := twoTo (q - 2).toNat
  let narrow := m == twoTo f.fractionBits && q != f.minExponent
  { value := 4 * m * factor
    low := (4 * m - if narrow then 1 else 2) * factor
    high := (4 * m + 2) * factor
    scale := twoTo (2 - q).toNat
    closed := m % 2 == 0 }

/-- Whether the interval has the point `num / den`. -/
def contains (r : RoundingInterval) (num den : Nat) : Bool :=
  let lower := r.low * den
  let point := num * r.scale
  let upper := r.high * den
  if r.closed then lower ≤ point && point ≤ upper else lower < point && point < upper

/-- The neighbour of the value on the grid of the multiples of `10 ^ k` that lies in the interval;
of two the nearer, and the upper one on a tie. -/
def gridPoint? (r : RoundingInterval) (k : Int) : Option Nat :=
  let num := tenTo k.toNat
  let den := tenTo (-k).toNat
  let below := r.value * den / (r.scale * num)
  let above := below + 1
  let hitBelow := 0 < below && r.contains (below * num) den
  let hitAbove := r.contains (above * num) den
  match hitBelow, hitAbove with
  | false, false => none
  | true, false => some below
  | false, true => some above
  | true, true =>
      if 2 * (r.value * den) < (below + above) * num * r.scale then some below else some above

/-- Test the grids of the multiples of `10 ^ k`, `10 ^ (k - 1)`, … in turn. -/
def scan (r : RoundingInterval) : Nat → Int → Option Scientific
  | 0, _ => none
  | grids + 1, k =>
      match r.gridPoint? k with
      | some n => some ⟨n, k⟩
      | none => scan r grids (k - 1)

end RoundingInterval

/-- Drop the zeros at the end of a significand. -/
def Scientific.strip : Nat → Scientific → Scientific
  | 0, d => d
  | steps + 1, d =>
      if d.significand ≠ 0 ∧ d.significand % 10 = 0 then
        strip steps ⟨d.significand / 10, d.exponent + 1⟩
      else
        d

/-- The number of decimal digits of a natural number. -/
def digitCount (n : Nat) : Nat :=
  (Nat.toDigits 10 n).length

/-- The decimal with the fewest digits that rounds to `m · 2 ^ q`. -/
def shortest (f : BinaryFormat) (m : Nat) (q : Int) : Scientific :=
  let r := RoundingInterval.ofBinary f m q
  -- A grid coarser than the value by a factor of ten holds no neighbour but zero.
  let top : Int := (digitCount (r.value / r.scale) : Int) + 1
  let start : Int := if r.scale ≤ r.value then top else top - digitCount (r.scale / r.value)
  match r.scan (digitCount r.scale + digitCount r.value + 20) start with
  | some d => d.strip (digitCount d.significand)
  | none => ⟨m, 0⟩

end Decimal
end DalvikDecompiler

/-!
## Spelling of floating-point numbers

A number is spelled with the digits of its shortest decimal.  From 10^-4 up to
10^16 it is written positionally with at least one decimal place; outside,
with one digit before the point and an exponent behind an e.  Zero keeps its
sign.
-/

namespace DalvikDecompiler
namespace Decimal

/-- The least and the first too large position of the leading digit that are written positionally,
counted from the point. -/
structure PositionalRange where
  first : Int
  last : Int

/-- Positional notation covers 10^-4 up to, but not including, 10^16. -/
def PositionalRange.standard : PositionalRange :=
  ⟨-3, 16⟩

/-- A significand with its decimal point `places` digits from the left. -/
def positional (digits : List Char) (places : Int) : List Char :=
  if places ≤ 0 then
    '0' :: '.' :: List.replicate (-places).toNat '0' ++ digits
  else if (digits.length : Int) ≤ places then
    digits ++ List.replicate (places.toNat - digits.length) '0' ++ ['.', '0']
  else
    digits.take places.toNat ++ '.' :: digits.drop places.toNat

/-- A significand with one digit before the point and an exponent. -/
def exponential (digits : List Char) (places : Int) : List Char :=
  let mantissa :=
    match digits with
    | [] => []
    | [d] => [d]
    | d :: rest => d :: '.' :: rest
  mantissa ++ 'e' :: (toString (places - 1)).toList

/-- The spelling of a positive decimal. -/
def Scientific.spell (d : Scientific) (range : PositionalRange) : List Char :=
  let digits := Nat.toDigits 10 d.significand
  let places : Int := digits.length + d.exponent
  if range.first ≤ places ∧ places ≤ range.last then
    positional digits places
  else
    exponential digits places

/-- The spelling of a binary value. -/
def BinaryFormat.spell (f : BinaryFormat) : BinaryValue → String
  | .nan => "NaN"
  | .infinite negative => if negative then "-inf" else "inf"
  | .finite negative m q =>
      let magnitude :=
        if m = 0 then ['0', '.', '0'] else (shortest f m q).spell .standard
      String.ofList (if negative then '-' :: magnitude else magnitude)

/-- The spelling of the number with a bit pattern. -/
def BinaryFormat.spellBits (f : BinaryFormat) (bits : Nat) : String :=
  f.spell (f.decode bits)

end Decimal
end DalvikDecompiler
