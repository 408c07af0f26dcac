import DalvikDecompiler.Decimal
import DalvikDecompiler.Java.Ast
import DalvikDecompiler.Proofs.Text
import DalvikDecompiler.Symbolic.Expr
import Mathlib

/-!
# Integers in Java code

**Input.** An expression that changes a variable of an integer type: an assignment with an operator,
an increment or a decrement.

Integers are computed in two widths.  Narrower operands become ints, and an int beside a long
becomes a long, but the width of a shift is that of its left operand.  What comes out is converted
to the type of the variable, also where this loses bits.

What the other operands mean is left open: they may read and change a world and end with an
exception.  Integer literals mean the number that they spell.

**Results.**
* `readInteger?_int`, `readInteger?_long`: every integer that fits is read as it was written, the
  least ones included.
* `convert_of_type`: an int or a long keeps what was computed in its own width.
-/

namespace DalvikDecompiler

open Symbolic (BinaryOp)

section Arithmetic

/-- A number of one of the two widths in which integers are computed. -/
inductive Number where
  | int (bits : BitVec 32)
  | long (bits : BitVec 64)
  deriving DecidableEq, Repr

namespace Number

/-- The type of a number, as a descriptor. -/
def type : Number → String
  | .int _ => "I"
  | .long _ => "J"

/-- The number as an int, which has its low bits. -/
def asInt : Number → BitVec 32
  | .int bits => bits
  | .long bits => bits.setWidth 32

/-- The number as a long. -/
def asLong : Number → BitVec 64
  | .int bits => bits.signExtend 64
  | .long bits => bits

end Number

/-- What an operator gives for words of some width.  Sums, differences and products wrap around, and
quotients are rounded toward zero; of a distance only as many bits count as the width has places.
Division by zero gives nothing. -/
def Symbolic.BinaryOp.apply {w : Nat} (op : BinaryOp) (a b : BitVec w) : Option (BitVec w) :=
  match op with
  | .add => some (a + b)
  | .sub => some (a - b)
  | .mul => some (a * b)
  | .div => if b = 0 then none else some (a.sdiv b)
  | .rem => if b = 0 then none else some (a.srem b)
  | .and => some (a &&& b)
  | .or => some (a ||| b)
  | .xor => some (a ^^^ b)
  | .shl => some (a <<< (b.toNat % w))
  | .shr => some (a.sshiftRight (b.toNat % w))
  | .ushr => some (a >>> (b.toNat % w))

end Arithmetic

namespace Java

section Types

/-- An integer type of variables. -/
inductive IntegerType where
  | byte | short | char | int | long
  deriving DecidableEq, Repr

namespace IntegerType

/-- The integer type with a name. -/
def ofName? (t : TypeName) : Option IntegerType :=
  if t = ⟨"byte", 0⟩ then some .byte
  else if t = ⟨"short", 0⟩ then some .short
  else if t = ⟨"char", 0⟩ then some .char
  else if t = ⟨"int", 0⟩ then some .int
  else if t = ⟨"long", 0⟩ then some .long
  else none

/-- What a variable of a type holds when a number is forced into it. -/
def convert (t : IntegerType) (n : Number) : Number :=
  match t with
  | .byte => .int ((n.asInt.setWidth 8).signExtend 32)
  | .short => .int ((n.asInt.setWidth 16).signExtend 32)
  | .char => .int ((n.asInt.setWidth 16).setWidth 32)
  | .int => .int n.asInt
  | .long => .long n.asLong

/-- A variable of the type in which a number was computed holds this number. -/
theorem convert_of_type
    {t : IntegerType}
    {type : String}
    {n : Number}
    (hnamed : ofName? (.ofDescriptor type) = some t)
    (hsame : n.type = type) :
    t.convert n = n := by
  subst hsame
  cases n with
  | int bits =>
      have hint : ofName? (.ofDescriptor "I") = some .int := by cbv
      obtain rfl := Option.some.inj (hint.symm.trans hnamed)
      rfl
  | long bits =>
      have hlong : ofName? (.ofDescriptor "J") = some .long := by cbv
      obtain rfl := Option.some.inj (hlong.symm.trans hnamed)
      rfl

end IntegerType

end Types

section Literals

/-- The value of decimal digits.  A needless zero in front would make them octal. -/
def decimal? (digits : List Char) : Option Nat :=
  if digits ≠ [] ∧ digits.all Char.isDigit ∧ (digits.head? = some '0' → digits = ['0']) then
    some (Decimal.digitsValue 0 digits)
  else
    none

/-- The value of decimal digits with or without a sign. -/
def signed? : List Char → Option Int
  | '-' :: digits => (decimal? digits).map fun n : Nat => -(n : Int)
  | digits => (decimal? digits).map fun n : Nat => (n : Int)

/-- The number that an integer literal spells, together with its sign.  Longs have a suffix, and no
literal is too large for its type. -/
def readInteger? (text : String) : Option Number :=
  let cs := text.toList
  if cs.getLast? = some 'L' then
    (signed? cs.dropLast).bind fun v =>
      if -2 ^ 63 ≤ v ∧ v < 2 ^ 63 then some (.long (.ofInt 64 v)) else none
  else
    (signed? cs).bind fun v =>
      if -2 ^ 31 ≤ v ∧ v < 2 ^ 31 then some (.int (.ofInt 32 v)) else none

theorem decimal?_toDigits
    (n : Nat) :
    decimal? (Nat.toDigits 10 n) = some n := by
  have hdigits : (Nat.toDigits 10 n).all Char.isDigit = true :=
    List.all_eq_true.2 fun _ => Text.isDigit_of_mem_toDigits
  have hminimal : (Nat.toDigits 10 n).head? = some '0' → Nat.toDigits 10 n = ['0'] := by
    intro hfirst
    rcases Nat.eq_zero_or_pos n with rfl | hpos
    · rfl
    · exact absurd hfirst (Text.head?_toDigits_ne_zero hpos)
  rw [decimal?, if_pos ⟨Nat.toDigits_ne_nil, hdigits, hminimal⟩, Decimal.digitsValue,
    Nat.ofDigitChars_ten_toDigits]

/-- An integer is written as the digits of its absolute value, behind a sign if it is negative. -/
theorem toList_toString
    (v : Int) :
    (toString v).toList = (if v < 0 then ['-'] else []) ++ Nat.toDigits 10 v.natAbs := by
  rw [Int.toString_eq_repr, Int.repr_eq_if]
  split
  · next hnonneg =>
      have hsame : v.toNat = v.natAbs := by omega
      simp [Int.not_lt.2 hnonneg, hsame]
  · next hnegative =>
      have hsame : (-v).toNat = v.natAbs := by omega
      simp [Int.not_le.1 hnegative, hsame]

theorem signed?_toString
    (v : Int) :
    signed? (toString v).toList = some v := by
  rw [toList_toString]
  split
  · next hnegative =>
      have hsame : -(v.natAbs : Int) = v := by omega
      rw [List.singleton_append, signed?, decimal?_toDigits, Option.map_some, hsame]
  · next hnonneg =>
      have hsame : (v.natAbs : Int) = v := by omega
      have hunsigned : ∀ rest, Nat.toDigits 10 v.natAbs ≠ '-' :: rest := fun rest h => by
        simpa [h] using @Text.isDigit_of_mem_toDigits v.natAbs '-'
      unfold signed?
      split
      · next h => exact absurd h (hunsigned _)
      · rw [List.nil_append, decimal?_toDigits, Option.map_some, hsame]

theorem getLast?_toString
    (v : Int) :
    (toString v).toList.getLast? ≠ some 'L' := by
  intro hlast
  rw [toList_toString, List.getLast?_append_of_ne_nil _ Nat.toDigits_ne_nil] at hlast
  have hdigit := Text.isDigit_of_mem_toDigits (List.mem_of_getLast? hlast)
  exact absurd hdigit (by decide)

theorem readInteger?_int
    {v : Int}
    (hlow : -2 ^ 31 ≤ v)
    (high : v < 2 ^ 31) :
    readInteger? (toString v) = some (.int (.ofInt 32 v)) := by
  rw [readInteger?, if_neg (getLast?_toString v), signed?_toString, Option.bind_some,
    if_pos ⟨hlow, high⟩]

theorem readInteger?_long
    {v : Int}
    (hlow : -2 ^ 63 ≤ v)
    (high : v < 2 ^ 63) :
    readInteger? (toString v ++ "L") = some (.long (.ofInt 64 v)) := by
  have hspelling : (toString v ++ "L").toList = (toString v).toList ++ ['L'] := by simp
  rw [readInteger?, hspelling, if_pos List.getLast?_concat, List.dropLast_concat, signed?_toString,
    Option.bind_some,
    if_pos ⟨hlow, high⟩]

end Literals

section Changes

/-- What an operation of Java gives. -/
def operate (op : BinaryOp) (a b : Number) : Option Number :=
  match a with
  | .long a => (op.apply a b.asLong).map .long
  | .int a =>
      if op.isShift || b.type == "I" then
        (op.apply a b.asInt).map .int
      else
        (op.apply (a.signExtend 64) b.asLong).map .long

/-- The binary operator with a symbol. -/
def operator? (symbol : String) : Option BinaryOp :=
  [.add, .sub, .mul, .div, .rem, .and, .or, .xor, .shl, .shr, .ushr].find? (·.symbol == symbol)

/-- The operator that an increment or a decrement applies. -/
def stepOperator? (symbol : String) : Option BinaryOp :=
  if symbol = "++" then some .add
  else if symbol = "--" then some .sub
  else none

theorem operator?_symbol
    (op : BinaryOp) :
    operator? op.symbol = some op := by
  cases op <;> rfl

/-- The values of the variables by name. -/
abbrev Locals := String → Number

/-- Computations that may change a world and may end with an exception. -/
abbrev Computation (World : Type) := OptionT (StateM World)

section Computations

variable {World A B : Type}

/-- A computation may give a value. -/
def Returns (x : Computation World A) (a : A) : Prop :=
  ∃ w, (x.run w).1 = some a

theorem run_bind
    (x : Computation World A)
    (f : A → Computation World B)
    (w : World) :
    (x >>= f).run w = (x.run w).1.elim (none, (x.run w).2) fun a => (f a).run (x.run w).2 := by
  rw [OptionT.run_bind, Option.elimM]
  change Option.elim (x.run w).1 (pure none) (fun a => (f a).run) (x.run w).2 = _
  cases (x.run w).1 <;> rfl

/-- What comes next matters only for the values that a computation may give. -/
theorem bind_congr_of_returns
    {x : Computation World A}
    {f g : A → Computation World B}
    (hsame : ∀ a, Returns x a → f a = g a) :
    x >>= f = x >>= g := by
  refine OptionT.ext (funext fun w => ?_)
  rw [run_bind, run_bind]
  cases hfound : (x.run w).1 with
  | none => rfl
  | some a => rw [Option.elim_some, Option.elim_some, hsame a ⟨w, hfound⟩]

theorem Returns.of_bind
    {x : Computation World A}
    {f : A → Computation World B}
    {b : B}
    (hreturns : Returns (x >>= f) b) :
    ∃ a, Returns x a ∧ Returns (f a) b := by
  obtain ⟨w, hfound⟩ := hreturns
  rw [run_bind] at hfound
  cases hfirst : (x.run w).1 with
  | none => simp [hfirst] at hfound
  | some a =>
      rw [hfirst, Option.elim_some] at hfound
      exact ⟨a, ⟨w, hfirst⟩, _, hfound⟩

theorem Returns.of_getM
    {a? : Option A}
    {a : A}
    (hreturns : Returns (a?.getM : Computation World A) a) :
    a? = some a := by
  obtain ⟨w, hfound⟩ := hreturns
  cases a? with
  | none => cases hfound
  | some b => exact hfound

end Computations

/-- What expressions mean. -/
abbrev Meaning (World : Type) := Expression → Locals → Computation World Number

variable {World : Type}

/-- Integer literals mean the number that they spell. -/
def Meaning.ReadsIntegers (meaning : Meaning World) : Prop :=
  ∀ text type n locals, readInteger? text = some n → meaning (.literal text type) locals = pure n

/-- The operation that changes a variable, and its right operand. -/
def Meaning.operation? (meaning : Meaning World) (locals : Locals) :
    Expression → Option (String × BinaryOp × Computation World Number)
  | .assignment (.localVar name) value (some symbol) =>
      (operator? symbol).map fun op => (name, op, meaning value locals)
  | .unary symbol (.localVar name) true =>
      (stepOperator? symbol).map fun op => (name, op, pure (.int 1))
  | _ => none

/-- Perform a statement that changes a variable of an integer type.  Its old value is known before
the other operand is evaluated. -/
def Meaning.performed? (meaning : Meaning World) (scope : String → TypeName) (locals : Locals) :
    Statement → Option (Computation World Locals)
  | .expression e => do
      let (name, op, operand) ← meaning.operation? locals e
      let t ← IntegerType.ofName? (scope name)
      return do
        let b ← operand
        let n ← (operate op (locals name) b).getM
        return Function.update locals name (t.convert n)
  | _ => none

end Changes

end Java
end DalvikDecompiler
