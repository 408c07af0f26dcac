/-!
# Totals and powers

Sums of lists of natural numbers, by recursion on the list, and the powers
that binary and decimal numerals are made of.
-/

namespace DalvikDecompiler
namespace Natural

/-- The sum of a list. -/
def total : List Nat → Nat
  | [] => 0
  | n :: rest => n + total rest

/-- A power of two. -/
def twoTo (exponent : Nat) : Nat :=
  Nat.pow 2 exponent

/-- A power of ten. -/
def tenTo (exponent : Nat) : Nat :=
  Nat.pow 10 exponent

end Natural
end DalvikDecompiler
