/-!
# Sets and maps that remember an order

Finite sets are lists without repetition, in the order of first occurrence;
finite maps are lists of pairs with one pair per key, in the order in which
keys came.  Order is data here: whatever is listed from such a set or map is
listed in that order.
-/

namespace DalvikDecompiler
namespace OrderedSet

variable {α : Type} [BEq α]

/-- Put an element at the end, unless it is there already. -/
def insert (xs : List α) (x : α) : List α :=
  if xs.contains x then xs else xs ++ [x]

/-- Put several elements at the end, one after another. -/
def insertAll (xs ys : List α) : List α :=
  ys.foldl insert xs

/-- The elements of a list in the order of their first occurrence. -/
def ofList (xs : List α) : List α :=
  insertAll [] xs

/-- Drop an element. -/
def erase (xs : List α) (x : α) : List α :=
  xs.filter fun y => !(y == x)

end OrderedSet

namespace OrderedMap

variable {κ β : Type} [BEq κ]

/-- Give a key a value; a key that has one keeps its place. -/
def insert (key : κ) (value : β) : List (κ × β) → List (κ × β)
  | [] => [(key, value)]
  | entry :: rest =>
      if entry.1 == key then (key, value) :: rest else entry :: insert key value rest

/-- Drop a key. -/
def erase (key : κ) (entries : List (κ × β)) : List (κ × β) :=
  entries.filter fun entry => !(entry.1 == key)

end OrderedMap
end DalvikDecompiler
