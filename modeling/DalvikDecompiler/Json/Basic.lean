/-!
# JSON values

**Input.** Values of the JSON data model.  An object is the list of its
members in the order they are written; a number is an integer or a finite
floating-point number of 64 bits, given by its bit pattern.

**Records.** A record is an object with a member per field, or the array of
its fields in their order.  Readers take a value to an optional result: a value
of another form has none.
-/

namespace DalvikDecompiler

/-- A JSON value. -/
inductive Json where
  | null
  | bool (value : Bool)
  | int (value : Int)
  /-- The floating-point number of 64 bits with a bit pattern. -/
  | float (bits : UInt64)
  | string (value : String)
  | array (items : List Json)
  | object (members : List (String × Json))

namespace Json

/-- An integer. -/
def ofInt (n : Int) : Json :=
  .int n

/-- A natural number. -/
def ofNat (n : Nat) : Json :=
  ofInt n

/-- An optional value, absence being null. -/
def ofOption {α : Type} (write : α → Json) : Option α → Json
  | none => .null
  | some x => write x

/-- A list of values. -/
def ofList {α : Type} (write : α → Json) (xs : List α) : Json :=
  .array (xs.map write)

/-- The value of a truth value. -/
def asBool? : Json → Option Bool
  | .bool b => some b
  | _ => none

/-- The value of an integer. -/
def asInt? : Json → Option Int
  | .int n => some n
  | _ => none

/-- The value of a text. -/
def asString? : Json → Option String
  | .string s => some s
  | _ => none

/-- The items of an array. -/
def asArray? : Json → Option (List Json)
  | .array items => some items
  | _ => none

/-- An integer from `low` up to, but not including, `high`. -/
def asRange? (low high : Int) (j : Json) : Option Int :=
  j.asInt?.filter fun n => low ≤ n && n < high

/-- A number of eight bits without sign. -/
def asUInt8? (j : Json) : Option UInt8 :=
  (j.asRange? 0 256).map fun n => UInt8.ofNat n.toNat

/-- A number of sixteen bits without sign. -/
def asUInt16? (j : Json) : Option UInt16 :=
  (j.asRange? 0 65536).map fun n => UInt16.ofNat n.toNat

/-- A number of 32 bits without sign. -/
def asUInt32? (j : Json) : Option UInt32 :=
  (j.asRange? 0 4294967296).map fun n => UInt32.ofNat n.toNat

/-- A number of 64 bits without sign. -/
def asUInt64? (j : Json) : Option UInt64 :=
  (j.asRange? 0 18446744073709551616).map fun n => UInt64.ofNat n.toNat

/-- A number of eight bits with sign. -/
def asInt8? (j : Json) : Option Int8 :=
  (j.asRange? (-128) 128).map Int8.ofInt

/-- A number of sixteen bits with sign. -/
def asInt16? (j : Json) : Option Int16 :=
  (j.asRange? (-32768) 32768).map Int16.ofInt

/-- A number of 32 bits with sign. -/
def asInt32? (j : Json) : Option Int32 :=
  (j.asRange? (-2147483648) 2147483648).map Int32.ofInt

/-- A number of 64 bits with sign. -/
def asInt64? (j : Json) : Option Int64 :=
  (j.asRange? (-9223372036854775808) 9223372036854775808).map Int64.ofInt

/-- A list, all of whose items can be read. -/
def asList? {α : Type} (read : Json → Option α) (j : Json) : Option (List α) :=
  j.asArray?.bind fun items => items.mapM read

/-- An optional value, null being absence. -/
def asOption? {α : Type} (read : Json → Option α) : Json → Option (Option α)
  | .null => some none
  | j => (read j).map some

/-- The member of an object with a given name. -/
def member? (name : String) : Json → Option Json
  | .object members => members.lookup name
  | _ => none

/-- A member that has to be there. -/
def field? {α : Type} (name : String) (read : Json → Option α) (j : Json) : Option α :=
  (j.member? name).bind read

/-- A member that may be left out or null. -/
def optionalField? {α : Type} (name : String) (read : Json → Option α) (j : Json) :
    Option (Option α) :=
  match j.member? name with
  | none => some none
  | some value => value.asOption? read

/-- An object with one member: the name of an alternative and its content. -/
def tagged (name : String) (content : Json) : Json :=
  .object [(name, content)]

/-- The name and content of an alternative. -/
def asTagged? : Json → Option (String × Json)
  | .object [(name, content)] => some (name, content)
  | _ => none

/-- The name of an alternative without content. -/
def asUnit? : Json → Option String
  | .string name => some name
  | .object [(name, .null)] => some name
  | _ => none

/-- The object whose members are given by their position, `least` of them at least. -/
def ofPositions? (names : List String) (least : Nat) (items : List Json) : Option Json :=
  if least ≤ items.length ∧ items.length ≤ names.length then
    some (.object (names.zip items))
  else
    none

/-- The object of a record with given fields: an object is its own, and an array has to have an item
for each field. -/
def record? (names : List String) : Json → Option Json
  | .object members => some (.object members)
  | .array items => ofPositions? names names.length items
  | _ => none

end Json

end DalvikDecompiler
