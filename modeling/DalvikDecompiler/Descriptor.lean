import DalvikDecompiler.Text

/-!
# Type and method descriptors

**Input.** The texts by which class files name types: a letter for a primitive
type, `Lname;` for a class, and one `[` in front for each dimension of an
array.  A method descriptor lists the types of the parameters between
parentheses and ends with the type of the result.

**Algorithm.** All functions accept any text.  The parameters are read from
the first `(` to the last `)`, one type at a time; what follows the last `)`
is the result, and a descriptor without one returns nothing.
-/

namespace DalvikDecompiler
namespace Descriptor

/-- The text of one type at the front of a list of characters that is not empty: the marks of the
array dimensions, then one character, or all up to a semicolon if that character is an L. -/
def takeType (cs : List Char) : List Char × List Char :=
  let dims := cs.takeWhile (· == '[')
  match cs.dropWhile (· == '[') with
  | [] => (dims, [])
  | 'L' :: rest =>
      let name := rest.takeWhile (· != ';')
      match rest.dropWhile (· != ';') with
      | [] => (dims ++ 'L' :: name, [])
      | c :: after => (dims ++ 'L' :: name ++ [c], after)
  | c :: rest => (dims ++ [c], rest)

/-- What `takeType` leaves is shorter than what it was given. -/
theorem takeType_rest_length_lt
    (c : Char)
    (cs : List Char) :
    (takeType (c :: cs)).2.length < (c :: cs).length := by
  have hdrop : ∀ (p : Char → Bool) (l : List Char), (l.dropWhile p).length ≤ l.length :=
    fun p l => (List.dropWhile_sublist p).length_le
  unfold takeType
  have houter := hdrop (· == '[') (c :: cs)
  split
  · simp
  · rename_i rest heq
    rw [heq] at houter
    have hinner := hdrop (· != ';') rest
    split
    · simp
    · rename_i after hafter
      rw [hafter] at hinner
      simp only [List.length_cons] at *
      omega
  · rename_i rest _ heq
    rw [heq] at houter
    simp only [List.length_cons] at *
    omega

/-- The types that follow one another in a list of characters, blanks between them skipped. -/
def splitTypes : List Char → List (List Char)
  | [] => []
  | c :: cs =>
      if Text.isBlank c then
        splitTypes cs
      else
        (takeType (c :: cs)).1 :: splitTypes (takeType (c :: cs)).2
termination_by cs => cs.length
decreasing_by
  · simp
  · exact takeType_rest_length_lt c cs

/-- The characters between the first `(` and the last `)`, or all behind the first `(` when there
is no `)` at all. -/
def parameterChars (cs : List Char) : List Char :=
  match cs.dropWhile (· != '(') with
  | [] => []
  | _ :: rest =>
      if cs.contains ')' then
        ((rest.reverse.dropWhile (· != ')')).drop 1).reverse
      else
        rest

/-- The descriptors of the parameters. -/
def params (descriptor : String) : List String :=
  (splitTypes (parameterChars descriptor.toList)).map String.ofList

/-- The descriptor of the result; nothing behind the last `)`, or no `)` at all, means no result.
-/
def returnType (descriptor : String) : String :=
  let cs := descriptor.toList
  let after := Text.afterLast (· == ')') cs
  if cs.contains ')' && !after.isEmpty then
    String.ofList (Text.trimChars after)
  else
    "V"

/-- The keyword of a primitive type. -/
def keyword? (descriptor : String) : Option String :=
  match descriptor with
  | "V" => some "void"
  | "Z" => some "boolean"
  | "B" => some "byte"
  | "S" => some "short"
  | "C" => some "char"
  | "I" => some "int"
  | "J" => some "long"
  | "F" => some "float"
  | "D" => some "double"
  | _ => none

/-- The characters between a leading L and a final semicolon. -/
def className? (cs : List Char) : Option (List Char) :=
  match cs with
  | 'L' :: rest => if rest.getLast? = some ';' then some rest.dropLast else none
  | _ => none

/-- The Java name of a type that is not an array: the keyword of a primitive type, the name of a
class with dots, or the text itself. -/
def plainName (cs : List Char) : List Char :=
  match keyword? (String.ofList cs) with
  | some keyword => keyword.toList
  | none =>
      match className? cs with
      | some name => name.map fun c => if c = '/' then '.' else c
      | none => cs

/-- The Java name of a type.  Blanks around each element type are skipped. -/
def javaChars (cs : List Char) : List Char :=
  match _hshape : Text.trimChars cs with
  | '[' :: element => javaChars element ++ ['[', ']']
  | trimmed => plainName trimmed
termination_by cs.length
decreasing_by
  have hdrop : ∀ l : List Char, (l.dropWhile Text.isBlank).length ≤ l.length :=
    fun l => (List.dropWhile_sublist Text.isBlank).length_le
  have hle : (Text.trimChars cs).length ≤ cs.length := by
    unfold Text.trimChars Text.trimBack Text.trimFront
    have h₁ := hdrop (cs.dropWhile Text.isBlank).reverse
    have h₂ := hdrop cs
    simp only [List.length_reverse] at *
    omega
  rw [_hshape] at hle
  simp only [List.length_cons] at hle
  omega

/-- The Java name of a type. -/
def javaName (descriptor : String) : String :=
  String.ofList (javaChars descriptor.toList)

/-- The number of registers that hold a value of a type. -/
def registerCount (descriptor : String) : Nat :=
  match Text.trim descriptor with
  | "J" => 2
  | "D" => 2
  | _ => 1

/-- Whether the values of a type are references. -/
def isReference (descriptor : String) : Bool :=
  match Text.trimChars descriptor.toList with
  | 'L' :: _ => true
  | '[' :: _ => true
  | _ => false

/-- The package and the simple name of a class. -/
def packageAndName (descriptor : String) : String × String :=
  let name := javaChars descriptor.toList
  if name.contains '.' then
    let simple := Text.afterLast (· == '.') name
    (String.ofList (name.take (name.length - simple.length - 1)), String.ofList simple)
  else
    ("", String.ofList name)

/-- The type of the elements of an array type. -/
def element? (descriptor : String) : Option String :=
  match descriptor.toList with
  | '[' :: rest => some (String.ofList rest)
  | _ => none

/-- The type of the elements, or the type itself when it is no array type. -/
def elementOrSelf (descriptor : String) : String :=
  (element? descriptor).getD descriptor

/-- The type behind all array dimensions, and their number. -/
def splitDims (descriptor : String) : String × Nat :=
  let cs := descriptor.toList
  (String.ofList (cs.dropWhile (· == '[')), (cs.takeWhile (· == '[')).length)

/-- The class name without the marks around it. -/
def internalName (descriptor : String) : String :=
  match className? descriptor.toList with
  | some name => String.ofList name
  | none => descriptor

end Descriptor
end DalvikDecompiler
