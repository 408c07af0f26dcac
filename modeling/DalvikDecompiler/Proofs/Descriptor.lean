import DalvikDecompiler.Descriptor
import DalvikDecompiler.Proofs.Text

/-!
# Prototypes are read as they were written

**Input.** The text of a prototype: the types of the parameters between parentheses, with blanks
around them, and the type of the result.

A type says itself where it ends, so that no mark is needed between one type and the next.  Any
other text is split all the same: each piece takes at least one character, and nothing but blanks is
left out between the pieces.

**Results.**
* `takeType_append`: a type is taken as a whole, whatever follows it.
* `splitTypes_spaced`: the pieces of any text are all of it but blanks.
* `params_prototype`: the parameters and the result of a prototype are those that it was written
  with, and the parameters of any text are all that stands between its parentheses but blanks.
-/

namespace DalvikDecompiler
namespace Descriptor

open Text (isBlank)

/-- A character that may stand in the name of a class. -/
def IsNameChar (c : Char) : Prop :=
  c ≠ ';' ∧ c ≠ '(' ∧ c ≠ ')' ∧ isBlank c = false

/-- The text of a type: a letter, or the name of a class between its marks, behind any number of
array dimensions. -/
inductive IsType : List Char → Prop where
  | primitive {c : Char} :
      (keyword? (String.ofList [c])).isSome = true →
      IsType [c]
  | named {name : List Char} :
      name ≠ [] →
      (∀ c, c ∈ name → IsNameChar c) →
      IsType ('L' :: name ++ [';'])
  | array {element : List Char} :
      IsType element →
      IsType ('[' :: element)

/-- A text that consists of some pieces, one after another, and of blanks around them. -/
inductive Spaced : List (List Char) → List Char → Prop where
  | nil :
      Spaced [] []
  | blank {c : Char} {pieces : List (List Char)} {text : List Char} :
      isBlank c = true →
      Spaced pieces text →
      Spaced pieces (c :: text)
  | piece {pieces : List (List Char)} {text : List Char} (front : List Char) :
      Spaced pieces text →
      Spaced (front :: pieces) (front ++ text)

section Types

variable {type : List Char}

theorem mem_letters
    {c : Char}
    (h : (keyword? (String.ofList [c])).isSome = true) :
    c ∈ ['V', 'Z', 'B', 'S', 'C', 'I', 'J', 'F', 'D'] := by
  have hletter : ∀ d : Char, String.ofList [c] = String.ofList [d] → c = d := by
    intro d heq
    simpa using congrArg String.toList heq
  unfold keyword? at h
  split at h <;> first
    | cases h; done
    | (rename_i heq; simp [hletter _ heq])

/-- The characters of a type are neither parentheses nor blanks. -/
theorem IsType.chars
    (h : IsType type) :
    ∀ c, c ∈ type → c ≠ '(' ∧ c ≠ ')' ∧ isBlank c = false := by
  induction h with
  | @primitive c hletter =>
      intro d hd
      rw [List.mem_singleton] at hd
      subst hd
      have hmem := mem_letters hletter
      revert hmem
      simp only [List.mem_cons, List.not_mem_nil, or_false]
      rintro (rfl | rfl | rfl | rfl | rfl | rfl | rfl | rfl | rfl) <;> decide
  | @named name _ hname =>
      intro c hc
      simp only [List.cons_append, List.mem_cons, List.mem_append, List.not_mem_nil, or_false] at hc
      rcases hc with rfl | hc | rfl
      · decide
      · exact (hname c hc).2
      · decide
  | array _ ih =>
      intro c hc
      rcases List.mem_cons.mp hc with rfl | hc
      · decide
      · exact ih c hc

theorem IsType.ne_nil
    (h : IsType type) :
    type ≠ [] := by
  cases h <;> simp

end Types

section Splitting

/-- A mark of a dimension belongs to the type behind it. -/
theorem takeType_dimension
    (cs : List Char) :
    takeType ('[' :: cs) = ('[' :: (takeType cs).1, (takeType cs).2) := by
  unfold takeType
  simp only [List.takeWhile_cons_of_pos, List.dropWhile_cons_of_pos, beq_self_eq_true]
  split
  · rfl
  · split <;> rfl
  · rfl

/-- **A type is taken as a whole**, whatever follows it. -/
theorem takeType_append
    {type : List Char}
    (h : IsType type)
    (rest : List Char) :
    takeType (type ++ rest) = (type, rest) := by
  induction h with
  | @primitive c hletter =>
      have hmem := mem_letters hletter
      revert hmem
      simp only [List.mem_cons, List.not_mem_nil, or_false]
      rintro (rfl | rfl | rfl | rfl | rfl | rfl | rfl | rfl | rfl) <;> rfl
  | @named name hne hname =>
      have hstop : ∀ c, c ∈ name → (c != ';') = true := fun c hc => by simpa using (hname c hc).1
      simp [takeType, List.takeWhile_append_of_pos hstop, List.dropWhile_append_of_pos hstop]
  | array _ ih =>
      rw [List.cons_append, takeType_dimension, ih]

/-- The characters of a type and of what follows it are those that it was taken from. -/
theorem takeType_fst_append_snd
    (cs : List Char) :
    (takeType cs).1 ++ (takeType cs).2 = cs := by
  have hdims := List.takeWhile_append_dropWhile (p := (· == '[')) (l := cs)
  unfold takeType
  split
  · rename_i heq
    rw [heq] at hdims
    exact hdims
  · rename_i rest heq
    rw [heq] at hdims
    have hname := List.takeWhile_append_dropWhile (p := (· != ';')) (l := rest)
    split
    · rename_i hend
      rw [hend, List.append_nil] at hname
      simpa [hname] using hdims
    · rename_i c after hend
      rw [hend] at hname
      simpa [hname] using hdims
  · rename_i rest _ heq
    rw [heq] at hdims
    simpa using hdims

/-- **The pieces of any text** are all of it but blanks. -/
theorem splitTypes_spaced
    (cs : List Char) :
    Spaced (splitTypes cs) cs := by
  induction cs using splitTypes.induct with
  | case1 =>
      rw [splitTypes]
      exact .nil
  | case2 c cs hblank ih =>
      rw [splitTypes, if_pos hblank]
      exact .blank hblank ih
  | case3 c cs hblank ih =>
      rw [splitTypes, if_neg hblank]
      have hpiece := Spaced.piece (takeType (c :: cs)).1 ih
      rwa [takeType_fst_append_snd] at hpiece

/-- Types with blanks around them are the pieces of the text. -/
theorem Spaced.splitTypes_eq
    {types : List (List Char)}
    {text : List Char}
    (h : Spaced types text)
    (htypes : ∀ type, type ∈ types → IsType type) :
    splitTypes text = types := by
  induction h with
  | nil => rw [splitTypes]
  | blank hblank _ ih =>
      rw [splitTypes, if_pos hblank]
      exact ih htypes
  | @piece pieces text front _ ih =>
      obtain ⟨hfront, hpieces⟩ := List.forall_mem_cons.mp htypes
      obtain ⟨c, front', rfl⟩ := List.exists_cons_of_ne_nil hfront.ne_nil
      have hblank : ¬ isBlank c = true := by simp [(hfront.chars c (by simp)).2.2]
      rw [List.cons_append, splitTypes, if_neg hblank, ← List.cons_append, takeType_append hfront,
        ih hpieces]

end Splitting

section Prototypes

variable {before inside after : List Char}

/-- What stands between the first opening and the last closing parenthesis. -/
theorem parameterChars_eq
    (hbefore : '(' ∉ before)
    (hafter : ')' ∉ after) :
    parameterChars (before ++ '(' :: (inside ++ ')' :: after)) = inside := by
  have hopen : ∀ c, c ∈ before → (c != '(') = true := fun c hc => by
    simpa using ne_of_mem_of_not_mem hc hbefore
  have hclose : ∀ c, c ∈ after.reverse → (c != ')') = true := fun c hc => by
    simpa using ne_of_mem_of_not_mem (List.mem_reverse.mp hc) hafter
  unfold parameterChars
  rw [List.dropWhile_append_of_pos hopen, List.dropWhile_cons_of_neg (by simp)]
  dsimp only
  rw [if_pos (by simp), List.reverse_append, List.reverse_cons, List.append_assoc,
    List.dropWhile_append_of_pos hclose]
  simp

/-- What stands behind the last closing parenthesis. -/
theorem returnType_eq
    {prototype : String}
    {result : List Char}
    (hresult : IsType result)
    (htext : prototype.toList = before ++ ')' :: result) :
    returnType prototype = String.ofList result := by
  have hclose : ∀ c, c ∈ result.reverse → (!(c == ')')) = true := fun c hc => by
    simpa using (hresult.chars c (List.mem_reverse.mp hc)).2.1
  have hbehind : Text.afterLast (· == ')') prototype.toList = result := by
    rw [htext, Text.afterLast, List.reverse_append, List.reverse_cons, List.append_assoc,
      List.takeWhile_append_of_pos hclose]
    simp
  have htight : Text.Tight result :=
    ⟨fun c hc => (hresult.chars c (List.mem_of_mem_head? hc)).2.2,
      fun c hc => (hresult.chars c (List.mem_of_mem_getLast? hc)).2.2⟩
  unfold returnType
  dsimp only
  rw [hbehind, Text.trimChars_of_tight htight, htext, if_pos (by simp [hresult.ne_nil])]

/-- Pieces with blanks around them are the text without some of its blanks. -/
theorem Spaced.flatten
    {pieces : List (List Char)}
    {text : List Char}
    (h : Spaced pieces text) :
    pieces.flatten.Sublist text ∧
      pieces.flatten.filter (fun c => !isBlank c) = text.filter fun c => !isBlank c := by
  induction h with
  | nil => simp
  | blank hblank _ ih =>
      refine ⟨ih.1.cons _, ?_⟩
      rw [List.filter_cons_of_neg (by simp [hblank])]
      exact ih.2
  | piece front _ ih =>
      rw [List.flatten_cons, List.filter_append, List.filter_append, ih.2]
      exact ⟨ih.1.append_left front, rfl⟩

/-- **Prototypes are read as they were written.**  Types in parentheses, with any blanks around
them, are the parameters of the prototype, and the type behind the parentheses is its result.  For
any text that has an opening parenthesis in front of its last closing one, the parameters are pieces
of what stands between the two, one after another with nothing but blanks around them: joined, they
are all of it but some of its blanks. -/
theorem params_prototype :
    (∀ (prototype result : String) (types : List String) (inside : List Char),
      (∀ type, type ∈ types → IsType type.toList) →
      IsType result.toList →
      Spaced (types.map String.toList) inside →
      prototype.toList = '(' :: (inside ++ ')' :: result.toList) →
      params prototype = types ∧ returnType prototype = result) ∧
    ∀ (text : String) (before inside after : List Char),
      '(' ∉ before →
      ')' ∉ after →
      text.toList = before ++ '(' :: (inside ++ ')' :: after) →
      Spaced ((params text).map String.toList) inside ∧
        ((params text).flatMap String.toList).Sublist inside ∧
        ((params text).flatMap String.toList).filter (fun c => !isBlank c) =
          inside.filter fun c => !isBlank c := by
  constructor
  · intro prototype result types inside htypes hresult hspaced htext
    have hinside : parameterChars ([] ++ '(' :: (inside ++ ')' :: result.toList)) = inside :=
      parameterChars_eq (by simp) fun hmem => (hresult.chars _ hmem).2.1 rfl
    have hbehind : prototype.toList = ('(' :: inside) ++ ')' :: result.toList := by
      rw [htext, List.cons_append]
    rw [List.nil_append, ← htext] at hinside
    constructor
    · rw [params, hinside, hspaced.splitTypes_eq (by simpa using htypes), List.map_map]
      simp
    · rw [returnType_eq hresult hbehind]
      exact String.ofList_toList
  · intro text before inside after hbefore hafter htext
    have hinside : parameterChars text.toList = inside := by
      rw [htext]
      exact parameterChars_eq hbefore hafter
    have hspaced : Spaced ((params text).map String.toList) inside := by
      have hpieces := splitTypes_spaced inside
      rw [params, hinside, List.map_map]
      simpa using hpieces
    exact ⟨hspaced, List.flatMap_def ▸ hspaced.flatten⟩

/-- A letter and an array of objects, with a blank in between; and a name with a blank in it, in a
text that ends too early. -/
theorem params_prototype_array :
    params "(I [LFoo;)V" = ["I", "[LFoo;"] ∧ returnType "(I [LFoo;)V" = "V" ∧
      Spaced ((params "f(La b; Z)I)").map String.toList) "La b; Z)I".toList := by
  have hname : IsType "LFoo;".toList :=
    @IsType.named "Foo".toList (by decide) (by simp [IsNameChar, isBlank, Text.blankRanges])
  have hspaced : Spaced [['I'], "[LFoo;".toList] "I [LFoo;".toList :=
    .piece ['I'] (.blank (by decide) (.piece "[LFoo;".toList .nil))
  obtain ⟨hread, hsplit⟩ := params_prototype
  obtain ⟨hparams, hresult⟩ := hread "(I [LFoo;)V" "V" ["I", "[LFoo;"] "I [LFoo;".toList
    (by simpa using ⟨.primitive (by decide), .array hname⟩) (.primitive (by decide)) hspaced rfl
  exact ⟨hparams, hresult,
    (hsplit _ ['f'] "La b; Z)I".toList [] (by decide) (by decide) rfl).1⟩

end Prototypes

end Descriptor
end DalvikDecompiler
