import DalvikDecompiler.Text
import Mathlib

/-!
# Numerals and parts of texts are read as they were written

Hexadecimal digits are read as the number that they were written for, decimal digits are those of
one number only, and the parts that a text is joined from, with a bar and blanks between them, are
its parts again.

Main statements: `readHex?_hexDigits`, `eq_of_toDigits_eq` and `map_trimChars_splitAt_joinWith`.
-/

namespace DalvikDecompiler
namespace Text

section Hexadecimal

theorem hexValue?_digitChar
    {d : Nat}
    (hsmall : d < 16) :
    hexValue? (Nat.digitChar d) = some d := by
  interval_cases d <;> rfl

theorem readHexFrom_append
    (value : Nat)
    (front back : List Char) :
    readHexFrom value (front ++ back) =
      (readHexFrom value front).bind fun between => readHexFrom between back := by
  induction front generalizing value with
  | nil => rfl
  | cons c front ih =>
      rw [List.cons_append, readHexFrom, readHexFrom]
      cases hexValue? c with
      | none => rfl
      | some digit => exact ih _

theorem readHexFrom_hexDigits
    (n : Nat) :
    readHexFrom 0 (hexDigits n) = some n := by
  unfold hexDigits
  induction n using Nat.strong_induction_on with
  | _ n ih =>
      rcases Nat.lt_or_ge n 16 with hsmall | hlarge
      · rw [Nat.toDigits_of_lt_base hsmall, readHexFrom, hexValue?_digitChar hsmall]
        simp [readHexFrom]
      · have hdigit : n % 16 < 16 := Nat.mod_lt _ (by decide)
        rw [Nat.toDigits_of_base_le (by decide) hlarge, readHexFrom_append, ih _ (by omega),
          Option.bind_some, readHexFrom, hexValue?_digitChar hdigit]
        simp only [readHexFrom, Option.some.injEq]
        omega

theorem exists_digitChar_of_mem_hexDigits
    {n : Nat}
    {c : Char}
    (h : c ∈ hexDigits n) :
    ∃ d < 16, c = Nat.digitChar d := by
  unfold hexDigits at h
  induction n using Nat.strong_induction_on with
  | _ n ih =>
      rcases Nat.lt_or_ge n 16 with hsmall | hlarge
      · rw [Nat.toDigits_of_lt_base hsmall, List.mem_singleton] at h
        exact ⟨n, hsmall, h⟩
      · rw [Nat.toDigits_of_base_le (by decide) hlarge, List.mem_append, List.mem_singleton] at h
        rcases h with hfront | rfl
        · exact ih _ (by omega) hfront
        · exact ⟨_, Nat.mod_lt _ (by decide), rfl⟩

theorem plus_not_mem_hexDigits
    (n : Nat) :
    '+' ∉ hexDigits n := fun hmem => by
  obtain ⟨d, hsmall, hsame⟩ := exists_digitChar_of_mem_hexDigits hmem
  interval_cases d <;> exact absurd hsame (by decide)

theorem readHex?_hexDigits
    (n : Nat) :
    readHex? (hexDigits n) = some n := by
  have hread := readHexFrom_hexDigits n
  have hunsigned := plus_not_mem_hexDigits n
  unfold readHex?
  split
  · next h => exact absurd h Nat.toDigits_ne_nil
  · next h => exact absurd (by simp [h]) hunsigned
  · next h => exact absurd (by simp [h]) hunsigned
  · next h => rwa [h] at hread

/-- A number of two digits is filled up with two zeros. -/
theorem hexPadded_of_lt
    {n : Nat}
    (hsmall : n < 256) :
    hexPadded n = ['0', '0', Nat.digitChar (n / 16), Nat.digitChar (n % 16)] := by
  unfold hexPadded hexDigits
  rcases Nat.lt_or_ge n 16 with hone | htwo
  · rw [Nat.toDigits_of_lt_base hone, Nat.div_eq_of_lt hone, Nat.mod_eq_of_lt hone]
    rfl
  · rw [Nat.toDigits_of_base_le (by decide) htwo, Nat.toDigits_of_lt_base (by omega)]
    rfl

end Hexadecimal

section Numerals

theorem isDigit_of_mem_toDigits
    {n : Nat}
    {c : Char}
    (hc : c ∈ Nat.toDigits 10 n) :
    c.isDigit = true :=
  Nat.isDigit_of_mem_toDigits (by decide) (by decide) hc

theorem eq_of_toDigits_eq
    {n n' : Nat}
    (h : Nat.toDigits 10 n = Nat.toDigits 10 n') :
    n = n' := by
  rw [← @Nat.ofDigitChars_ten_toDigits n, h, Nat.ofDigitChars_ten_toDigits]

/-- The first digit of a positive number is not zero. -/
theorem head?_toDigits_ne_zero
    {n : Nat}
    (hpos : 0 < n) :
    (Nat.toDigits 10 n).head? ≠ some '0' := by
  induction n using Nat.strong_induction_on with
  | _ n ih =>
      rcases Nat.lt_or_ge n 10 with hsmall | hlarge
      · rw [Nat.toDigits_of_lt_base hsmall]
        simpa using hpos.ne'
      · rw [Nat.toDigits_of_base_le (by decide) hlarge]
        have hshorter := ih (n / 10) (by omega) (by omega)
        rw [List.head?_append]
        cases hfirst : (Nat.toDigits 10 (n / 10)).head? with
        | none => exact absurd (List.head?_eq_none_iff.1 hfirst) Nat.toDigits_ne_nil
        | some c => simpa [hfirst] using hshorter

end Numerals

section Parts

/-- Where texts stop to be of one class can be read off them. -/
theorem eq_of_append_eq
    {p : Char → Bool}
    {xs xs' ys ys' : List Char}
    (hxs : ∀ c, c ∈ xs → p c = true)
    (hxs' : ∀ c, c ∈ xs' → p c = true)
    (hys : ∀ c, c ∈ ys.head? → p c = false)
    (hys' : ∀ c, c ∈ ys'.head? → p c = false)
    (h : xs ++ ys = xs' ++ ys') :
    xs = xs' ∧ ys = ys' := by
  have hstop : ∀ zs : List Char, (∀ c, c ∈ zs.head? → p c = false) →
      zs.takeWhile p = [] ∧ zs.dropWhile p = zs := by
    intro zs hzs
    cases zs with
    | nil => exact ⟨rfl, rfl⟩
    | cons c zs => simp [hzs c rfl]
  have htake := congrArg (List.takeWhile p) h
  have hdrop := congrArg (List.dropWhile p) h
  rw [List.takeWhile_append_of_pos hxs, List.takeWhile_append_of_pos hxs', (hstop ys hys).1,
    (hstop ys' hys').1, List.append_nil, List.append_nil] at htake
  rw [List.dropWhile_append_of_pos hxs, List.dropWhile_append_of_pos hxs', (hstop ys hys).2,
    (hstop ys' hys').2] at hdrop
  exact ⟨htake, hdrop⟩

/-- No blank stands at either end. -/
def Tight (cs : List Char) : Prop :=
  (∀ c ∈ cs.head?, isBlank c = false) ∧ ∀ c ∈ cs.getLast?, isBlank c = false

theorem trimFront_of_head
    {cs : List Char}
    (h : ∀ c ∈ cs.head?, isBlank c = false) :
    trimFront cs = cs := by
  cases cs with
  | nil => rfl
  | cons c cs => exact List.dropWhile_cons_of_neg (by simpa using h c rfl)

/-- Trimming drops the blanks around a text, and no more. -/
theorem trimChars_padded
    {cs : List Char}
    (h : Tight cs)
    (front back : List Char)
    (hfront_blank : ∀ c ∈ front, isBlank c = true)
    (hback_blank : ∀ c ∈ back, isBlank c = true) :
    trimChars (front ++ cs ++ back) = cs := by
  rcases eq_or_ne cs [] with rfl | hnonempty
  · have hblank : ∀ c ∈ front ++ [] ++ back, isBlank c = true := by
      simpa [or_imp, forall_and] using ⟨hfront_blank, hback_blank⟩
    rw [trimChars, trimFront, List.dropWhile_eq_nil_iff.2 hblank]
    rfl
  · have hahead : ∀ c ∈ (cs ++ back).head?, isBlank c = false := by
      rw [List.head?_append_of_ne_nil _ hnonempty]
      exact h.1
    have hbehind : ∀ c ∈ cs.reverse.head?, isBlank c = false := by
      rw [List.head?_reverse]
      exact h.2
    rw [trimChars, List.append_assoc, trimFront, List.dropWhile_append_of_pos hfront_blank,
      ← trimFront, trimFront_of_head hahead, trimBack, List.reverse_append,
      List.dropWhile_append_of_pos (by simpa using hback_blank), ← trimFront,
      trimFront_of_head hbehind, List.reverse_reverse]

theorem trimChars_of_tight
    {cs : List Char}
    (h : Tight cs) :
    trimChars cs = cs := by
  simpa using trimChars_padded h [] [] (by simp) (by simp)

theorem splitAt_of_not_mem
    {α : Type}
    [BEq α]
    [LawfulBEq α]
    {separator : α}
    {xs : List α}
    (h : separator ∉ xs) :
    splitAt separator xs = [xs] := by
  induction xs with
  | nil => rfl
  | cons x xs ih =>
      simp only [List.mem_cons, not_or] at h
      simp [splitAt, ih h.2, Ne.symm h.1]

theorem splitAt_append_cons
    {α : Type}
    [BEq α]
    [LawfulBEq α]
    {separator : α}
    {front : List α}
    (h : separator ∉ front)
    (rest : List α) :
    splitAt separator (front ++ separator :: rest) = front :: splitAt separator rest := by
  induction front with
  | nil => simp [splitAt]
  | cons x front ih =>
      simp only [List.mem_cons, not_or] at h
      simp [splitAt, ih h.2, Ne.symm h.1]

/-- A part of a text that is divided by bars. -/
structure IsPart (part : String) : Prop where
  bar : '|' ∉ part.toList
  tight : Tight part.toList

theorem toList_joinWith_cons_cons
    (separator s t : String)
    (rest : List String) :
    (joinWith separator (s :: t :: rest)).toList =
      s.toList ++ separator.toList ++ (joinWith separator (t :: rest)).toList := by
  simp [joinWith]

/-- The parts of a joined text, the blanks around them dropped. -/
theorem map_trimChars_splitAt_joinWith
    {part : String}
    {parts : List String}
    (h : ∀ p ∈ part :: parts, IsPart p) :
    (splitAt '|' (joinWith " | " (part :: parts)).toList).map trimChars =
      (part :: parts).map String.toList := by
  -- Behind a bar a part has a blank in front of it.
  suffices ∀ front : List Char, '|' ∉ front → (∀ c ∈ front, isBlank c = true) →
      (splitAt '|' (front ++ (joinWith " | " (part :: parts)).toList)).map trimChars =
        (part :: parts).map String.toList from this [] (by simp) (by simp)
  have hblank : ∀ c ∈ [' '], isBlank c = true := by
    rintro c hc
    rw [List.mem_singleton.1 hc]
    rfl
  induction parts generalizing part with
  | nil =>
      intro front hnoBar hfrontBlank
      have here := h part (by simp)
      have hpadded := trimChars_padded here.tight front [] hfrontBlank (by simp)
      rw [joinWith, splitAt_of_not_mem (by simp [hnoBar, here.bar])]
      simpa using hpadded
  | cons next parts ih =>
      intro front hnoBar hfrontBlank
      have here := h part (by simp)
      have hsplit : front ++ (joinWith " | " (part :: next :: parts)).toList =
          (front ++ part.toList ++ [' ']) ++
            '|' :: ([' '] ++ (joinWith " | " (next :: parts)).toList) := by
        rw [toList_joinWith_cons_cons]
        simp
      rw [hsplit, splitAt_append_cons (by simp [hnoBar, here.bar]), List.map_cons,
        trimChars_padded here.tight front [' '] hfrontBlank hblank,
        ih (fun p hp => h p (by simp [hp])) [' '] (by decide) hblank]
      rfl

theorem head?_joinWith
    (separator : String)
    {part : String}
    (parts : List String)
    (h : part.toList ≠ []) :
    (joinWith separator (part :: parts)).toList.head? = part.toList.head? := by
  cases parts with
  | nil => rfl
  | cons next parts =>
      rw [toList_joinWith_cons_cons, List.append_assoc, List.head?_append_of_ne_nil _ h]

theorem getLast?_joinWith
    (separator : String)
    {part : String}
    {parts : List String}
    (h : ∀ p ∈ part :: parts, p.toList ≠ []) :
    ∃ last ∈ part :: parts,
      (joinWith separator (part :: parts)).toList.getLast? = last.toList.getLast? := by
  induction parts generalizing part with
  | nil => exact ⟨part, by simp, rfl⟩
  | cons next parts ih =>
      obtain ⟨last, hmem, hsame⟩ := ih fun p hp => h p (List.mem_cons_of_mem part hp)
      have hmem := List.mem_cons_of_mem part hmem
      refine ⟨last, hmem, ?_⟩
      rw [toList_joinWith_cons_cons, List.getLast?_append, hsame]
      cases e : last.toList.getLast? with
      | none => exact absurd (List.getLast?_eq_none_iff.1 e) (h last hmem)
      | some c => rfl

/-- A text that is joined from parts starts and ends without a blank. -/
theorem tight_joinWith
    (separator : String)
    {part : String}
    {parts : List String}
    (h : ∀ p ∈ part :: parts, IsPart p)
    (hnonempty : ∀ p ∈ part :: parts, p.toList ≠ []) :
    Tight (joinWith separator (part :: parts)).toList := by
  obtain ⟨last, hmem, hsame⟩ := getLast?_joinWith separator hnonempty
  constructor
  · rw [head?_joinWith separator parts (hnonempty part (by simp))]
    exact (h part (by simp)).tight.1
  · rw [hsame]
    exact (h last hmem).tight.2

end Parts

end Text
end DalvikDecompiler
