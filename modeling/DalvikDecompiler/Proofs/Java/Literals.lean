import DalvikDecompiler.Proofs.Text
import DalvikDecompiler.Text
import Mathlib

/-!
# Reading string literals

**Input.** Source of a string literal.

A reader first replaces the Unicode escapes of the source and then reads what
stands between the quotes, where a backslash begins an escape of one character
or of up to three octal digits.  A text is read as the code units of UTF-16.

The spelling of a character does not depend on what stands beside it, and for
most characters its reading does not either.  The exception is NUL: it is spelled
as an octal escape, and octal digits behind it are read as part of the escape.

**Results.**
* `utf16_injective`: code units determine a text.
* `readString?_quoted`: the spelling of a text is one literal, and its value is
  the text unless an octal digit stands behind a NUL.
-/

namespace DalvikDecompiler
namespace Java

section Units

/-- The code units of a character: one, or a surrogate pair. -/
def codeUnits (c : Char) : List Nat :=
  if c.toNat < 0x10000 then
    [c.toNat]
  else
    [0xD800 + (c.toNat - 0x10000) / 0x400, 0xDC00 + (c.toNat - 0x10000) % 0x400]

/-- The code units of a text. -/
def utf16 (cs : List Char) : List Nat :=
  cs.flatMap codeUnits

/-- No character is half of a surrogate pair. -/
theorem toNat_not_surrogate
    (c : Char) :
    c.toNat < 0xD800 ∨ 0xDFFF < c.toNat ∧ c.toNat < 0x110000 :=
  c.valid

theorem codeUnits_of_lt
    {c : Char}
    (h : c.toNat < 0x10000) :
    codeUnits c = [c.toNat] :=
  if_pos h

/-- The first code units of a text determine its first character. -/
theorem codeUnits_append_inj
    {c d : Char}
    {us vs : List Nat}
    (h : codeUnits c ++ us = codeUnits d ++ vs) :
    c = d ∧ us = vs := by
  have hc := toNat_not_surrogate c
  have hd := toNat_not_surrogate d
  have hsame : c.toNat = d.toNat ∧ us = vs := by
    unfold codeUnits at h
    split_ifs at h <;> simp only [List.cons_append, List.nil_append, List.cons.injEq] at h
    · exact h
    · omega
    · omega
    · obtain ⟨hhigh, hlow, hrest⟩ := h
      exact ⟨by omega, hrest⟩
  exact ⟨Char.toNat_inj.mp hsame.1, hsame.2⟩

theorem codeUnits_ne_nil
    (c : Char) :
    codeUnits c ≠ [] := by
  unfold codeUnits
  split_ifs <;> simp

/-- Code units determine a text. -/
theorem utf16_injective :
    Function.Injective utf16 := by
  intro cs ds h
  induction cs generalizing ds with
  | nil =>
      cases ds with
      | nil => rfl
      | cons d ds => simp [utf16, codeUnits_ne_nil] at h
  | cons c cs ih =>
      cases ds with
      | nil => simp [utf16, codeUnits_ne_nil] at h
      | cons d ds =>
          obtain ⟨rfl, hrest⟩ := codeUnits_append_inj h
          rw [ih hrest]

end Units

section Reader

/-- The code unit of a Unicode escape behind its first marker, and what stands behind the escape. An
escape may have several markers. -/
def hexUnit? (source : List Char) : Option (Nat × List Char) :=
  match source.dropWhile (· == 'u') with
  | p :: q :: r :: s :: behind => (Text.readHexFrom 0 [p, q, r, s]).map fun unit => (unit, behind)
  | _ => none

theorem length_lt_of_hexUnit?
    {source behind : List Char}
    {unit : Nat}
    (h : hexUnit? source = some (unit, behind)) :
    behind.length < source.length := by
  have hle := (List.dropWhile_suffix (l := source) (· == 'u')).length_le
  unfold hexUnit? at h
  split at h
  · next heq =>
      obtain ⟨_, -, hpair⟩ := Option.map_eq_some_iff.mp h
      obtain ⟨-, rfl⟩ := Prod.mk.inj hpair
      simp only [heq, List.length_cons] at hle
      omega
  · cases h

/-- The code units of source once its Unicode escapes have been replaced.  Only a backslash with an
even number of backslashes in front of it begins such an escape. -/
def translate? : List Char → Option (List Nat)
  | [] => some []
  | '\\' :: '\\' :: rest => (translate? rest).map (utf16 ['\\', '\\'] ++ ·)
  | '\\' :: 'u' :: rest =>
      match _h : hexUnit? rest with
      | none => none
      | some (unit, behind) => (translate? behind).map (unit :: ·)
  | c :: rest => (translate? rest).map (codeUnits c ++ ·)
termination_by cs => cs.length
decreasing_by
  · simp
  · have hlt := length_lt_of_hexUnit? _h
    simp only [List.length_cons]
    omega
  · simp

/-- Whether a code unit is an octal digit. -/
def isOctal (u : Nat) : Bool :=
  '0'.toNat ≤ u && u ≤ '7'.toNat

/-- The value of octal digits. -/
def octalValue (digits : List Nat) : Nat :=
  digits.foldl (fun value digit => 8 * value + (digit - '0'.toNat)) 0

/-- The digits of the longest octal escape that some code units begin with: at most three, and three
only if the first of them is at most 3. -/
def octalDigits (us : List Nat) : List Nat :=
  (us.take (if us.headD 0 ≤ '3'.toNat then 3 else 2)).takeWhile isOctal

/-- The escapes of one character, with their values. -/
def shortEscapes : List (Nat × Nat) :=
  [('b'.toNat, 0x08), ('t'.toNat, 0x09), ('n'.toNat, 0x0A), ('f'.toNat, 0x0C), ('r'.toNat, 0x0D),
    ('"'.toNat, 0x22), ('\''.toNat, 0x27), ('\\'.toNat, 0x5C)]

/-- The value of an escape behind its backslash, and what stands behind the escape. -/
def escape? (us : List Nat) : Option (Nat × List Nat) :=
  match us with
  | [] => none
  | u :: rest =>
      if isOctal u then
        some (octalValue (octalDigits us), rest.drop ((octalDigits us).length - 1))
      else
        (shortEscapes.lookup u).map fun value => (value, rest)

theorem length_lt_of_escape?
    {us behind : List Nat}
    {value : Nat}
    (h : escape? us = some (value, behind)) :
    behind.length < us.length := by
  cases us with
  | nil => cases h
  | cons u rest =>
      simp only [escape?] at h
      split_ifs at h
      · obtain ⟨-, rfl⟩ := Prod.mk.inj (Option.some.inj h)
        simp only [List.length_drop, List.length_cons]
        omega
      · obtain ⟨_, -, hpair⟩ := Option.map_eq_some_iff.mp h
        obtain ⟨-, rfl⟩ := Prod.mk.inj hpair
        exact Nat.lt_succ_self _

/-- The value of a string literal behind its opening quote, and what stands behind its closing one.
-/
def stringBody? : List Nat → Option (List Nat × List Nat)
  | [] => none
  | u :: rest =>
      if u = '"'.toNat then
        some ([], rest)
      else if u = '\n'.toNat ∨ u = '\r'.toNat then
        none
      else if u = '\\'.toNat then
        match _h : escape? rest with
        | none => none
        | some (value, behind) => (stringBody? behind).map (Prod.map (value :: ·) id)
      else
        (stringBody? rest).map (Prod.map (u :: ·) id)
termination_by us => us.length
decreasing_by
  · have hlt := length_lt_of_escape? _h
    simp only [List.length_cons]
    omega
  · simp

/-- The value of the string literal that source begins with, and what stands behind the literal. -/
def readString? (source : List Char) : Option (List Nat × List Nat) :=
  (translate? source).bind fun us =>
    match us with
    | [] => none
    | u :: rest => if u = '"'.toNat then stringBody? rest else none

end Reader

section Translation

/-- The characters with an escape of their own. -/
def hasShortEscape (c : Char) : Bool :=
  c == '\\' || c == '\n' || c == '\r' || c == '\t' || c == Char.ofNat 0 || c == '"'

/-- What the spelling of a character is when Unicode escapes have been replaced. -/
def spelledUnits (c : Char) : List Nat :=
  if hasShortEscape c then utf16 (Text.spellChar '"' c) else codeUnits c

theorem translate?_cons
    {c : Char}
    (h : c ≠ '\\')
    (rest : List Char) :
    translate? (c :: rest) = (translate? rest).map (codeUnits c ++ ·) := by
  rw [translate?]
  · exact fun _ hc => absurd hc h
  · exact fun _ hc => absurd hc h

theorem translate?_escape
    {rest behind : List Char}
    {unit : Nat}
    (h : hexUnit? rest = some (unit, behind)) :
    translate? ('\\' :: 'u' :: rest) = (translate? behind).map (unit :: ·) := by
  rw [translate?]
  split
  · next hnone =>
      rw [h] at hnone
      cases hnone
  · next hsome =>
      rw [h] at hsome
      cases hsome
      rfl

theorem translate?_short
    {e : Char}
    (hslash : e ≠ '\\')
    (hmarker : e ≠ 'u')
    (rest : List Char) :
    translate? (['\\', e] ++ rest) = (translate? rest).map (utf16 ['\\', e] ++ ·) := by
  rw [List.cons_append, List.singleton_append, translate?, translate?_cons hslash, Option.map_map]
  · simp [utf16, Function.comp_def]
  · intro _ _ heq
    exact hslash (List.cons.inj heq).1
  · intro _ _ heq
    exact hmarker (List.cons.inj heq).1

/-- The digits of a control character are read as its code. -/
theorem hexUnit?_control
    {c : Char}
    (h : c.toNat < 256)
    (rest : List Char) :
    hexUnit? (Text.hexPadded c.toNat ++ rest) = some (c.toNat, rest) := by
  have hhigh : c.toNat / 16 < 16 := by omega
  have hlow : c.toNat % 16 < 16 := by omega
  have hzero : Text.hexValue? '0' = some 0 := rfl
  rw [Text.hexPadded_of_lt h]
  simp [hexUnit?, Text.readHexFrom, hzero, Text.hexValue?_digitChar hhigh,
    Text.hexValue?_digitChar hlow]
  omega

/-- Spellings are translated one by one. -/
theorem translate?_spellChar
    (c : Char)
    (rest : List Char) :
    translate? (Text.spellChar '"' c ++ rest) = (translate? rest).map (spelledUnits c ++ ·) := by
  by_cases hshort : hasShortEscape c = true
  · have hunits : spelledUnits c = utf16 (Text.spellChar '"' c) := if_pos hshort
    rw [hunits]
    simp only [hasShortEscape, Bool.or_eq_true, beq_iff_eq] at hshort
    rcases hshort with ((((rfl | rfl) | rfl) | rfl) | rfl) | rfl
    · simp [Text.spellChar, translate?]
    · exact translate?_short (by decide) (by decide) rest
    · exact translate?_short (by decide) (by decide) rest
    · exact translate?_short (by decide) (by decide) rest
    · exact translate?_short (by decide) (by decide) rest
    · exact translate?_short (by decide) (by decide) rest
  · have hunits : spelledUnits c = codeUnits c := if_neg hshort
    rw [hunits]
    simp only [hasShortEscape, Bool.or_eq_true, beq_iff_eq, not_or] at hshort
    obtain ⟨⟨⟨⟨⟨hslash, hline⟩, hreturn⟩, htab⟩, hnul⟩, hquote⟩ := hshort
    by_cases hcontrol : Text.isControl c = true
    · have hlt : c.toNat < 256 := by
        simp only [Text.isControl, Bool.or_eq_true, Bool.and_eq_true, decide_eq_true_eq] at hcontrol
        omega
      have hspell : Text.spellChar '"' c = Text.unicodeEscape c.toNat := by
        simp [Text.spellChar, hslash, hline, hreturn, htab, hnul, hquote, hcontrol]
      rw [hspell, Text.unicodeEscape, List.cons_append, List.cons_append,
        translate?_escape (hexUnit?_control hlt rest), codeUnits_of_lt (by omega)]
      rfl
    · have hspell : Text.spellChar '"' c = [c] := by
        simp [Text.spellChar, hslash, hline, hreturn, htab, hnul, hquote, hcontrol]
      rw [hspell, List.singleton_append, translate?_cons hslash]

/-- A text between quotes is translated spelling by spelling. -/
theorem translate?_quotedChars
    (cs : List Char) :
    translate? (Text.quotedChars cs) =
      some ('"'.toNat :: (cs.flatMap spelledUnits ++ ['"'.toNat])) := by
  have hbody : translate? (cs.flatMap (Text.spellChar '"') ++ ['"']) =
      some (cs.flatMap spelledUnits ++ ['"'.toNat]) := by
    induction cs with
    | nil =>
        rw [List.flatMap_nil, List.nil_append, translate?_cons (by decide), translate?]
        rfl
    | cons c cs ih =>
        rw [List.flatMap_cons, List.append_assoc, translate?_spellChar, ih]
        simp
  rw [Text.quotedChars, List.cons_append, translate?_cons (by decide), hbody]
  rfl

end Translation

section Reading

theorem stringBody?_escape
    {us behind : List Nat}
    {value : Nat}
    (h : escape? us = some (value, behind)) :
    stringBody? ('\\'.toNat :: us) = (stringBody? behind).map (Prod.map (value :: ·) id) := by
  rw [stringBody?, if_neg (by decide), if_neg (by decide), if_pos rfl]
  split
  · next hnone =>
      rw [h] at hnone
      cases hnone
  · next hsome =>
      rw [h] at hsome
      cases hsome
      rfl

/-- A code unit that is no mark of the reader stands for itself. -/
theorem stringBody?_cons
    {u : Nat}
    (hquote : u ≠ '"'.toNat)
    (hline : u ≠ '\n'.toNat)
    (hreturn : u ≠ '\r'.toNat)
    (hslash : u ≠ '\\'.toNat)
    (rest : List Nat) :
    stringBody? (u :: rest) = (stringBody? rest).map (Prod.map (u :: ·) id) := by
  rw [stringBody?, if_neg hquote, if_neg (by tauto), if_neg hslash]

theorem stringBody?_short
    {u value : Nat}
    (hoctal : isOctal u = false)
    (hvalue : shortEscapes.lookup u = some value)
    (rest : List Nat) :
    stringBody? ('\\'.toNat :: u :: rest) = (stringBody? rest).map (Prod.map (value :: ·) id) :=
  stringBody?_escape (by simp [escape?, hoctal, hvalue])

/-- Every character but NUL is read as it was spelled, whatever stands behind it. -/
theorem stringBody?_spelledUnits
    {c : Char}
    (hnul : c ≠ Char.ofNat 0)
    (rest : List Nat) :
    stringBody? (spelledUnits c ++ rest) =
      (stringBody? rest).map (Prod.map (codeUnits c ++ ·) id) := by
  by_cases hshort : hasShortEscape c = true
  · have hunits : spelledUnits c = utf16 (Text.spellChar '"' c) := if_pos hshort
    rw [hunits]
    simp only [hasShortEscape, Bool.or_eq_true, beq_iff_eq] at hshort
    rcases hshort with ((((rfl | rfl) | rfl) | rfl) | rfl) | rfl
    · exact stringBody?_short rfl rfl rest
    · exact stringBody?_short rfl rfl rest
    · exact stringBody?_short rfl rfl rest
    · exact stringBody?_short rfl rfl rest
    · exact absurd rfl hnul
    · exact stringBody?_short rfl rfl rest
  · have hunits : spelledUnits c = codeUnits c := if_neg hshort
    rw [hunits]
    simp only [hasShortEscape, Bool.or_eq_true, beq_iff_eq, not_or, ← Char.toNat_inj] at hshort
    obtain ⟨⟨⟨⟨⟨hslash, hline⟩, hreturn⟩, -⟩, -⟩, hquote⟩ := hshort
    unfold codeUnits
    split_ifs
    · exact stringBody?_cons hquote hline hreturn hslash rest
    · -- no half of a surrogate pair is a mark
      have hself : ∀ u, 0xD800 ≤ u → ∀ rest, stringBody? (u :: rest) =
          (stringBody? rest).map (Prod.map (u :: ·) id) := by
        intro u hu
        have hne : ∀ d : Char, d.toNat < 0xD800 → u ≠ d.toNat := fun d hd => by omega
        exact stringBody?_cons (hne _ (by decide)) (hne _ (by decide)) (hne _ (by decide))
          (hne _ (by decide))
      rw [List.cons_append, hself _ (Nat.le_add_right _ _), List.cons_append,
        hself _ (by omega), List.nil_append, Option.map_map]
      rfl

/-- The octal digits that an escape for NUL takes in from the text behind it. -/
def octalBehind (cs : List Char) : List Char :=
  (cs.take 2).takeWhile fun c => isOctal c.toNat

/-- What a spelled text is read as. -/
def readBack : List Char → List Nat
  | [] => []
  | c :: cs =>
      if c = Char.ofNat 0 then
        octalValue ((octalBehind cs).map Char.toNat) :: readBack (cs.drop (octalBehind cs).length)
      else
        codeUnits c ++ readBack cs
termination_by cs => cs.length
decreasing_by
  · simp only [List.length_drop, List.length_cons]
    omega
  · simp

/-- An octal digit is spelled as itself. -/
theorem spelledUnits_of_isOctal
    {c : Char}
    (h : isOctal c.toNat = true) :
    spelledUnits c = [c.toNat] := by
  have hrange : '0'.toNat ≤ c.toNat ∧ c.toNat ≤ '7'.toNat := by simpa [isOctal] using h
  have hplain : hasShortEscape c = false := by
    simp only [hasShortEscape, Bool.or_eq_false_iff, beq_eq_false_iff_ne]
    refine ⟨⟨⟨⟨⟨?_, ?_⟩, ?_⟩, ?_⟩, ?_⟩, ?_⟩ <;> rintro rfl <;> exact absurd h (by decide)
  have hlt : '7'.toNat < 0x10000 := by decide
  rw [spelledUnits, hplain, if_neg Bool.false_ne_true, codeUnits_of_lt (by omega)]

/-- The spelling of any other character does not begin with an octal digit. -/
theorem exists_spelledUnits
    {c : Char}
    (h : isOctal c.toNat = false) :
    ∃ u us, spelledUnits c = u :: us ∧ isOctal u = false := by
  by_cases hshort : hasShortEscape c = true
  · have hunits : spelledUnits c = utf16 (Text.spellChar '"' c) := if_pos hshort
    rw [hunits]
    simp only [hasShortEscape, Bool.or_eq_true, beq_iff_eq] at hshort
    rcases hshort with ((((rfl | rfl) | rfl) | rfl) | rfl) | rfl <;> exact ⟨_, _, rfl, rfl⟩
  · have hunits : spelledUnits c = codeUnits c := if_neg hshort
    rw [hunits, codeUnits]
    split_ifs
    · exact ⟨_, _, rfl, h⟩
    · refine ⟨_, _, rfl, ?_⟩
      have hlt : '7'.toNat < 0xD800 := by decide
      simp only [isOctal, Bool.and_eq_false_imp, decide_eq_true_eq, decide_eq_false_iff_not]
      omega

/-- The octal digits at the front of a spelled text are those at the front of the text. -/
theorem takeWhile_isOctal_spelled
    {close : Nat}
    (hclose : isOctal close = false)
    (n : Nat)
    (cs : List Char) :
    ((cs.flatMap spelledUnits ++ [close]).take n).takeWhile isOctal =
      ((cs.take n).takeWhile fun c => isOctal c.toNat).map Char.toNat := by
  induction n generalizing cs with
  | zero => rfl
  | succ n ih =>
      cases cs with
      | nil => simp [hclose]
      | cons c cs =>
          cases hoctal : isOctal c.toNat with
          | true => simp [spelledUnits_of_isOctal hoctal, hoctal, ih]
          | false =>
              obtain ⟨u, us, hunits, hu⟩ := exists_spelledUnits hoctal
              simp [hunits, hu, hoctal]

theorem octalBehind_append_drop
    (cs : List Char) :
    octalBehind cs ++ cs.drop (octalBehind cs).length = cs :=
  List.prefix_iff_eq_append.mp ((List.takeWhile_prefix _).trans (List.take_prefix 2 cs))

/-- NUL is read together with the octal digits behind it. -/
theorem stringBody?_nul
    {close : Nat}
    (hclose : isOctal close = false)
    (cs : List Char) :
    stringBody? (spelledUnits (Char.ofNat 0) ++ (cs.flatMap spelledUnits ++ [close])) =
      (stringBody? ((cs.drop (octalBehind cs).length).flatMap spelledUnits ++ [close])).map
        (Prod.map (octalValue ((octalBehind cs).map Char.toNat) :: ·) id) := by
  have hdigits : octalDigits ('0'.toNat :: (cs.flatMap spelledUnits ++ [close])) =
      '0'.toNat :: (octalBehind cs).map Char.toNat := by
    have htake := takeWhile_isOctal_spelled hclose 2 cs
    rw [octalDigits, List.headD_cons, if_pos (by decide), List.take_succ_cons,
      List.takeWhile_cons_of_pos (by decide), htake]
    rfl
  have hfront : (octalBehind cs).flatMap spelledUnits = (octalBehind cs).map Char.toNat := by
    have hoctal : ∀ c, c ∈ octalBehind cs → spelledUnits c = [c.toNat] := fun c hc =>
      spelledUnits_of_isOctal (List.mem_takeWhile_imp (p := fun c : Char => isOctal c.toNat) hc)
    rw [List.flatMap_congr hoctal, List.map_eq_flatMap]
  have hsplit : cs.flatMap spelledUnits ++ [close] = (octalBehind cs).map Char.toNat ++
      ((cs.drop (octalBehind cs).length).flatMap spelledUnits ++ [close]) := by
    rw [← hfront, ← List.append_assoc, ← List.flatMap_append, octalBehind_append_drop]
  have hescape : escape? ('0'.toNat :: (cs.flatMap spelledUnits ++ [close])) =
      some (octalValue ((octalBehind cs).map Char.toNat),
        (cs.drop (octalBehind cs).length).flatMap spelledUnits ++ [close]) := by
    simp only [escape?]
    rw [if_pos (by decide), hdigits, List.length_cons, Nat.add_sub_cancel, hsplit, List.drop_left]
    rfl
  exact stringBody?_escape hescape

/-- A spelled text up to its closing quote is read as a whole. -/
theorem stringBody?_spelled
    (cs : List Char) :
    stringBody? (cs.flatMap spelledUnits ++ ['"'.toNat]) = some (readBack cs, []) := by
  fun_induction readBack cs with
  | case1 =>
      rw [List.flatMap_nil, List.nil_append, stringBody?, if_pos rfl]
  | case2 cs ih =>
      rw [List.flatMap_cons, List.append_assoc, stringBody?_nul (by decide), ih]
      rfl
  | case3 c cs hnul ih =>
      rw [List.flatMap_cons, List.append_assoc, stringBody?_spelledUnits hnul, ih]
      rfl

end Reading

section Value

/-- An octal digit stands right behind a NUL. -/
def HasDigitBehindNul (cs : List Char) : Prop :=
  ∃ d, isOctal d.toNat = true ∧ [Char.ofNat 0, d] <:+: cs

theorem readBack_of_not_hasDigitBehindNul
    {cs : List Char}
    (h : ¬ HasDigitBehindNul cs) :
    readBack cs = utf16 cs := by
  induction cs with
  | nil => rw [readBack]; rfl
  | cons c cs ih =>
      have hrest : readBack cs = utf16 cs :=
        ih fun ⟨d, hd, hinfix⟩ => h ⟨d, hd, List.infix_cons hinfix⟩
      rw [readBack]
      split_ifs with hnul
      · have hnone : octalBehind cs = [] := by
          cases cs with
          | nil => rfl
          | cons d cs =>
              refine List.takeWhile_cons_of_neg fun hd => h ⟨d, hd, ?_⟩
              rw [hnul]
              exact (List.prefix_append [Char.ofNat 0, d] cs).isInfix
        rw [hnone, hnul, List.length_nil, List.drop_zero, hrest]
        rfl
      · rw [hrest]
        rfl

theorem length_le_length_utf16
    (cs : List Char) :
    cs.length ≤ (utf16 cs).length := by
  induction cs with
  | nil => exact Nat.le_refl _
  | cons c cs ih =>
      have hpos := List.length_pos_of_ne_nil (codeUnits_ne_nil c)
      have hcons : utf16 (c :: cs) = codeUnits c ++ utf16 cs := rfl
      rw [hcons, List.length_append, List.length_cons]
      omega

theorem length_utf16_eq
    (cs : List Char) :
    (utf16 cs).length =
      (utf16 (octalBehind cs)).length + (utf16 (cs.drop (octalBehind cs).length)).length := by
  rw [← List.length_append, utf16, utf16, utf16, ← List.flatMap_append, octalBehind_append_drop]

/-- A text is not read as more code units than it has, and as fewer if digits are taken in. -/
theorem length_readBack
    (cs : List Char) :
    (readBack cs).length ≤ (utf16 cs).length ∧
      (HasDigitBehindNul cs → (readBack cs).length < (utf16 cs).length) := by
  fun_induction readBack cs with
  | case1 =>
      refine ⟨Nat.le_refl _, fun ⟨d, _, hinfix⟩ => ?_⟩
      simp at hinfix
  | case2 cs ih =>
      have hcons : (utf16 (Char.ofNat 0 :: cs)).length = (utf16 cs).length + 1 := rfl
      have hdigits := length_le_length_utf16 (octalBehind cs)
      have hsplit := length_utf16_eq cs
      rw [hcons, List.length_cons]
      refine ⟨by omega, fun hbehind => ?_⟩
      rcases Nat.eq_zero_or_pos (octalBehind cs).length with hnone | hsome
      · -- no digit is taken in here, so that the NUL stands further behind
        have hrest : HasDigitBehindNul cs := by
          obtain ⟨d, hd, hinfix⟩ := hbehind
          rcases List.infix_cons_iff.mp hinfix with hprefix | hinfix
          · obtain ⟨after, hafter⟩ := hprefix
            obtain rfl : d :: after = cs := (List.cons.inj hafter).2
            simp [octalBehind, hd] at hnone
          · exact ⟨d, hd, hinfix⟩
        rw [hnone, List.drop_zero] at ih
        have hlt := ih.2 hrest
        rw [hnone, List.drop_zero]
        omega
      · omega
  | case3 c cs hnul ih =>
      have hcons : (utf16 (c :: cs)).length = (codeUnits c).length + (utf16 cs).length :=
        List.length_append
      rw [hcons, List.length_append]
      refine ⟨by omega, fun ⟨d, hd, hinfix⟩ => ?_⟩
      rcases List.infix_cons_iff.mp hinfix with hprefix | hinfix
      · obtain ⟨after, hafter⟩ := hprefix
        exact absurd (List.cons.inj hafter).1.symm hnul
      · have hlt := ih.2 ⟨d, hd, hinfix⟩
        omega

/-- A text is read as it is exactly if no digit is taken in. -/
theorem readBack_eq_iff
    {cs : List Char} :
    readBack cs = utf16 cs ↔ ¬ HasDigitBehindNul cs := by
  refine ⟨fun heq hbehind => ?_, readBack_of_not_hasDigitBehindNul⟩
  have hlt := (length_readBack cs).2 hbehind
  rw [heq] at hlt
  exact Nat.lt_irrefl _ hlt

theorem readString?_quotedChars
    (cs : List Char) :
    readString? (Text.quotedChars cs) = some (readBack cs, []) := by
  rw [readString?, translate?_quotedChars, Option.bind_some]
  exact stringBody?_spelled cs

/-- **A string literal denotes its text.**  Whatever the text, its spelling is read as one complete
literal; and the value of the literal is the text, and no other one, unless an octal digit stands
behind a NUL. -/
theorem readString?_quoted
    (s : String) :
    ∃ value, readString? (Text.quoted s).toList = some (value, []) ∧
      (value = utf16 s.toList ↔ ¬ HasDigitBehindNul s.toList) ∧
      (¬ HasDigitBehindNul s.toList → ∀ t : String, value = utf16 t.toList → t = s) := by
  refine ⟨readBack s.toList, ?_, readBack_eq_iff, fun hnone t ht => ?_⟩
  · rw [Text.quoted, String.toList_ofList, readString?_quotedChars]
  · rw [readBack_eq_iff.mpr hnone] at ht
    exact String.toList_inj.mp (utf16_injective ht.symm)

/-- NUL in front of a digit is read as another character together with the digit. -/
theorem readString?_quoted_nulDigit :
    readString? (Text.quoted (String.ofList [Char.ofNat 0, '1'])).toList = some ([1], []) ∧
      utf16 [Char.ofNat 0, '1'] = [0, 0x31] := by
  refine ⟨?_, rfl⟩
  rw [Text.quoted, String.toList_ofList, String.toList_ofList, readString?_quotedChars]
  simp [readBack, octalBehind, isOctal, octalValue]

end Value

end Java
end DalvikDecompiler
