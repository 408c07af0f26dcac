import DalvikDecompiler.Json.Parser
import DalvikDecompiler.Json.Printer
import DalvikDecompiler.Json.Token
import DalvikDecompiler.Proofs.Text
import Mathlib

/-!
# Scanning and parsing what has been printed

The text of a value on one line is a text of tokens without blanks.  A word, unlike all other
tokens, ends only where a character comes that is none of a word: behind a word the scanner still
stands in it, and its last token is the one that it would have at the end of the text.  Behind the
tokens of a value the parser has the value, whatever arrays and objects are still open.

Main statements: `tokens?_compact`, for values whose numbers are integers of 64 bits, and
`parse?_compact`.
-/

namespace DalvikDecompiler
namespace Json

section Numerals

theorem digits?_toDigits
    (n : Nat) :
    Decimal.Numeral.digits? (Nat.toDigits 10 n) = some (Nat.toDigits 10 n, []) := by
  have hdigits : ∀ c ∈ Nat.toDigits 10 n, c.isDigit = true := fun _ =>
    Text.isDigit_of_mem_toDigits
  unfold Decimal.Numeral.digits?
  rw [List.takeWhile_eq_self_iff.2 hdigits, List.dropWhile_eq_nil_iff.2 hdigits]
  split
  · next h => exact absurd h Nat.toDigits_ne_nil
  · rfl

theorem isMinimal_toDigits
    (n : Nat) :
    isMinimal (Nat.toDigits 10 n) = true := by
  rcases Nat.eq_zero_or_pos n with rfl | hpos
  · rw [Nat.toDigits_zero]
    rfl
  · have hfirst := Text.head?_toDigits_ne_zero hpos
    unfold isMinimal
    split
    · next h => simp [h] at hfirst
    · rfl

theorem isDigit_of_mem_head?_toDigits
    {n : Nat} :
    ∀ c ∈ (Nat.toDigits 10 n).head?, c.isDigit = true :=
  fun _ hc => Text.isDigit_of_mem_toDigits (List.mem_of_mem_head? hc)

/-- A word that starts like a number is one. -/
theorem word?_eq_number?
    {cs : List Char}
    (h : ∀ c ∈ cs.head?, c = '-' ∨ c.isDigit = true) :
    word? cs = number? cs := by
  unfold word?
  rw [if_neg, if_neg, if_neg]
  all_goals
    rintro rfl
    simp at h

theorem number?_toDigits
    (n : Nat) :
    number? (Nat.toDigits 10 n) =
      ofWhole?
        { negative := false, whole := Nat.toDigits 10 n, fraction := [], exponent := 0 } := by
  have hunsigned : ∀ rest, Nat.toDigits 10 n ≠ '-' :: rest := fun rest h => by
    simpa [h] using @isDigit_of_mem_head?_toDigits n
  unfold number?
  split
  next negative word hsplit =>
  split at hsplit
  · next rest h => exact absurd h (hunsigned _)
  · obtain ⟨rfl, rfl⟩ := Prod.mk.inj hsplit
    simp [digits?_toDigits, isMinimal_toDigits]

theorem number?_neg_toDigits
    (n : Nat) :
    number? ('-' :: Nat.toDigits 10 n) =
      ofWhole? { negative := true, whole := Nat.toDigits 10 n, fraction := [], exponent := 0 } := by
  simp [number?, digits?_toDigits, isMinimal_toDigits]

/-- The text of an integer is read as that integer, if it has 64 bits with or without sign. -/
theorem word?_toString
    {v : Int}
    (hlow : -9223372036854775808 ≤ v)
    (high : v < 18446744073709551616) :
    word? (toString v).toList = some (.int v) := by
  rw [Int.toString_eq_repr, Int.repr_eq_if]
  split
  · next hnonneg =>
      rw [Nat.toList_repr, word?_eq_number? fun c hc => .inr (isDigit_of_mem_head?_toDigits c hc),
        number?_toDigits]
      have hsmall : v.toNat < 18446744073709551616 := by omega
      simp [ofWhole?, Decimal.digitsValue, Nat.ofDigitChars_ten_toDigits, hsmall, hnonneg]
  · next hnegative =>
      have hspelling : ("-" ++ (-v).toNat.repr).toList = '-' :: Nat.toDigits 10 (-v).toNat := by
        simp
      have hsmall : 0 < (-v).toNat ∧ (-v).toNat ≤ 9223372036854775808 := by omega
      have hsame : -((-v).toNat : Int) = v := by omega
      rw [hspelling, word?_eq_number? (by simp), number?_neg_toDigits]
      simp only [ofWhole?, Decimal.digitsValue, Nat.ofDigitChars_ten_toDigits, if_pos hsmall, hsame,
        if_true]

end Numerals

section Texts

/-- How a character stands inside quotes. -/
inductive Spelled (c : Char) : List Char → Prop
  | itself : c ≠ '"' → c ≠ '\\' → 0x20 ≤ c.toNat → Spelled c [c]
  | short {e : Char} : e ≠ 'u' → shortEscape? e = some c → Spelled c ['\\', e]
  | unit {p q r s : Char} : (∀ x ∈ [p, q, r, s], x ≠ '"' ∧ x ≠ '\\') →
      codeUnit? p q r s = some c.toNat → c.toNat < 0xD800 → Spelled c ['\\', 'u', p, q, r, s]

/-- The escape of a control character has four digits. -/
theorem spelled_unicodeEscape
    {c : Char}
    (hcontrol : c.toNat < 0x20) :
    Spelled c (Text.unicodeEscape c.toNat) := by
  have hdigit {d : Nat} (hsmall : d < 16) : Nat.digitChar d ≠ '"' ∧ Nat.digitChar d ≠ '\\' := by
    interval_cases d <;> decide
  have high : c.toNat / 16 < 16 := by omega
  have hlow : c.toNat % 16 < 16 := by omega
  have hfirst := hdigit high
  have hsecond := hdigit hlow
  rw [Text.unicodeEscape, Text.hexPadded_of_lt (by omega)]
  refine .unit (by simp [hfirst, hsecond]) ?_ (by omega)
  have hzero : Text.hexValue? '0' = some 0 := rfl
  simp only [codeUnit?, Text.readHexFrom, hzero, Text.hexValue?_digitChar high,
    Text.hexValue?_digitChar hlow, Option.some.injEq]
  omega

theorem spelled_spellChar
    (c : Char) :
    Spelled c (spellChar c) := by
  unfold spellChar
  split_ifs with hquote hbackslash b f n r t hcontrol
  · exact .short (by decide) (by simp [shortEscape?, hquote])
  · exact .short (by decide) (by simp [shortEscape?, hbackslash])
  · exact .short (by decide) (by rw [← Char.ofNat_toNat c, b]; rfl)
  · exact .short (by decide) (by rw [← Char.ofNat_toNat c, f]; rfl)
  · exact .short (by decide) (by subst n; rfl)
  · exact .short (by decide) (by subst r; rfl)
  · exact .short (by decide) (by subst t; rfl)
  · exact spelled_unicodeEscape hcontrol
  · exact .itself hquote hbackslash (by omega)

theorem unescape?_spelled
    {c : Char}
    {cs : List Char}
    (h : Spelled c cs)
    (rest : List Char) :
    unescape? (cs ++ rest) = (unescape? rest).map (c :: ·) := by
  cases h with
  | itself hquote hbackslash hprinted =>
      have : ¬ (c = '\\' ∨ c.toNat < 0x20) := by simp [hbackslash, hprinted]
      rw [List.singleton_append, unescape?, if_neg this]
      · exact fun _ _ _ _ _ h => absurd h hbackslash
      · exact fun _ _ h => absurd h hbackslash
  | short hnotUnit hescape =>
      rw [List.cons_append, List.singleton_append, unescape?]
      · rw [hescape]
      · exact fun _ _ _ _ _ h => absurd h hnotUnit
  | unit hplain hunit hsmall =>
      have halone : isLeading c.toNat = false ∧ isTrailing c.toNat = false := by
        simp [isLeading, isTrailing, hsmall]; omega
      simp [unescape?, hunit, halone]

theorem unescape?_flatMap_spellChar
    (cs : List Char) :
    unescape? (cs.flatMap spellChar) = some cs := by
  induction cs with
  | nil => rfl
  | cons c cs ih =>
      rw [List.flatMap_cons, unescape?_spelled (spelled_spellChar c), ih]
      rfl

/-- A spelled character does not end the text that it stands in. -/
theorem foldlM_step_spelled
    {c : Char}
    {cs : List Char}
    (h : Spelled c cs)
    (tokens : List Token)
    (done : List Char) :
    cs.foldlM Scan.step ⟨tokens, .inText done⟩ = some ⟨tokens, .inText (cs.reverse ++ done)⟩ := by
  cases h with
  | itself hquote hbackslash _ => simp [Scan.step, hquote, hbackslash]
  | short => simp [Scan.step]
  | unit hplain _ _ =>
      simp only [List.mem_cons, List.not_mem_nil, or_false, forall_eq_or_imp, forall_eq] at hplain
      simp [Scan.step, hplain]

theorem foldlM_step_flatMap_spellChar
    (cs : List Char)
    (tokens : List Token)
    (done : List Char) :
    (cs.flatMap spellChar).foldlM Scan.step ⟨tokens, .inText done⟩ =
      some ⟨tokens, .inText ((cs.flatMap spellChar).reverse ++ done)⟩ := by
  induction cs generalizing done with
  | nil => rfl
  | cons c cs ih =>
      rw [List.flatMap_cons, List.foldlM_append, foldlM_step_spelled (spelled_spellChar c)]
      simp [ih]

end Texts

section Marks

/-- Taken between two tokens, the characters are these tokens, and the last of them is complete. -/
def Closes (cs : List Char) (tokens : List Token) : Prop :=
  ∀ before, cs.foldlM Scan.step ⟨before, .between⟩ = some ⟨tokens.reverse ++ before, .between⟩

/-- Taken between two tokens, the characters are these tokens if the text ends with them. -/
def Scans (cs : List Char) (tokens : List Token) : Prop :=
  ∀ before, ∃ s, cs.foldlM Scan.step ⟨before, .between⟩ = some s ∧
    s.finish = some (before.reverse ++ tokens)

theorem Closes.scans
    {cs : List Char}
    {tokens : List Token}
    (h : Closes cs tokens) :
    Scans cs tokens := fun before => ⟨_, h before, by simp [Scan.finish]⟩

theorem Closes.nil :
    Closes [] [] := fun _ => rfl

theorem Closes.append
    {cs ds : List Char}
    {first second : List Token}
    (h : Closes cs first)
    (k : Closes ds second) :
    Closes (cs ++ ds) (first ++ second) := fun before => by
  rw [List.foldlM_append, h before, Option.bind_eq_bind, Option.bind_some, k, List.reverse_append,
    List.append_assoc]

theorem Closes.append_scans
    {cs ds : List Char}
    {first second : List Token}
    (h : Closes cs first)
    (k : Scans ds second) :
    Scans (cs ++ ds) (first ++ second) := fun before => by
  obtain ⟨s, hrun, htokens⟩ := k (first.reverse ++ before)
  refine ⟨s, ?_, by simpa using htokens⟩
  rw [List.foldlM_append, h before]
  exact hrun

theorem mark?_not_wordChar
    {c : Char}
    {mark : Token}
    (h : mark? c = some mark) :
    isBlank c = false ∧ c ≠ '"' ∧ isWordChar c = false := by
  unfold mark? at h
  have hbraces : c = Char.ofNat c.toNat := (Char.ofNat_toNat c).symm
  split_ifs at h with h1 h2 h3 h4 h5 h6
  · subst h1; decide
  · subst h2; decide
  · rw [hbraces, h3]; decide
  · rw [hbraces, h4]; decide
  · subst h5; decide
  · subst h6; decide

/-- Behind what ends a text, a mark is taken as between two tokens. -/
theorem step_of_finish
    {s : Scan}
    {tokens : List Token}
    (h : s.finish = some tokens)
    {c : Char}
    {mark : Token}
    (hmark : mark? c = some mark) :
    s.step c = some ⟨mark :: tokens.reverse, .between⟩ := by
  obtain ⟨hnotBlank, hnotQuote, hnotWord⟩ := mark?_not_wordChar hmark
  have henter (before : List Token) : Scan.enter before c = some ⟨mark :: before, .between⟩ := by
    simp [Scan.enter, hnotBlank, hnotQuote, hnotWord, hmark]
  obtain ⟨before, place⟩ := s
  unfold Scan.finish at h
  unfold Scan.step
  cases place with
  | between =>
      obtain rfl := Option.some.inj h
      simp [henter]
  | inWord done =>
      obtain ⟨value, hword, rfl⟩ := Option.map_eq_some_iff.1 h
      simp [hnotWord, hword, henter]
  | inText done => cases h
  | behindEscape done => cases h

theorem Scans.append_mark
    {cs : List Char}
    {tokens : List Token}
    (h : Scans cs tokens)
    {c : Char}
    {mark : Token}
    (hmark : mark? c = some mark) :
    Closes (cs ++ [c]) (tokens ++ [mark]) :=
  fun before => by
    obtain ⟨s, hrun, hfinish⟩ := h before
    rw [List.foldlM_append, hrun]
    simp [step_of_finish hfinish hmark]

theorem closes_mark
    {c : Char}
    {mark : Token}
    (hmark : mark? c = some mark) :
    Closes [c] [mark] :=
  Closes.nil.scans.append_mark hmark

/-- A text in quotes is one token. -/
theorem closes_quoted
    (s : String) :
    Closes (quoted s).toList [.text s] := fun before => by
  have hopened : Scan.step ⟨before, .between⟩ '"' = some ⟨before, .inText []⟩ := rfl
  have hchars := foldlM_step_flatMap_spellChar s.toList before []
  have hclosed : Scan.step ⟨before, .inText ((s.toList.flatMap spellChar).reverse ++ [])⟩ '"' =
      some ⟨.text s :: before, .between⟩ := by
    simp [Scan.step, unescape?_flatMap_spellChar]
  rw [quoted, String.toList_ofList, List.cons_append, List.foldlM_cons, hopened,
    Option.bind_eq_bind,
    Option.bind_some, List.foldlM_append, hchars, Option.bind_eq_bind, Option.bind_some,
    List.foldlM_cons, hclosed]
  rfl

/-- Characters of a word are one token if they can be read. -/
theorem scans_word
    {cs : List Char}
    {value : Json}
    (hnonempty : cs ≠ [])
    (hchars : ∀ c ∈ cs, isWordChar c = true)
    (h : word? cs = some value) :
    Scans cs [.plain value] := fun before => by
  have hinside (ds done : List Char) (k : ∀ c ∈ ds, isWordChar c = true) :
      ds.foldlM Scan.step ⟨before, .inWord done⟩ = some ⟨before, .inWord (ds.reverse ++ done)⟩ := by
    induction ds generalizing done with
    | nil => rfl
    | cons d ds ih =>
        have hnext : Scan.step ⟨before, .inWord done⟩ d = some ⟨before, .inWord (d :: done)⟩ := by
          simp [Scan.step, k d (by simp)]
        rw [List.foldlM_cons, hnext]
        simpa using ih (d :: done) fun c hc => k c (by simp [hc])
  cases cs with
  | nil => exact absurd rfl hnonempty
  | cons c cs =>
      have hfirst := hchars c (by simp)
      have hnotBlank : isBlank c = false := by
        by_contra hblank
        simp only [isBlank, Bool.not_eq_false, Bool.or_eq_true, beq_iff_eq] at hblank
        rcases hblank with ((rfl | rfl) | rfl) | rfl
        all_goals
          revert hfirst
          decide
      have hnotQuote : c ≠ '"' := by
        rintro rfl
        revert hfirst
        decide
      refine ⟨⟨before, .inWord (c :: cs).reverse⟩, ?_, by simp [Scan.finish, h]⟩
      have henter : Scan.step ⟨before, .between⟩ c = some ⟨before, .inWord [c]⟩ := by
        simp [Scan.step, Scan.enter, hnotBlank, hnotQuote, hfirst]
      rw [List.foldlM_cons, henter]
      simpa using hinside cs [c] fun d hd => hchars d (by simp [hd])

theorem scans_int
    {v : Int}
    (hlow : -9223372036854775808 ≤ v)
    (high : v < 18446744073709551616) :
    Scans (toString v).toList [.plain (.int v)] := by
  have hdigit {n : Nat} : ∀ c ∈ Nat.toDigits 10 n, isWordChar c = true := fun c hc => by
    have := Nat.isDigit_of_mem_toDigits (by decide) (by decide) hc
    simp [isWordChar, Char.isAlphanum, this]
  have hspelling : (toString v).toList ≠ [] ∧ ∀ c ∈ (toString v).toList, isWordChar c = true := by
    rw [Int.toString_eq_repr, Int.repr_eq_if]
    split
    · rw [Nat.toList_repr]
      exact ⟨Nat.toDigits_ne_nil, hdigit⟩
    · simp only [String.toList_append, Nat.toList_repr]
      exact ⟨by simp, fun c hc => (List.mem_cons.1 hc).elim (fun h => h ▸ rfl) (hdigit c)⟩
  exact scans_word hspelling.1 hspelling.2 (word?_toString hlow high)

end Marks

section Values

/-- A value whose text is read as the value itself: its numbers are integers of 64 bits, with or
without sign, no object has two members of one name, and no more than so many arrays and objects
stand inside one another. -/
inductive Portable : Nat → Json → Prop
  | null {n : Nat} : Portable n .null
  | bool {n : Nat} (b : Bool) : Portable n (.bool b)
  | int {n : Nat} {v : Int} : -9223372036854775808 ≤ v → v < 18446744073709551616 →
      Portable n (.int v)
  | string {n : Nat} (s : String) : Portable n (.string s)
  | array {n : Nat} {items : List Json} : (∀ item ∈ items, Portable n item) →
      Portable (n + 1) (.array items)
  | object {n : Nat} {members : List (String × Json)} : (members.map Prod.fst).Nodup →
      (∀ m ∈ members, Portable n m.2) → Portable (n + 1) (.object members)

mutual

/-- The tokens of the text of a value. -/
def tokens : Json → List Token
  | .null => [.plain .null]
  | .bool b => [.plain (.bool b)]
  | .int v => [.plain (.int v)]
  | .float bits => [.plain (.float bits)]
  | .string s => [.text s]
  | .array [] => [.openArray, .closeArray]
  | .array (item :: items) => .openArray :: tokens item ++ itemTokens items ++ [.closeArray]
  | .object [] => [.openObject, .closeObject]
  | .object ((name, value) :: members) =>
      [.openObject, .text name, .colon] ++ tokens value ++ memberTokens members ++ [.closeObject]

/-- The tokens of the items after the first. -/
def itemTokens : List Json → List Token
  | [] => []
  | item :: items => .comma :: tokens item ++ itemTokens items

/-- The tokens of the members after the first. -/
def memberTokens : List (String × Json) → List Token
  | [] => []
  | (name, value) :: members =>
      [.comma, .text name, .colon] ++ tokens value ++ memberTokens members

end

theorem scans_compactItems
    {items : List Json}
    (h : ∀ item ∈ items, Scans (compact item).toList (tokens item))
    {cs : List Char}
    {before : List Token}
    (k : Scans cs before) :
    Scans (cs ++ (compactItems items).toList) (before ++ itemTokens items) := by
  induction items generalizing cs before with
  | nil => simpa [compactItems, itemTokens] using k
  | cons item items ih =>
      have hcomma := k.append_mark (c := ',') rfl
      have hlonger := hcomma.append_scans (h item (by simp))
      simpa [compactItems, itemTokens] using ih
        (fun i hi => h i (List.mem_cons_of_mem _ hi)) hlonger

/-- The name of a member and the colon behind it. -/
theorem closes_name
    (name : String) :
    Closes ((quoted name).toList ++ [':']) [.text name, .colon] :=
  (closes_quoted name).append (closes_mark rfl)

theorem scans_compactMembers
    {members : List (String × Json)}
    (h : ∀ m ∈ members, Scans (compact m.2).toList (tokens m.2))
    {cs : List Char}
    {before : List Token}
    (k : Scans cs before) :
    Scans (cs ++ (compactMembers members).toList) (before ++ memberTokens members) := by
  induction members generalizing cs before with
  | nil => simpa [compactMembers, memberTokens] using k
  | cons m members ih =>
      obtain ⟨name, value⟩ := m
      have hcomma := (k.append_mark (c := ',') rfl).append (closes_name name)
      have hlonger := hcomma.append_scans (h (name, value) (by simp))
      have hothers := ih (fun i hi => h i (List.mem_cons_of_mem _ hi)) hlonger
      simpa [compactMembers, memberTokens] using hothers

theorem scans_compact
    {n : Nat}
    {j : Json}
    (h : Portable n j) :
    Scans (compact j).toList (tokens j) := by
  induction h with
  | null => exact scans_word (List.cons_ne_nil _ _) (List.all_eq_true.1 rfl) rfl
  | bool b => cases b <;> exact scans_word (List.cons_ne_nil _ _) (List.all_eq_true.1 rfl) rfl
  | int hlow high => simpa [compact, tokens] using scans_int hlow high
  | string s => simpa [compact, tokens] using (closes_quoted s).scans
  | @array n items _ ih =>
      have hopened := closes_mark (c := '[') rfl
      cases items with
      | nil => exact (hopened.scans.append_mark (c := ']') rfl).scans
      | cons item items =>
          have hfirst := hopened.append_scans (ih item (by simp))
          have hrest := scans_compactItems (fun i hi => ih i (List.mem_cons_of_mem _ hi)) hfirst
          simpa [compact, tokens] using (hrest.append_mark (c := ']') rfl).scans
  | @object n members _ _ ih =>
      have hopened := closes_mark (c := '\x7b') rfl
      cases members with
      | nil => exact (hopened.scans.append_mark (c := '\x7d') rfl).scans
      | cons m members =>
          obtain ⟨name, value⟩ := m
          have hfirst := (hopened.append (closes_name name)).append_scans
            (ih (name, value) (by simp))
          have hrest := scans_compactMembers (fun i hi => ih i (List.mem_cons_of_mem _ hi)) hfirst
          simpa [compact, tokens] using (hrest.append_mark (c := '\x7d') rfl).scans

/-- The text of a value has the tokens of the value. -/
theorem tokens?_compact
    {n : Nat}
    {j : Json}
    (h : Portable n j) :
    tokens? (compact j).toList = some (tokens j) := by
  obtain ⟨s, hrun, hfinish⟩ := scans_compact h []
  rw [tokens?, Scan.start, hrun]
  exact hfinish

end Values

section Parsing

open ParseState

/-- A value that follows in an array just opened is its first item. -/
theorem foldlM_tokens_openedArray
    (j : Json)
    (rest : List Token)
    (stack : List Frame) :
    (tokens j ++ rest).foldlM step (.openedArray stack) =
      (tokens j ++ rest).foldlM step (.beforeValue (.array [] :: stack)) := by
  cases j with
  | array items => cases items <;> rfl
  | object members => cases members <;> rfl
  | _ => rfl

theorem putMember_of_not_mem
    {name : String}
    (value : Json)
    {done : List (String × Json)}
    (h : name ∉ done.map Prod.fst) :
    putMember name value done = (name, value) :: done := by
  have hothers : ∀ m ∈ done, (m.1 != name) = true := fun m hm =>
    bne_iff_ne.2 fun hsame => h (hsame ▸ List.mem_map_of_mem hm)
  rw [putMember, List.filter_eq_self.2 hothers]

theorem not_mem_of_nodup_middle
    {name : String}
    {done members : List String}
    (hdistinct : (done.reverse ++ name :: members).Nodup) :
    name ∉ done := fun hmem =>
  (List.nodup_append.1 hdistinct).2.2 name (List.mem_reverse.2 hmem) name List.mem_cons_self rfl

/-- The parser has a value behind its tokens. -/
def Parses (j : Json) (stack : List Frame) : Prop :=
  ∀ rest, (tokens j ++ rest).foldlM step (.beforeValue stack) =
    rest.foldlM step (.behindValue j stack)

theorem foldlM_itemTokens
    {stack : List Frame}
    {items : List Json}
    (h : ∀ item ∈ items, ∀ done, Parses item (.array done :: stack))
    (value : Json)
    (done : List Json)
    (rest : List Token) :
    (itemTokens items ++ .closeArray :: rest).foldlM step
        (.behindValue value (.array done :: stack)) =
      rest.foldlM step (.behindValue (.array (done.reverse ++ value :: items)) stack) := by
  induction items generalizing value done with
  | nil => simp [itemTokens, step, leaveValue]
  | cons item items ih =>
      have hfirst := h item (by simp) (value :: done) (itemTokens items ++ .closeArray :: rest)
      have hothers := ih (fun i hi => h i (List.mem_cons_of_mem _ hi)) item (value :: done)
      simp only [List.reverse_cons, List.append_assoc, List.singleton_append] at hothers
      rw [itemTokens, List.cons_append, List.cons_append, List.append_assoc, List.foldlM_cons,
        ← hothers, ← hfirst]
      rfl

theorem foldlM_memberTokens
    {stack : List Frame}
    {members : List (String × Json)}
    (h : ∀ m ∈ members, ∀ done name, Parses m.2 (.object done name :: stack))
    (name : String)
    (value : Json)
    (done : List (String × Json))
    (hdistinct : ((done.map Prod.fst).reverse ++ name :: members.map Prod.fst).Nodup)
    (rest : List Token) :
    (memberTokens members ++ .closeObject :: rest).foldlM step
        (.behindValue value (.object done name :: stack)) =
      rest.foldlM step
        (.behindValue (.object (done.reverse ++ (name, value) :: members)) stack) := by
  induction members generalizing name value done with
  | nil =>
      have hput := putMember_of_not_mem value (not_mem_of_nodup_middle hdistinct)
      simp [memberTokens, step, leaveValue, hput]
  | cons m members ih =>
      obtain ⟨next, content⟩ := m
      have hput := putMember_of_not_mem value (not_mem_of_nodup_middle hdistinct)
      have hfirst := h (next, content) (by simp) ((name, value) :: done) next
        (memberTokens members ++ .closeObject :: rest)
      have hothers := ih (fun i hi => h i (List.mem_cons_of_mem _ hi)) next content
        ((name, value) :: done) (by simpa using hdistinct)
      simp only [List.reverse_cons, List.append_assoc, List.singleton_append] at hothers
      rw [← hothers, ← hfirst, ← hput]
      simp [memberTokens, step, leaveValue, enterMember]

theorem parses_of_portable
    {n : Nat}
    {j : Json}
    (h : Portable n j)
    {stack : List Frame}
    (hroom : stack.length + n ≤ nestingLimit) :
    Parses j stack := by
  induction h generalizing stack with
  | null | bool | int | string => exact fun _ => rfl
  | @array n items _ ih =>
      intro rest
      have hopened : stack.length < nestingLimit := by omega
      cases items with
      | nil => simp [tokens, step, enterValue, hopened]
      | cons item items =>
          have hinside (i) (hi : i ∈ item :: items) (done) : Parses i (.array done :: stack) :=
            ih i hi (by simp only [List.length_cons]; omega)
          have hothers :=
            foldlM_itemTokens (fun i hi => hinside i (List.mem_cons_of_mem _ hi)) item [] rest
          rw [List.reverse_nil, List.nil_append, ← hinside item (by simp) [],
            ← foldlM_tokens_openedArray] at hothers
          rw [← hothers]
          simp [tokens, step, enterValue, hopened]
  | @object n members hdistinct _ ih =>
      intro rest
      have hopened : stack.length < nestingLimit := by omega
      cases members with
      | nil => simp [tokens, step, enterValue, hopened]
      | cons m members =>
          obtain ⟨name, value⟩ := m
          have hinside (i) (hi : i ∈ (name, value) :: members) (done other) :
              Parses i.2 (.object done other :: stack) :=
            ih i hi (by simp only [List.length_cons]; omega)
          have hothers := foldlM_memberTokens
            (fun i hi => hinside i (List.mem_cons_of_mem _ hi)) name
            value [] (by simpa using hdistinct) rest
          rw [List.reverse_nil, List.nil_append, ← hinside (name, value) (by simp) []
            name] at hothers
          rw [← hothers]
          simp [tokens, step, enterValue, enterMember, hopened]

/-- The text of a value on one line is read as that value. -/
theorem parse?_compact
    {j : Json}
    (h : Portable nestingLimit j) :
    parse? j.compact = some j := by
  have hparses : Parses j [] := parses_of_portable h (Nat.le_of_eq (Nat.zero_add _))
  have hrun := hparses []
  rw [List.append_nil] at hrun
  rw [parse?, tokens?_compact h, Option.bind_some, ofTokens?, hrun]
  rfl

end Parsing

end Json
end DalvikDecompiler
