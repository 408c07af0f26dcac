import DalvikDecompiler.Bytecode.AccessFlags
import DalvikDecompiler.Bytecode.Opcode
import DalvikDecompiler.Proofs.Text
import Mathlib

/-!
# Mnemonics and access words are read as what they spell

No two opcodes share a mnemonic, and no mnemonic has blanks around it.  Taking the names off an
access word leaves the bits that have none; together they are the word.  Reading a name gives the
bit that it was written for, also where a bit has two names.

Main statements: `Opcode.ofMnemonic_mnemonic`, `AccessFlags.ofText?_text`.
-/

namespace DalvikDecompiler
namespace Opcode

theorem getElem?_all
    (op : Opcode) :
    all[op.ctorIdx]? = some op := by
  cases op <;> rfl

theorem mem_all
    (op : Opcode) :
    op ∈ all :=
  List.mem_of_getElem? (getElem?_all op)

/-- The bytes of a text as the digits of one number, in which texts are compared. -/
def byteCode (text : String) : Nat :=
  text.toUTF8.data.toList.foldl (fun n byte => n * 256 + byte.toNat) 0

/-- No number of a list stands in it again. -/
def areDistinct : List Nat → Bool
  | [] => true
  | n :: rest => rest.all (fun m => !Nat.beq n m) && areDistinct rest

theorem nodup_of_areDistinct
    {ns : List Nat}
    (h : areDistinct ns = true) :
    ns.Nodup := by
  induction ns with
  | nil => exact List.nodup_nil
  | cons n ns ih =>
      obtain ⟨hfirst, hrest⟩ := Bool.and_eq_true_iff.1 h
      refine List.nodup_cons.2 ⟨fun hagain => ?_, ih hrest⟩
      have hdiffers := List.all_eq_true.1 hfirst n hagain
      simp at hdiffers

theorem nodup_byteCode_mnemonic :
    (all.map fun op => byteCode op.mnemonic).Nodup :=
  nodup_of_areDistinct (by decide +kernel)

theorem mnemonic_injective :
    Function.Injective mnemonic := fun op other hsame =>
  List.inj_on_of_nodup_map nodup_byteCode_mnemonic (mem_all op) (mem_all other)
    (congrArg byteCode hsame)

/-- The characters of a mnemonic are printed ones. -/
theorem exists_printed_mnemonic
    (op : Opcode) :
    ∃ cs, op.mnemonic = String.ofList cs ∧
      cs.all (fun c => Nat.ble 0x21 c.toNat && Nat.ble c.toNat 0x7E) = true := by
  cases op <;> exact ⟨_, rfl, rfl⟩

theorem not_isBlank_of_printed
    {c : Char}
    (hlow : 0x21 ≤ c.toNat)
    (high : c.toNat ≤ 0x7E) :
    Text.isBlank c = false := by
  simp only [Text.isBlank, Text.blankRanges, List.any_cons, List.any_nil, Bool.or_false,
    Bool.or_eq_false_iff, Bool.and_eq_false_iff, decide_eq_false_iff_not]
  omega

theorem trim_mnemonic
    (op : Opcode) :
    Text.trim op.mnemonic = op.mnemonic := by
  obtain ⟨cs, hspelled, hprinted⟩ := exists_printed_mnemonic op
  have hblanks : ∀ c ∈ op.mnemonic.toList, Text.isBlank c = false := fun c hc => by
    rw [hspelled, String.toList_ofList] at hc
    obtain ⟨hlow, high⟩ := Bool.and_eq_true_iff.1 (List.all_eq_true.1 hprinted c hc)
    exact not_isBlank_of_printed (Nat.le_of_ble_eq_true hlow) (Nat.le_of_ble_eq_true high)
  rw [Text.trim, Text.trimChars_of_tight ⟨fun c hc => hblanks c (List.mem_of_mem_head? hc),
    fun c hc => hblanks c (List.mem_of_mem_getLast? hc)⟩, String.ofList_toList]

/-- A mnemonic is read as the opcode that it is written for. -/
theorem ofMnemonic_mnemonic
    (op : Opcode) :
    ofMnemonic op.mnemonic = op := by
  unfold ofMnemonic
  rw [trim_mnemonic]
  cases hfound : all.find? fun other => other.mnemonic == op.mnemonic with
  | none => simpa using List.find?_eq_none.1 hfound op (mem_all op)
  | some other => exact mnemonic_injective (by simpa using List.find?_some hfound)

end Opcode

namespace AccessFlags

open Text (IsPart Tight)

section Names

/-- A name has neither bars nor blanks, does not look like a number, and is the first in the table
that is spelled so. -/
theorem name_of_mem_names :
    ∀ entry ∈ names,
      ('|' ∉ entry.1.toList ∧ entry.1.toList.all (fun c => !Text.isBlank c) = true) ∧
        entry.1.toList ≠ [] ∧ entry.1.toList.head? ≠ some '0' ∧
          names.lookup entry.1 = some entry.2 := by
  decide +kernel

theorem tight_of_all
    {cs : List Char}
    (h : cs.all (fun c => !Text.isBlank c) = true) :
    Tight cs := by
  simp only [List.all_eq_true, Bool.not_eq_true'] at h
  exact ⟨fun c hc => h c (List.mem_of_mem_head? hc), fun c hc => h c (List.mem_of_mem_getLast? hc)⟩

/-- A name is read as its bit. -/
theorem partBits?_name
    {entry : String × UInt32}
    (hmem : entry ∈ names) :
    partBits? entry.1.toList = some entry.2 := by
  obtain ⟨_, _, hnotZero, hown⟩ := name_of_mem_names entry hmem
  unfold partBits?
  split
  · next h => simp [h] at hnotZero
  · rw [String.ofList_toList, hown]

theorem or_and_not
    {bits bit : UInt32}
    (h : bits &&& bit = bit) :
    bit ||| (bits &&& ~~~bit) = bits := by
  rw [← h]
  apply UInt32.toBitVec_inj.1
  ext i
  simp
  grind

/-- The names that are taken off a word stand for the bits that are gone. -/
theorem namesOf_spec
    {table : List (String × UInt32)}
    (hknown : ∀ entry ∈ table, entry ∈ names)
    (bits : UInt32) :
    ∃ set, ((namesOf table bits).1.map String.toList).mapM partBits? = some set ∧
      ∀ before, set.foldl (· ||| ·) before ||| (namesOf table bits).2 = before ||| bits := by
  induction table generalizing bits with
  | nil => exact ⟨[], rfl, fun _ => rfl⟩
  | cons entry table ih =>
      have hothers : ∀ e ∈ table, e ∈ names := fun e he => hknown e (List.mem_cons_of_mem _ he)
      obtain ⟨name, bit⟩ := entry
      rw [namesOf]
      split
      · next held =>
          obtain ⟨set, hread, hsum⟩ := ih hothers (bits &&& ~~~bit)
          refine ⟨bit :: set, ?_, fun before => ?_⟩
          · have hfirst := partBits?_name (hknown (name, bit) List.mem_cons_self)
            simp [hfirst, hread]
          · rw [List.foldl_cons, hsum, UInt32.or_assoc, or_and_not (by simpa using held)]
      · exact ih hothers bits

theorem mem_names_of_mem_namesOf
    {table : List (String × UInt32)}
    {bits : UInt32}
    {name : String}
    (h : name ∈ (namesOf table bits).1) :
    ∃ entry ∈ table, entry.1 = name := by
  induction table generalizing bits with
  | nil => cases h
  | cons entry table ih =>
      obtain ⟨first, bit⟩ := entry
      rw [namesOf] at h
      split at h
      · rcases List.mem_cons.1 h with rfl | hrest
        · exact ⟨(name, bit), List.mem_cons_self, rfl⟩
        · obtain ⟨e, he, hsame⟩ := ih hrest
          exact ⟨e, List.mem_cons_of_mem _ he, hsame⟩
      · obtain ⟨e, he, hsame⟩ := ih h
        exact ⟨e, List.mem_cons_of_mem _ he, hsame⟩

end Names

section Numbers

/-- A hexadecimal digit is neither a bar nor a blank. -/
theorem not_bar_of_mem_hexDigits
    {n : Nat}
    {c : Char}
    (h : c ∈ Text.hexDigits n) :
    c ≠ '|' ∧ Text.isBlank c = false := by
  obtain ⟨d, hsmall, rfl⟩ := Text.exists_digitChar_of_mem_hexDigits h
  interval_cases d <;> decide

theorem toList_hex
    (n : Nat) :
    (Text.hex n).toList = '0' :: 'x' :: Text.hexDigits n := by
  simp [Text.hex]

theorem isPart_hex
    (n : Nat) :
    IsPart (Text.hex n) where
  bar := by
    have hdigits : '|' ∉ Text.hexDigits n := fun hmem => (not_bar_of_mem_hexDigits hmem).1 rfl
    simp [toList_hex, hdigits]
  tight := by
    refine tight_of_all ?_
    rw [toList_hex, List.all_cons, List.all_cons, List.all_eq_true.2 fun c hc => by
      simp [(not_bar_of_mem_hexDigits hc).2]]
    rfl

/-- The number at the end of a text is read as the bits without a name. -/
theorem partBits?_hex
    (rest : UInt32) :
    partBits? (Text.hex rest.toNat).toList = some rest := by
  have hsmall : rest.toNat < 4294967296 := rest.toNat_lt
  simp [partBits?, toList_hex, Text.readHex?_hexDigits, hsmall]

end Numbers

/-- The parts that the text of a word is joined from. -/
def parts (flags : AccessFlags) : List String :=
  (namesOf names flags.bits).1 ++
    if (namesOf names flags.bits).2 == 0 then [] else [Text.hex (namesOf names flags.bits).2.toNat]

theorem mapM_partBits?_parts
    (flags : AccessFlags) :
    ∃ set, (flags.parts.map String.toList).mapM partBits? = some set ∧
      set.foldl (· ||| ·) 0 = flags.bits := by
  obtain ⟨set, hread, hsum⟩ := namesOf_spec (fun _ h => h) flags.bits
  have hsum := hsum 0
  rw [UInt32.zero_or] at hsum
  unfold parts
  split
  · next hnone =>
      rw [eq_of_beq hnone, UInt32.or_zero] at hsum
      exact ⟨set, by simpa using hread, hsum⟩
  · refine ⟨set ++ [(namesOf names flags.bits).2], ?_, ?_⟩
    · simp [List.mapM_append, hread, partBits?_hex]
    · rwa [List.foldl_append]

theorem part_spec
    {flags : AccessFlags}
    {part : String}
    (h : part ∈ flags.parts) :
    IsPart part ∧ part.toList ≠ [] := by
  unfold parts at h
  rcases List.mem_append.1 h with hname | hnumber
  · obtain ⟨entry, hmem, rfl⟩ := mem_names_of_mem_namesOf hname
    obtain ⟨⟨hbar, hblanks⟩, hnonempty, _⟩ := name_of_mem_names entry hmem
    exact ⟨⟨hbar, tight_of_all hblanks⟩, hnonempty⟩
  · split at hnumber
    · cases hnumber
    · rw [List.mem_singleton.1 hnumber]
      exact ⟨isPart_hex _, by simp [toList_hex]⟩

/-- The text of an access word is read as that word. -/
theorem ofText?_text
    (flags : AccessFlags) :
    ofText? flags.text = some flags := by
  have htext : flags.text = Text.joinWith " | " flags.parts := rfl
  obtain ⟨set, hread, hsum⟩ := mapM_partBits?_parts flags
  have hknown := @part_spec flags
  rw [htext]
  generalize flags.parts = parts at hread hknown
  cases parts with
  | nil =>
      obtain rfl : [] = set := by simpa using hread
      exact congrArg (fun bits => some (AccessFlags.mk bits)) hsum
  | cons part parts =>
      have hpart : ∀ p ∈ part :: parts, IsPart p := fun p hp => (hknown hp).1
      have hnonempty : ∀ p ∈ part :: parts, p.toList ≠ [] := fun p hp => (hknown hp).2
      unfold ofText?
      rw [Text.trimChars_of_tight (Text.tight_joinWith _ hpart hnonempty)]
      split
      · next h =>
          have hfirst := Text.head?_joinWith " | " parts (hnonempty part (by simp))
          rw [h, eq_comm, List.head?_nil, List.head?_eq_none_iff] at hfirst
          exact absurd hfirst (hnonempty part (by simp))
      · simp only [Text.map_trimChars_splitAt_joinWith hpart, hread, Option.map_some, hsum]

end AccessFlags
end DalvikDecompiler
