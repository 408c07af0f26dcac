import DalvikDecompiler.Bytecode.Listing
import DalvikDecompiler.Proofs.OrderedSet

/-!
# The layout of a listing

**Input.** The lines of a method body.

A label stands for the number of instructions in front of the last line with it.  Blocks start at
some instructions, in order, and each block goes up to the start of the next one.

**Results.**
* `lookup_labels_iff`: what a label stands for.
* `offsetAt_ofListing`: the offset of an instruction is the size of those in front of it.
* `mem_leaders_iff`, `leaders_sorted`: where blocks start.
* `blockOf_of_leader`: the number of the block that starts at an instruction.
* `flatMap_slice_parts`: the blocks together are the whole listing.
* `IsPart`: what is known of the part of a listing that becomes a block.
-/

namespace DalvikDecompiler
namespace Bytecode

section Labels

variable {lines rest : Listing} {line : Line} {name : String} {index i : Nat}
variable {found : List (String × Nat)}

/-- A label stands for the instruction behind the last line with it. -/
def Binds (lines : Listing) (name : String) (index : Nat) : Prop :=
  ∃ before after : Listing, lines = before ++ .label name :: after ∧ .label name ∉ after ∧
    before.items.length = index

theorem not_binds_nil :
    ¬ Binds [] name i := by
  rintro ⟨before, after, hsplit, -⟩
  simp at hsplit

theorem items_append
    (before after : Listing) :
    Listing.items (before ++ after) = before.items ++ after.items :=
  List.filterMap_append

theorem binds_cons :
    Binds (line :: rest) name i ↔
      (∃ j, Binds rest name j ∧ i = (Listing.items [line]).length + j) ∨
        line = .label name ∧ .label name ∉ rest ∧ i = 0 := by
  constructor
  · rintro ⟨before, after, hsplit, hlast, rfl⟩
    cases before with
    | nil =>
        obtain ⟨rfl, rfl⟩ := List.cons.inj hsplit
        exact .inr ⟨rfl, hlast, rfl⟩
    | cons first before =>
        obtain ⟨rfl, rfl⟩ := List.cons.inj hsplit
        refine .inl ⟨_, ⟨before, after, rfl, hlast, rfl⟩, ?_⟩
        rw [← List.singleton_append, items_append, List.length_append]
  · rintro (⟨j, ⟨before, after, rfl, hlast, rfl⟩, rfl⟩ | ⟨rfl, hlast, rfl⟩)
    · refine ⟨line :: before, after, rfl, hlast, ?_⟩
      rw [← List.singleton_append, items_append, List.length_append]
    · exact ⟨[], rest, rfl, hlast, rfl⟩

theorem Binds.mem
    (h : Binds lines name i) :
    .label name ∈ lines := by
  obtain ⟨before, after, rfl, -⟩ := h
  simp

theorem Binds.le
    (h : Binds lines name i) :
    i ≤ lines.items.length := by
  obtain ⟨before, after, rfl, -, rfl⟩ := h
  rw [items_append, List.length_append]
  exact Nat.le_add_right _ _

/-- Labels that are found later come first. -/
theorem lookup_labelsFrom :
    (Listing.labelsFrom index found lines).lookup name = some i ↔
      (∃ j, Binds lines name j ∧ i = index + j) ∨
        .label name ∉ lines ∧ found.lookup name = some i := by
  induction lines generalizing index found with
  | nil => simp [Listing.labelsFrom, not_binds_nil]
  | cons line rest ih =>
      cases line with
      | label other =>
          have hwidth : (Listing.items [.label other]).length = 0 := rfl
          rw [Listing.labelsFrom, ih, List.lookup_cons]
          by_cases hsame : name = other
          · subst hsame
            simp only [binds_cons, hwidth, beq_self_eq_true, List.mem_cons, true_or, not_true,
              false_and, or_false, true_and, Nat.zero_add]
            grind
          · have hother_ne : (name == other) = false := by simp [hsame]
            have hline_ne : Line.label name ≠ .label other := fun heq => hsame (Line.label.inj heq)
            simp only [binds_cons, hwidth, hother_ne, List.mem_cons, hline_ne,
              hline_ne.symm, false_or,
              false_and, or_false, Nat.zero_add, exists_eq_right']
      | code opcode operands target =>
          have hwidth : (Listing.items [.code opcode operands target]).length = 1 := rfl
          rw [Listing.labelsFrom, ih]
          simp only [binds_cons, hwidth, List.mem_cons, reduceCtorEq, false_or, false_and, or_false]
          grind
      | protect start stop handlers =>
          have hwidth : (Listing.items [.protect start stop handlers]).length = 0 := rfl
          rw [Listing.labelsFrom, ih]
          simp only [binds_cons, hwidth, List.mem_cons, reduceCtorEq, false_or, false_and, or_false,
            Nat.zero_add, exists_eq_right']

theorem lookup_foldr_addLabel
    (found : List (String × Nat)) :
    (found.foldr Listing.addLabel []).lookup name = found.lookup name := by
  induction found with
  | nil => rfl
  | cons entry found ih =>
      obtain ⟨other, index⟩ := entry
      change List.lookup name ((other, index) :: OrderedMap.erase other _) = _
      rw [List.lookup_cons, List.lookup_cons, OrderedMap.lookup_erase, ih]
      split <;> simp_all

theorem nodup_foldr_addLabel
    (found : List (String × Nat)) :
    ((found.foldr Listing.addLabel []).map Prod.fst).Nodup := by
  induction found with
  | nil => exact List.nodup_nil
  | cons entry found ih =>
      rw [List.foldr_cons, Listing.addLabel, List.map_cons, List.nodup_cons]
      refine ⟨fun hmem => ?_, ih.sublist (List.filter_sublist.map _)⟩
      obtain ⟨other, hthere, hsame⟩ := List.mem_map.1 hmem
      simpa [hsame] using (List.mem_filter.1 hthere).2

/-- **What a label stands for.** -/
theorem lookup_labels_iff :
    lines.labels.lookup name = some i ↔ Binds lines name i := by
  rw [Listing.labels, lookup_foldr_addLabel, lookup_labelsFrom]
  simp

theorem mem_labels_iff :
    i ∈ lines.labels.map Prod.snd ↔ ∃ name, Binds lines name i := by
  have hentry (name : String) : (name, i) ∈ lines.labels ↔ Binds lines name i :=
    (OrderedMap.mem_iff_lookup_eq_some (nodup_foldr_addLabel _)).trans lookup_labels_iff
  simp [← hentry]

theorem Binds.unique
    {j : Nat}
    (h : Binds lines name i)
    (h' : Binds lines name j) :
    i = j :=
  Option.some.inj ((lookup_labels_iff.2 h).symm.trans (lookup_labels_iff.2 h'))

end Labels

section Offsets

variable {items : List ListingItem} {index i j : Nat}

/-- The size of the elements of a list in front of one. -/
def sizeBefore {α : Type} (size : α → Nat) (xs : List α) (index : Nat) : Nat :=
  ((xs.take index).map size).sum

theorem sizeBefore_succ
    {α : Type}
    {size : α → Nat}
    {xs : List α}
    {x : α}
    (hthere : xs[index]? = some x) :
    sizeBefore size xs (index + 1) = sizeBefore size xs index + size x := by
  obtain ⟨hlt, rfl⟩ := List.getElem?_eq_some_iff.1 hthere
  rw [sizeBefore, List.take_succ_eq_append_getElem hlt, List.map_append, List.sum_append,
    List.map_singleton, List.sum_singleton]
  rfl

/-- The size of the instructions in front of one of a listing, in code units. -/
def startOf (items : List ListingItem) (index : Nat) : Nat :=
  sizeBefore (fun item => item.opcode.codeUnits) items index

@[simp] theorem startOf_zero
    (items : List ListingItem) :
    startOf items 0 = 0 := by
  simp [startOf, sizeBefore]

theorem startOf_succ
    {item : ListingItem}
    (hthere : items[index]? = some item) :
    startOf items (index + 1) = startOf items index + item.opcode.codeUnits :=
  sizeBefore_succ hthere

theorem codeUnits_pos
    (opcode : Opcode) :
    0 < opcode.codeUnits := by
  cases opcode <;> exact Nat.succ_pos _

theorem codeUnits_le
    (opcode : Opcode) :
    opcode.codeUnits ≤ 5 := by
  cases opcode <;> decide

/-- Instructions take space. -/
theorem startOf_lt
    (hlt : i < j)
    (hle : j ≤ items.length) :
    startOf items i < startOf items j := by
  induction j with
  | zero => exact absurd hlt (Nat.not_lt_zero i)
  | succ j ih =>
      obtain ⟨item, hthere⟩ : ∃ item, items[j]? = some item := ⟨_, List.getElem?_eq_getElem hle⟩
      have hmore := codeUnits_pos item.opcode
      rw [startOf_succ hthere]
      rcases Nat.lt_succ_iff_lt_or_eq.1 hlt with hlt | rfl
      · exact (ih hlt (Nat.le_of_succ_le hle)).trans (Nat.lt_add_of_pos_right hmore)
      · exact Nat.lt_add_of_pos_right hmore

theorem startOf_lt_startOf_iff
    (hi : i ≤ items.length)
    (hj : j ≤ items.length) :
    startOf items i < startOf items j ↔ i < j := by
  refine ⟨fun hlt => ?_, fun hlt => startOf_lt hlt hj⟩
  rcases Nat.lt_trichotomy i j with hbefore | rfl | hafter
  · exact hbefore
  · exact absurd hlt (Nat.lt_irrefl _)
  · exact absurd (startOf_lt hafter hi) (Nat.lt_asymm hlt)

theorem le_startOf
    (hle : index ≤ items.length) :
    index ≤ startOf items index := by
  induction index with
  | zero => exact Nat.zero_le _
  | succ index ih =>
      exact (ih (Nat.le_of_succ_le hle)).trans_lt (startOf_lt (Nat.lt_succ_self index) hle)

theorem getElem?_offsetsFrom
    {offset : Nat}
    (hle : index ≤ items.length) :
    (Listing.offsetsFrom offset items)[index]? = some (offset + startOf items index) := by
  induction items generalizing offset index with
  | nil =>
      obtain rfl := Nat.le_zero.1 hle
      simp [Listing.offsetsFrom]
  | cons item rest ih =>
      cases index with
      | zero => simp [Listing.offsetsFrom]
      | succ index =>
          rw [Listing.offsetsFrom, List.getElem?_cons_succ, ih (Nat.le_of_succ_le_succ hle)]
          simp [startOf, sizeBefore, Nat.add_assoc]

/-- **The offset of an instruction is the size of those in front of it.** -/
theorem offsetAt_ofListing
    {lines : Listing}
    (hle : index ≤ lines.items.length) :
    (Layout.ofListing lines).offsetAt index = startOf lines.items index := by
  unfold Layout.offsetAt Layout.ofListing
  simp [getElem?_offsetsFrom hle]

end Offsets

section Leaders

variable {items : List ListingItem} {labelled : List Nat} {index i : Nat} {starts : Bool}

theorem mem_leadersFrom :
    i ∈ Listing.leadersFrom labelled index starts items ↔
      ∃ j < items.length, i = index + j ∧
        (i ∈ labelled ∨ j = 0 ∧ starts = true ∨
          ∃ k item, j = k + 1 ∧ items[k]? = some item ∧ item.opcode.transfersControl = true) := by
  induction items generalizing index starts with
  | nil => simp [Listing.leadersFrom]
  | cons item rest ih =>
      have hbehind (j : Nat) :
          (j = 0 ∧ item.opcode.transfersControl = true ∨ ∃ k item', j = k + 1 ∧
            rest[k]? = some item' ∧ item'.opcode.transfersControl = true) ↔
          ∃ k item', j + 1 = k + 1 ∧ (item :: rest)[k]? = some item' ∧
            item'.opcode.transfersControl = true := by
        cases j <;> simp
      have hlater : i ∈ Listing.leadersFrom labelled (index + 1) item.opcode.transfersControl rest ↔
          ∃ j < rest.length, i = index + (j + 1) ∧ (i ∈ labelled ∨ j + 1 = 0 ∧ starts = true ∨
            ∃ k item', j + 1 = k + 1 ∧ (item :: rest)[k]? = some item' ∧
              item'.opcode.transfersControl = true) := by
        rw [ih]
        refine exists_congr fun j => and_congr_right fun _ => ?_
        rw [hbehind, Nat.add_right_comm, Nat.add_assoc]
        simp
      have hfirst : i ∈ Listing.leadersFrom labelled index starts (item :: rest) ↔
          i = index ∧ (i ∈ labelled ∨ starts = true) ∨
            i ∈ Listing.leadersFrom labelled (index + 1) item.opcode.transfersControl rest := by
        rw [Listing.leadersFrom]
        split <;> grind
      rw [hfirst, hlater, List.length_cons, Nat.exists_lt_succ_left]
      simp

/-- Blocks start one behind the other. -/
theorem leadersFrom_sorted :
    (Listing.leadersFrom labelled index starts items).Pairwise (· < ·) ∧
      ∀ i ∈ Listing.leadersFrom labelled index starts items, index ≤ i := by
  induction items generalizing index starts with
  | nil => exact ⟨.nil, by simp [Listing.leadersFrom]⟩
  | cons item rest ih =>
      obtain ⟨hsorted, hbound⟩ := @ih (index + 1) item.opcode.transfersControl
      rw [Listing.leadersFrom]
      split
      · refine ⟨List.pairwise_cons.2 ⟨fun i hmem => hbound i hmem, hsorted⟩, fun i hmem => ?_⟩
        rcases List.mem_cons.1 hmem with rfl | hmem
        · exact le_rfl
        · exact Nat.le_of_succ_le (hbound i hmem)
      · exact ⟨hsorted, fun i hmem => Nat.le_of_succ_le (hbound i hmem)⟩

variable {lines : Listing}

/-- **Where blocks start.** -/
theorem mem_leaders_iff :
    i ∈ (Layout.ofListing lines).leaders ↔
      i < lines.items.length ∧ (i = 0 ∨ (∃ name, Binds lines name i) ∨
        ∃ k item, i = k + 1 ∧ lines.items[k]? = some item ∧
          item.opcode.transfersControl = true) := by
  change i ∈ Listing.leadersFrom (lines.labels.map Prod.snd) 0 true lines.items ↔ _
  rw [mem_leadersFrom, mem_labels_iff]
  constructor
  · rintro ⟨j, hlt, rfl, hat_label | ⟨rfl, -⟩ | hbehind⟩
    · exact ⟨by simpa using hlt, .inr (.inl hat_label)⟩
    · exact ⟨by simpa using hlt, .inl rfl⟩
    · exact ⟨by simpa using hlt, .inr (.inr (by simpa using hbehind))⟩
  · rintro ⟨hlt, rfl | hat_label | hbehind⟩
    · exact ⟨0, hlt, rfl, .inr (.inl ⟨rfl, rfl⟩)⟩
    · exact ⟨i, hlt, (Nat.zero_add i).symm, .inl hat_label⟩
    · exact ⟨i, hlt, (Nat.zero_add i).symm, .inr (.inr hbehind)⟩

theorem leaders_sorted :
    (Layout.ofListing lines).leaders.Pairwise (· < ·) :=
  leadersFrom_sorted.1

/-- The `k`-th of some numbers in order is at least `k`. -/
theorem le_of_getElem?_sorted
    {xs : List Nat}
    {k : Nat}
    (hsorted : xs.Pairwise (· < ·))
    (hthere : xs[k]? = some i) :
    k ≤ i := by
  induction k generalizing i with
  | zero => exact Nat.zero_le i
  | succ k ih =>
      obtain ⟨hlt, rfl⟩ := List.getElem?_eq_some_iff.1 hthere
      have hbefore := List.getElem?_eq_getElem (Nat.lt_of_succ_lt hlt)
      exact (ih hbefore).trans_lt (List.pairwise_iff_getElem.1 hsorted k (k + 1) _ hlt (by omega))

theorem length_filter_le
    {xs : List Nat}
    {k : Nat}
    (hsorted : xs.Pairwise (· < ·))
    (hthere : xs[k]? = some i) :
    (xs.filter (· ≤ i)).length = k + 1 := by
  induction xs generalizing k with
  | nil => cases hthere
  | cons x xs ih =>
      obtain ⟨habove, hsorted⟩ := List.pairwise_cons.1 hsorted
      cases k with
      | zero =>
          obtain rfl := Option.some.inj hthere
          have hnone : xs.filter (· ≤ x) = [] :=
            List.filter_eq_nil_iff.2 fun y hmem => by simpa using habove y hmem
          simp [hnone]
      | succ k =>
          have hle : x ≤ i := Nat.le_of_lt (habove i (List.mem_of_getElem? hthere))
          rw [List.filter_cons_of_pos (by simpa using hle), List.length_cons, ih hsorted hthere]

/-- **The number of the block that starts at an instruction.** -/
theorem blockOf_of_leader
    {k : Nat}
    (hthere : (Layout.ofListing lines).leaders[k]? = some i) :
    (Layout.ofListing lines).blockOf i = k := by
  rw [Layout.blockOf, length_filter_le leaders_sorted hthere, Nat.add_sub_cancel]

end Leaders

section Slices

variable {α : Type} {xs : List α} {x : α} {count first i k : Nat} {starts rest : List Nat}
variable {part : Nat × Nat}

/-- The parts from each start up to the next one, and from the last one up to the end. -/
def segments (count : Nat) : List Nat → List (Nat × Nat)
  | [] => []
  | first :: rest => (first, rest.head?.getD count) :: segments count rest

/-- A part of a list. -/
def slice (xs : List α) (part : Nat × Nat) : List α :=
  (xs.take part.2).drop part.1

theorem getElem?_segments
    (starts : List Nat) :
    (segments count starts)[k]? =
      starts[k]?.map fun first => (first, starts[k + 1]?.getD count) := by
  induction starts generalizing k with
  | nil => rfl
  | cons first rest ih =>
      cases k with
      | zero => simp [segments, List.head?_eq_getElem?]
      | succ k => simp [segments, ih]

theorem slice_append_drop
    {a b : Nat}
    (hle : a ≤ b) :
    slice xs (a, b) ++ xs.drop b = xs.drop a := by
  have hbehind : xs.drop b = (xs.drop a).drop (b - a) := by
    rw [List.drop_drop, Nat.add_sub_cancel' hle]
  rw [slice, List.drop_take, hbehind, List.take_append_drop]

/-- **The parts together are the whole.** -/
theorem flatMap_slice
    (hsorted : (first :: rest).Pairwise (· < ·))
    (hall : xs.length = count) :
    (segments count (first :: rest)).flatMap (slice xs) = xs.drop first := by
  induction rest generalizing first with
  | nil => simp [segments, slice, ← hall]
  | cons next rest ih =>
      obtain ⟨habove, hsorted⟩ := List.pairwise_cons.1 hsorted
      rw [segments, List.flatMap_cons, ih hsorted]
      exact slice_append_drop (Nat.le_of_lt (habove next List.mem_cons_self))

/-- A part goes from a start up to the next one. -/
theorem of_mem_segments
    (hsorted : starts.Pairwise (· < ·))
    (hbelow : ∀ i ∈ starts, i < count)
    (hmem : part ∈ segments count starts) :
    part.1 ∈ starts ∧ part.1 < part.2 ∧ part.2 ≤ count ∧
      ∀ i ∈ starts, i ≤ part.1 ∨ part.2 ≤ i := by
  induction starts with
  | nil => cases hmem
  | cons first rest ih =>
      obtain ⟨habove, hsorted⟩ := List.pairwise_cons.1 hsorted
      obtain ⟨hfirst_lt, hbelow⟩ := List.forall_mem_cons.1 hbelow
      rcases List.mem_cons.1 hmem with rfl | hmem
      · refine ⟨List.mem_cons_self, ?_⟩
        cases rest with
        | nil => exact ⟨hfirst_lt, le_rfl, by simp⟩
        | cons next rest =>
            have hnext_le (i : Nat) (hthere : i ∈ next :: rest) : next ≤ i := by
              rcases List.mem_cons.1 hthere with rfl | hthere
              · exact le_rfl
              · exact ((List.pairwise_cons.1 hsorted).1 i hthere).le
            refine ⟨habove next List.mem_cons_self, (hbelow next List.mem_cons_self).le, ?_⟩
            exact List.forall_mem_cons.2 ⟨.inl le_rfl, fun i hthere => .inr (hnext_le i hthere)⟩
      · obtain ⟨hstart, hlt, hle, hapart⟩ := ih hsorted hbelow hmem
        exact ⟨List.mem_cons_of_mem first hstart, hlt, hle,
          List.forall_mem_cons.2 ⟨.inl (habove part.1 hstart).le, hapart⟩⟩

theorem zipIdx_slice
    (xs : List α) :
    (slice xs part).zipIdx part.1 = slice xs.zipIdx part := by
  refine List.ext_getElem? fun i => ?_
  simp only [slice, List.getElem?_zipIdx, List.getElem?_drop, List.getElem?_take]
  split <;> simp

theorem getElem?_slice :
    (slice xs part)[k]? = if part.1 + k < part.2 then xs[part.1 + k]? else none := by
  rw [slice, List.getElem?_drop, List.getElem?_take]

theorem length_slice
    (hle : part.2 ≤ xs.length) :
    (slice xs part).length = part.2 - part.1 := by
  rw [slice, List.length_drop, List.length_take, Nat.min_eq_left hle]

theorem getLast?_slice
    (hlt : part.1 < part.2)
    (hthere : xs[part.2 - 1]? = some x) :
    (slice xs part).getLast? = some x := by
  have hwithin := (List.getElem?_eq_some_iff.1 hthere).1
  rw [List.getLast?_eq_getElem?, length_slice (by omega), getElem?_slice, if_pos (by omega),
    ← hthere]
  congr 1
  omega

theorem mem_slice_zipIdx :
    (x, i) ∈ slice xs.zipIdx part ↔ part.1 ≤ i ∧ i < part.2 ∧ xs[i]? = some x := by
  rw [← zipIdx_slice, List.mk_mem_zipIdx_iff_le_and_getElem?_sub, getElem?_slice]
  refine and_congr_right fun hle => ?_
  rw [Nat.add_sub_cancel' hle]
  split <;> simp_all

end Slices

section Parts

variable {α : Type} {xs : List α} {lines : Listing} {part : Nat × Nat} {index : Nat}
variable {item : ListingItem}

/-- The first block starts at the first instruction. -/
theorem head?_leaders :
    (Layout.ofListing lines).leaders.head?.getD lines.items.length = 0 := by
  have hzero_mem (hpos : 0 < lines.items.length) : 0 ∈ (Layout.ofListing lines).leaders :=
    mem_leaders_iff.2 ⟨hpos, .inl rfl⟩
  have hsorted := @leaders_sorted lines
  cases hleaders : (Layout.ofListing lines).leaders with
  | nil =>
      rw [hleaders] at hzero_mem
      exact Nat.eq_zero_of_not_pos fun hpos => by cases hzero_mem hpos
  | cons first rest =>
      have hfirst_mem : first ∈ (Layout.ofListing lines).leaders := by simp [hleaders]
      rw [hleaders] at hzero_mem hsorted
      rcases List.mem_cons.1 (hzero_mem (Nat.zero_lt_of_lt (mem_leaders_iff.1 hfirst_mem).1)) with
        rfl | hlater
      · rfl
      · exact absurd ((List.pairwise_cons.1 hsorted).1 0 hlater) (Nat.not_lt_zero first)

/-- The parts of a listing that become blocks. -/
def parts (lines : Listing) : List (Nat × Nat) :=
  segments lines.items.length (Layout.ofListing lines).leaders

/-- **The blocks together are the whole listing.** -/
theorem flatMap_slice_parts
    (hall : xs.length = lines.items.length) :
    (parts lines).flatMap (slice xs) = xs := by
  have head := @head?_leaders lines
  have hsorted := @leaders_sorted lines
  unfold parts
  cases hleaders : (Layout.ofListing lines).leaders with
  | nil =>
      rw [hleaders] at head
      rw [List.length_eq_zero_iff.1 (hall.trans head)]
      rfl
  | cons first rest =>
      rw [hleaders] at head hsorted
      obtain rfl : first = 0 := head
      exact flatMap_slice hsorted hall

/-- A part goes from the start of a block up to the next one. -/
structure IsPart (lines : Listing) (part : Nat × Nat) : Prop where
  leader : part.1 ∈ (Layout.ofListing lines).leaders
  lt : part.1 < part.2
  le : part.2 ≤ lines.items.length
  apart : ∀ i ∈ (Layout.ofListing lines).leaders, i ≤ part.1 ∨ part.2 ≤ i

theorem isPart_of_mem
    (hmem : part ∈ parts lines) :
    IsPart lines part := by
  obtain ⟨hleader, hlt, hle, hapart⟩ :=
    of_mem_segments leaders_sorted (fun _ hleader => (mem_leaders_iff.1 hleader).1) hmem
  exact ⟨hleader, hlt, hle, hapart⟩

theorem IsPart.exists_last
    (h : IsPart lines part) :
    ∃ last ∈ lines.items, lines.items[part.2 - 1]? = some last := by
  have hwithin : part.2 - 1 < lines.items.length :=
    (Nat.sub_lt (Nat.zero_lt_of_lt h.lt) Nat.one_pos).trans_le h.le
  exact ⟨_, List.getElem_mem hwithin, List.getElem?_eq_getElem hwithin⟩

/-- Only the last instruction of a part transfers control. -/
theorem IsPart.stop_of_transfersControl
    (h : IsPart lines part)
    (here : (item, index) ∈ slice lines.items.zipIdx part)
    (htransfers : item.opcode.transfersControl = true) :
    part.2 = index + 1 := by
  obtain ⟨hle, hlt, hthere⟩ := mem_slice_zipIdx.1 here
  refine le_antisymm ?_ hlt
  rcases Nat.lt_or_ge (index + 1) lines.items.length with hmore | hall
  · have hleader : index + 1 ∈ (Layout.ofListing lines).leaders :=
      mem_leaders_iff.2 ⟨hmore, .inr (.inr ⟨index, item, rfl, hthere, htransfers⟩)⟩
    rcases h.apart (index + 1) hleader with hbefore | hafter
    · omega
    · exact hafter
  · exact h.le.trans hall

theorem exists_part
    (hthere : lines.items[index]? = some item) :
    ∃ part ∈ parts lines, (item, index) ∈ slice lines.items.zipIdx part := by
  have hentry : (item, index) ∈ lines.items.zipIdx := List.mk_mem_zipIdx_iff_getElem?.2 hthere
  rw [← flatMap_slice_parts List.length_zipIdx] at hentry
  exact List.mem_flatMap.1 hentry

end Parts

end Bytecode
end DalvikDecompiler
