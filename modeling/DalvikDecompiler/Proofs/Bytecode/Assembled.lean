import DalvikDecompiler.Proofs.Bytecode.Assembly

/-!
# What a listing is assembled to

**Input.** A listing in which exactly the instructions that jump, branch or switch have targets, and
whose offsets are less than 2³¹.

**Results.**
* `assemble_lays`: the blocks are the listing, in order, cut in front of the labels and behind the
  transfers of control, and what they say of offsets, children and protected ranges agrees.
-/

namespace DalvikDecompiler
namespace Bytecode

/-- The number of instructions in front of a block. -/
def firstOf (blocks : List Block) (k : Nat) : Nat :=
  sizeBefore (fun block => block.instructions.length) blocks k

/-- A place names the block that starts at an instruction. -/
def Starts (blocks : List Block) (index : Nat) (place : UInt32 × UInt64) : Prop :=
  ∃ block, blocks[place.2.toNat]? = some block ∧ firstOf blocks place.2.toNat = index ∧
    block.start = place.1

/-- A place names the block that starts at a label. -/
def Leads (lines : Listing) (blocks : List Block) (name : String) (place : UInt32 × UInt64) :
    Prop :=
  ∃ index, Reaches lines name index ∧ Starts blocks index place

/-- What an instruction of a listing, with its index, becomes. -/
structure Encodes (lines : Listing) (blocks : List Block) (entry : ListingItem × Nat)
    (ins : Instruction) : Prop where
  opcode : ins.opcode = entry.1.opcode
  operands : ins.operands = entry.1.operands
  offset : ins.offset.toNat = startOf lines.items entry.2
  length : ins.length.toNat = entry.1.opcode.codeUnits
  /-- A label as the target is the start of a block. -/
  target : ∀ name, entry.1.target = .label name →
    ∃ place, Leads lines blocks name place ∧ ins.targetOffset = some place.1
  straight : (∀ name, entry.1.target ≠ .label name) → ins.targetOffset = none

/-- What a block says of its part of a listing. -/
structure Holds (lines : Listing) (methodName : String) (blocks : List Block) (k : Nat)
    (block : Block) : Prop where
  name : block.name = methodName ++ "-BB@" ++ Text.hex block.start.toNat
  start : block.start.toNat = startOf lines.items (firstOf blocks k)
  stop : block.stop.toNat = startOf lines.items (firstOf blocks (k + 1))
  nonempty : block.instructions ≠ []
  /-- Only the last instruction transfers control. -/
  last : ∀ j ins, block.instructions[j]? = some ins → ins.opcode.transfersControl = true →
    j + 1 = block.instructions.length
  /-- The children are what control can run on to and then the targets. -/
  children : ∃ item next targets, lines.items[firstOf blocks (k + 1) - 1]? = some item ∧
    List.Forall₂ (Starts blocks) (behind lines (firstOf blocks (k + 1)) item.opcode) next ∧
    List.Forall₂ (Leads lines blocks) item.target.names targets ∧
    block.children = next ++ targets

/-- What a protected range of a listing becomes. -/
structure Guards (lines : Listing) (blocks : List Block) (protection : Protection)
    (range : ProtectedRange) : Prop where
  start : ∃ index, Binds lines protection.start index ∧
    range.start.toNat = startOf lines.items index
  stop : ∃ index, Binds lines protection.stop index ∧ range.stop.toNat = startOf lines.items index
  handlers : List.Forall₂ (fun handler h => h.exceptionType = handler.1 ∧
    ∃ start, Leads lines blocks handler.2 (start, h.block)) protection.handlers range.handlers

/-- Blocks and protected ranges are those of a listing. -/
structure Lays (lines : Listing) (methodName : String) (blocks : List Block)
    (table : ExceptionTable) : Prop where
  instructions : List.Forall₂ (Encodes lines blocks) lines.items.zipIdx
    (blocks.flatMap Block.instructions)
  holds : ∀ k block, blocks[k]? = some block → Holds lines methodName blocks k block
  contiguous : ∀ k block next, blocks[k]? = some block → blocks[k + 1]? = some next →
    block.stop = next.start
  increasing : blocks.Pairwise fun block next => block.start < next.start
  /-- A block starts at each label in front of an instruction. -/
  labels : ∀ name index, Reaches lines name index → ∃ place, Starts blocks index place
  /-- A block starts behind each transfer of control. -/
  transfers : ∀ index item, lines.items[index]? = some item →
    item.opcode.transfersControl = true → index + 1 < lines.items.length →
    ∃ place, Starts blocks (index + 1) place
  ranges : List.Forall₂ (Guards lines blocks) (protections lines) table.ranges
  /-- A range protects all instructions of a block or none. -/
  whole : ∀ range ∈ table.ranges, ∀ block ∈ blocks,
    (∀ ins ∈ block.instructions, range.start ≤ ins.offset ∧ ins.offset < range.stop) ∨
      ∀ ins ∈ block.instructions, ¬ (range.start ≤ ins.offset ∧ ins.offset < range.stop)

section Offsets

variable {items : List ListingItem} {index : Nat}

/-- The offsets of all instructions are less than 2³¹. -/
def Fits (items : List ListingItem) : Prop :=
  ∀ index < items.length, startOf items index < 2 ^ 31

theorem Fits.end
    (hfits : Fits items)
    (hle : index ≤ items.length) :
    startOf items index < 2 ^ 32 := by
  cases index with
  | zero => simp
  | succ index =>
      obtain ⟨item, hthere⟩ : ∃ item, items[index]? = some item := ⟨_, List.getElem?_eq_getElem hle⟩
      have hshort := codeUnits_le item.opcode
      have hbefore := hfits index hle
      rw [startOf_succ hthere]
      omega

end Offsets

section Places

variable {lines : Listing} {methodName name : String} {blocks : List Block} {block : Block}
variable {index i j k : Nat} {item : ListingItem} {ins : Instruction} {part : Nat × Nat}

theorem toNat_offsetAt
    (hfits : Fits lines.items)
    (hle : index ≤ lines.items.length) :
    (UInt32.ofNat ((Layout.ofListing lines).offsetAt index)).toNat = startOf lines.items index := by
  rw [offsetAt_ofListing hle]
  exact UInt32.toNat_ofNat_of_lt' (hfits.end hle)

theorem firstOf_succ
    (hthere : blocks[k]? = some block) :
    firstOf blocks (k + 1) = firstOf blocks k + block.instructions.length :=
  sizeBefore_succ hthere

theorem IsPart.length_instructions
    (h : IsPart lines part)
    (hdone : (Layout.ofListing lines).block methodName part.1 part.2 = .ok block) :
    block.instructions.length = part.2 - part.1 := by
  obtain ⟨-, -, -, instructions, children, hdecoded, -, rfl⟩ := h.exists_of_block hdone
  rw [← hdecoded.length_eq, length_slice (h.le.trans_eq List.length_zipIdx.symm)]

theorem targetOffset_of_decode
    (hfits : Fits lines.items)
    (hlt : index < lines.items.length)
    (hlt' : i < lines.items.length)
    (hoffset : ins.offset = UInt32.ofNat ((Layout.ofListing lines).offsetAt index))
    (hdistance : ins.branchDistance = some (Int32.ofInt
      (((Layout.ofListing lines).offsetAt i : Int) - (Layout.ofListing lines).offsetAt index))) :
    ins.targetOffset = some ((Layout.ofListing lines).place i).1 := by
  have here := hfits index hlt
  have hthere := hfits i hlt'
  have hexact_distance : (Int32.ofInt (((Layout.ofListing lines).offsetAt i : Int) -
      (Layout.ofListing lines).offsetAt index)).toInt =
      (startOf lines.items i : Int) - startOf lines.items index := by
    rw [offsetAt_ofListing hlt.le, offsetAt_ofListing hlt'.le]
    exact Int32.toInt_ofInt_of_le (by omega) (by omega)
  have hsum : (startOf lines.items index : Int) +
      ((startOf lines.items i : Int) - startOf lines.items index) = startOf lines.items i := by
    omega
  unfold Instruction.targetOffset
  rw [hdistance, Option.bind_some, hexact_distance, hoffset, toNat_offsetAt hfits hlt.le]
  simp only [hsum]
  rw [if_pos (by omega), Int.toNat_natCast, Layout.place, offsetAt_ofListing hlt'.le]

variable (hlaid : List.Forall₂
  (fun part block => (Layout.ofListing lines).block methodName part.1 part.2 = .ok block)
  (parts lines) blocks)

include hlaid

theorem exists_leader
    (hthere : blocks[k]? = some block) :
    ∃ first stop, (Layout.ofListing lines).leaders[k]? = some first ∧
      (Layout.ofListing lines).leaders[k + 1]?.getD lines.items.length = stop ∧
      IsPart lines (first, stop) ∧
      (Layout.ofListing lines).block methodName first stop = .ok block := by
  obtain ⟨part, here, hdone⟩ := exists_of_forall₂ hlaid hthere
  have hpart := isPart_of_mem (List.mem_of_getElem? here)
  rw [parts, getElem?_segments] at here
  obtain ⟨first, hleader, rfl⟩ := Option.map_eq_some_iff.1 here
  exact ⟨first, _, hleader, rfl, hpart, hdone⟩

/-- Blocks start at the leaders. -/
theorem firstOf_eq
    (hle : k ≤ blocks.length) :
    firstOf blocks k = (Layout.ofListing lines).leaders[k]?.getD lines.items.length := by
  induction k with
  | zero => rw [← List.head?_eq_getElem?, head?_leaders, firstOf, sizeBefore]; rfl
  | succ k ih =>
      have hthere := List.getElem?_eq_getElem hle
      obtain ⟨first, stop, hleader, hnext, hpart, hdone⟩ := exists_leader hlaid hthere
      rw [firstOf_succ hthere, hpart.length_instructions hdone, ih (Nat.le_of_succ_le hle), hleader,
        hnext]
      exact Nat.add_sub_cancel' hpart.lt.le

/-- **What is laid out as a block.** -/
theorem block_of_getElem?
    (hthere : blocks[k]? = some block) :
    (Layout.ofListing lines).leaders[k]? = some (firstOf blocks k) ∧
      IsPart lines (firstOf blocks k, firstOf blocks (k + 1)) ∧
      (Layout.ofListing lines).block methodName (firstOf blocks k) (firstOf blocks (k + 1)) =
        .ok block := by
  have hlt := (List.getElem?_eq_some_iff.1 hthere).1
  obtain ⟨first, stop, hleader, hnext, hpart, hdone⟩ := exists_leader hlaid hthere
  have hfirst_eq : firstOf blocks k = first := by rw [firstOf_eq hlaid hlt.le, hleader]; rfl
  rw [hfirst_eq, firstOf_eq hlaid hlt, hnext]
  exact ⟨hleader, hpart, hdone⟩

/-- **The place of a leader names the block that starts there.** -/
theorem starts_of_leader
    (hfits : Fits lines.items)
    (hleader : i ∈ (Layout.ofListing lines).leaders) :
    Starts blocks i ((Layout.ofListing lines).place i) := by
  obtain ⟨k, hthere⟩ := List.mem_iff_getElem?.1 hleader
  have hwithin := (mem_leaders_iff.1 hleader).1
  have hnumber : ((Layout.ofListing lines).place i).2.toNat = k := by
    have hk_le := le_of_getElem?_sorted leaders_sorted hthere
    have hi_le := le_startOf hwithin.le
    have hbound := hfits i hwithin
    change (UInt64.ofNat ((Layout.ofListing lines).blockOf i)).toNat = k
    rw [blockOf_of_leader hthere]
    exact UInt64.toNat_ofNat_of_lt' (by change k < 2 ^ 64; omega)
  have hlt : k < blocks.length := by
    have here : (parts lines)[k]? =
        some (i, (Layout.ofListing lines).leaders[k + 1]?.getD lines.items.length) := by
      rw [parts, getElem?_segments, hthere]
      rfl
    rw [← hlaid.length_eq]
    exact (List.getElem?_eq_some_iff.1 here).1
  have hat_k := List.getElem?_eq_getElem hlt
  obtain ⟨hleader', hpart, hdone⟩ := block_of_getElem? hlaid hat_k
  have hfirst_eq : firstOf blocks k = i := Option.some.inj (hleader'.symm.trans hthere)
  obtain ⟨-, -, -, instructions, children, -, -, hsame⟩ := hpart.exists_of_block hdone
  unfold Starts
  rw [hnumber]
  refine ⟨_, hat_k, hfirst_eq, ?_⟩
  rw [hsame, hfirst_eq]
  rfl

omit hlaid in
theorem leader_of_reaches
    (hreaches : Reaches lines name i) :
    i ∈ (Layout.ofListing lines).leaders :=
  mem_leaders_iff.2 ⟨hreaches.2, .inr (.inl ⟨name, hreaches.1⟩)⟩

theorem leads_of_reaches
    (hfits : Fits lines.items)
    (hreaches : Reaches lines name i) :
    Leads lines blocks name ((Layout.ofListing lines).place i) :=
  ⟨i, hreaches, starts_of_leader hlaid hfits (leader_of_reaches hreaches)⟩

/-- **What an instruction becomes.** -/
theorem encodes_of_decode
    (hfits : Fits lines.items)
    (hthere : lines.items[index]? = some item)
    (hdone : (Layout.ofListing lines).decode index item = .ok ins) :
    Encodes lines blocks (item, index) ins := by
  have hlt := (List.getElem?_eq_some_iff.1 hthere).1
  have hshort : item.opcode.codeUnits < 2 ^ 32 :=
    (codeUnits_le item.opcode).trans_lt (by decide)
  obtain ⟨distance, rfl, hbranches⟩ := decode_eq_ok_iff.1 hdone
  refine ⟨rfl, rfl, toNat_offsetAt hfits hlt.le, UInt32.toNat_ofNat_of_lt' hshort, ?_, ?_⟩
  · intro name htarget
    simp only [show item.target = .label name from htarget] at hbranches
    obtain ⟨i, hreaches, hsame⟩ := hbranches
    exact ⟨_, leads_of_reaches hlaid hfits hreaches,
      targetOffset_of_decode hfits hlt hreaches.2 rfl hsame⟩
  · intro hstraight
    have hnone : distance = none := by
      cases htarget : item.target with
      | none => simpa [htarget] using hbranches
      | cases names => simpa [htarget] using hbranches
      | label name => exact absurd htarget (hstraight name)
    rw [Instruction.targetOffset, hnone]
    rfl

theorem encodes_block
    (hfits : Fits lines.items)
    (hpart : IsPart lines part)
    (hdone : (Layout.ofListing lines).block methodName part.1 part.2 = .ok block) :
    List.Forall₂ (Encodes lines blocks) (slice lines.items.zipIdx part) block.instructions := by
  obtain ⟨-, -, -, instructions, children, hdecoded, -, rfl⟩ := hpart.exists_of_block hdone
  have hlisted := (List.forall₂_and_left _ _).2 ⟨fun _ here => here, hdecoded⟩
  refine hlisted.imp fun entry ins here => ?_
  exact encodes_of_decode hlaid hfits (mem_slice_zipIdx.1 here.1).2.2 here.2

/-- **The instructions of the blocks are those of the listing, in order.** -/
theorem encodes_instructions
    (hfits : Fits lines.items) :
    List.Forall₂ (Encodes lines blocks) lines.items.zipIdx (blocks.flatMap Block.instructions) := by
  have hlisted := (List.forall₂_and_left _ _).2 ⟨fun _ here => here, hlaid⟩
  have hencoded := hlisted.imp fun part block here =>
    encodes_block hlaid hfits (isPart_of_mem here.1) here.2
  rw [← flatMap_slice_parts List.length_zipIdx]
  exact List.rel_flatMap hencoded fun _ _ hsame => hsame

/-- The instruction with a number in a block, and its index in the listing. -/
theorem encodes_getElem?
    (hfits : Fits lines.items)
    (hthere : blocks[k]? = some block)
    (here : block.instructions[j]? = some ins) :
    ∃ item, (item, firstOf blocks k + j) ∈
        slice lines.items.zipIdx (firstOf blocks k, firstOf blocks (k + 1)) ∧
      Encodes lines blocks (item, firstOf blocks k + j) ins := by
  obtain ⟨-, hpart, hdone⟩ := block_of_getElem? hlaid hthere
  obtain ⟨entry, hat_j, hencodes⟩ := exists_of_forall₂ (encodes_block hlaid hfits hpart hdone) here
  obtain ⟨item, index⟩ := entry
  have hsame : index = firstOf blocks k + j := by
    rw [← zipIdx_slice, List.getElem?_zipIdx] at hat_j
    obtain ⟨_, -, heq⟩ := Option.map_eq_some_iff.1 hat_j
    exact (Prod.mk.inj heq).2.symm
  subst hsame
  exact ⟨item, List.mem_of_getElem? hat_j, hencodes⟩

theorem leader_of_mem_behind
    {opcode : Opcode}
    (hlt : k < blocks.length)
    (hfollows : i ∈ behind lines (firstOf blocks (k + 1)) opcode) :
    i ∈ (Layout.ofListing lines).leaders := by
  unfold behind at hfollows
  split at hfollows
  case isFalse => cases hfollows
  case isTrue hmore =>
    obtain rfl := List.mem_singleton.1 hfollows
    have hnext := firstOf_eq hlaid hlt
    cases hleader : (Layout.ofListing lines).leaders[k + 1]? with
    | none => exact absurd hnext (by rw [hleader]; exact hmore.2.ne)
    | some first =>
        rw [hnext, hleader]
        exact List.mem_of_getElem? hleader

/-- **What a block says of its part of the listing.** -/
theorem holds_of_getElem?
    (hfits : Fits lines.items)
    (htargeted : ∀ item ∈ lines.items, item.Targeted)
    (hthere : blocks[k]? = some block) :
    Holds lines methodName blocks k block := by
  obtain ⟨-, hpart, hdone⟩ := block_of_getElem? hlaid hthere
  have hfirst_le := hpart.lt.le.trans hpart.le
  have hlength := hpart.length_instructions hdone
  have hstart_eq := toNat_offsetAt hfits hfirst_le
  obtain ⟨last, hlast_mem, hat_stop, instructions, children, -, hknown, hsame⟩ :=
    hpart.exists_of_block hdone
  obtain ⟨-, targets, hreach, hchildren_eq⟩ :=
    (childrenOf_eq_ok_iff (htargeted last hlast_mem)).1 hknown
  constructor
  case name =>
    rw [hsame]
    change _ = methodName ++ "-BB@" ++ Text.hex (UInt32.ofNat _).toNat
    rw [hstart_eq, offsetAt_ofListing hfirst_le]
  case start => rw [hsame]; exact hstart_eq
  case stop => rw [hsame]; exact toNat_offsetAt hfits hpart.le
  case nonempty =>
    rintro hnone
    rw [hnone] at hlength
    exact absurd hlength.symm (Nat.sub_ne_zero_of_lt hpart.lt)
  case last =>
    intro j ins here htransfers
    obtain ⟨item, hmem', hencodes⟩ := encodes_getElem? hlaid hfits hthere here
    have hstop_eq := hpart.stop_of_transfersControl hmem' (hencodes.opcode ▸ htransfers)
    simp only at hstop_eq hlength
    omega
  case children =>
    refine ⟨last, (behind lines (firstOf blocks (k + 1)) last.opcode).map
      (Layout.ofListing lines).place, targets.map (Layout.ofListing lines).place, hat_stop, ?_, ?_,
      ?_⟩
    · rw [List.forall₂_map_right_iff, List.forall₂_same]
      exact fun i hfollows => starts_of_leader hlaid hfits
        (leader_of_mem_behind hlaid (List.getElem?_eq_some_iff.1 hthere).1 hfollows)
    · rw [List.forall₂_map_right_iff]
      exact hreach.imp fun name i hreaches => leads_of_reaches hlaid hfits hreaches
    · rw [hsame, ← List.map_append, ← hchildren_eq]

theorem firstOf_lt
    {next : Block}
    (hlt : j < k)
    (hthere : blocks[j]? = some block)
    (hthere' : blocks[k]? = some next) :
    firstOf blocks j < firstOf blocks k := by
  obtain ⟨hwithin, hsame⟩ := List.getElem?_eq_some_iff.1 (block_of_getElem? hlaid hthere).1
  obtain ⟨hwithin', hsame'⟩ := List.getElem?_eq_some_iff.1 (block_of_getElem? hlaid hthere').1
  rw [← hsame, ← hsame']
  exact List.pairwise_iff_getElem.1 leaders_sorted j k hwithin hwithin' hlt

/-- **What a protected range becomes.** -/
theorem guards_of_ranges
    (hfits : Fits lines.items)
    {ranges : List ProtectedRange}
    (hknown : (Layout.ofListing lines).ranges lines = .ok ranges) :
    List.Forall₂ (Guards lines blocks) (protections lines) ranges := by
  refine (ranges_eq_ok_iff.1 hknown).imp fun protection range here => ?_
  obtain ⟨first, stop, handlers, hbinds, hbinds', handled, rfl⟩ := here
  refine ⟨⟨first, hbinds, toNat_offsetAt hfits hbinds.le⟩,
    ⟨stop, hbinds', toNat_offsetAt hfits hbinds'.le⟩,
    (mapM_eq_ok_iff.1 handled).imp fun handler h hdone => ?_⟩
  obtain ⟨i, hreaches, rfl⟩ := handler_eq_ok_iff.1 hdone
  exact ⟨rfl, _, leads_of_reaches hlaid hfits hreaches⟩

/-- **A range between labels protects all instructions of a block or none.** -/
theorem all_or_none
    (hfits : Fits lines.items)
    {range : ProtectedRange}
    {protection : Protection}
    (hguards : Guards lines blocks protection range)
    (hthere : blocks[k]? = some block) :
    (∀ ins ∈ block.instructions, range.start ≤ ins.offset ∧ ins.offset < range.stop) ∨
      ∀ ins ∈ block.instructions, ¬ (range.start ≤ ins.offset ∧ ins.offset < range.stop) := by
  obtain ⟨first, hbinds, hstart_eq⟩ := hguards.start
  obtain ⟨stop, hbinds', hstop_eq⟩ := hguards.stop
  obtain ⟨-, hpart, -⟩ := block_of_getElem? hlaid hthere
  -- the labels of the range are no farther in than the ends of the block
  have houtside {name : String} {i : Nat} (hbinds : Binds lines name i) :
      i ≤ firstOf blocks k ∨ firstOf blocks (k + 1) ≤ i := by
    rcases hbinds.le.lt_or_eq with hlt | rfl
    · exact hpart.apart i (leader_of_reaches ⟨hbinds, hlt⟩)
    · exact .inr hpart.le
  have hinside (ins : Instruction) (here : ins ∈ block.instructions) :
      (range.start ≤ ins.offset ∧ ins.offset < range.stop) ↔
        first ≤ firstOf blocks k ∧ firstOf blocks (k + 1) ≤ stop := by
    obtain ⟨j, hat_j⟩ := List.mem_iff_getElem?.1 here
    obtain ⟨item, hmem', hencodes⟩ := encodes_getElem? hlaid hfits hthere hat_j
    obtain ⟨hfrom_first, hto_stop, hitem_there⟩ := mem_slice_zipIdx.1 hmem'
    have hlt := (List.getElem?_eq_some_iff.1 hitem_there).1
    have hstart_iff := (startOf_lt_startOf_iff hlt.le hbinds.le).not
    have hstop_iff := startOf_lt_startOf_iff hlt.le hbinds'.le
    rw [UInt32.le_iff_toNat_le, UInt32.lt_iff_toNat_lt, hstart_eq, hstop_eq, hencodes.offset,
      ← Nat.not_lt, hstart_iff, hstop_iff]
    have haround := houtside hbinds
    have haround' := houtside hbinds'
    simp only at hfrom_first hto_stop
    omega
  by_cases hall : first ≤ firstOf blocks k ∧ firstOf blocks (k + 1) ≤ stop
  · exact .inl fun ins here => (hinside ins here).2 hall
  · exact .inr fun ins here => hall ∘ (hinside ins here).1

end Places

variable {lines : Listing} {methodName : String} {blocks : List Block} {table : ExceptionTable}

/-- **What a listing is assembled to.** -/
theorem lays_of_assemble
    (htargeted : ∀ item ∈ lines.items, item.Targeted)
    (hfits : Fits lines.items)
    (hdone : lines.assemble methodName = .ok (blocks, table)) :
    Lays lines methodName blocks table := by
  obtain ⟨hall, hknown⟩ := assemble_eq_ok_iff.1 hdone
  have hlaid := blocks_leaders_eq_ok_iff.1 hall
  have holds (k : Nat) (block : Block) (hthere : blocks[k]? = some block) :=
    holds_of_getElem? hlaid hfits htargeted hthere
  have hguards := guards_of_ranges hlaid hfits hknown
  constructor
  case instructions => exact encodes_instructions hlaid hfits
  case holds => exact holds
  case contiguous =>
    intro k block next hthere hthere'
    exact UInt32.toNat_inj.1
      ((holds k block hthere).stop.trans (holds (k + 1) next hthere').start.symm)
  case increasing =>
    refine List.pairwise_iff_getElem.2 fun j k hj hk hlt => ?_
    have hthere := List.getElem?_eq_getElem hj
    have hthere' := List.getElem?_eq_getElem hk
    have hleader := List.mem_of_getElem? (block_of_getElem? hlaid hthere').1
    rw [UInt32.lt_iff_toNat_lt, (holds j _ hthere).start, (holds k _ hthere').start]
    exact startOf_lt (firstOf_lt hlaid hlt hthere hthere') (mem_leaders_iff.1 hleader).1.le
  case labels =>
    intro name index hreaches
    exact ⟨_, starts_of_leader hlaid hfits (leader_of_reaches hreaches)⟩
  case transfers =>
    intro index item hthere htransfers hmore
    exact ⟨_, starts_of_leader hlaid hfits
      (mem_leaders_iff.2 ⟨hmore, .inr (.inr ⟨index, item, rfl, hthere, htransfers⟩)⟩)⟩
  case ranges => exact hguards
  case whole =>
    intro range hrange_mem block hblock_mem
    obtain ⟨k, hthere⟩ := List.mem_iff_getElem?.1 hblock_mem
    obtain ⟨i, hat_i⟩ := List.mem_iff_getElem?.1 hrange_mem
    obtain ⟨protection, -, here⟩ := exists_of_forall₂ hguards hat_i
    exact all_or_none hlaid hfits here hthere

/-- **A listing is assembled to blocks that lay out its control flow, or it uses a label that is not
defined, goes to one that no instruction follows, or ends with a branch or a switch.**  Each label
with an instruction behind it starts a block; one behind the last instruction starts none. -/
theorem assemble_lays_out
    (htargeted : ∀ item ∈ lines.items, item.Targeted)
    (hfits : Fits lines.items) :
    (∀ blocks table, lines.assemble methodName = .ok (blocks, table) →
      Lays lines methodName blocks table) ∧
    ((∃ e, lines.assemble methodName = .error e) ↔
      (∃ name, Uses lines name ∧ ∀ i, ¬ Binds lines name i) ∨
      (∃ name, Enters lines name ∧ Binds lines name lines.items.length) ∨
      ∃ last, lines.items.getLast? = some last ∧
        (last.opcode.isConditional = true ∨ last.opcode.isSwitch = true)) :=
  ⟨fun _ _ hdone => lays_of_assemble htargeted hfits hdone, exists_assemble_error_iff htargeted⟩

/-- A loop that is left for a handler, with a label behind its last instruction. -/
def countdown : Listing :=
  [.label "loop", .branch .ifEqz [0] "out", .binaryLiteral .addIntLit8 0 0 (-1),
    .branch .goto [] "loop", .label "out", .op .returnVoid [], .label "end",
    .protect "loop" "out" [(none, "out")], .protect "out" "end" []]

theorem assemble_lays_out_countdown :
    ∃ blocks table, countdown.assemble "f" = .ok (blocks, table) ∧
      blocks.map Block.start = [0, 2, 5] ∧ Lays countdown "f" blocks table := by
  have htargeted : ∀ item ∈ countdown.items, item.Targeted := by
    simp [countdown, Listing.items, Line.branch, Line.binaryLiteral, Line.op, Line.raw,
      ListingItem.Targeted]
    decide
  have hfits : Fits countdown.items := by
    unfold Fits
    decide
  have hstarts : (countdown.assemble "f").toOption.map (fun out => out.1.map Block.start) =
      some [0, 2, 5] := by decide +kernel
  obtain ⟨⟨blocks, table⟩, hdone⟩ : ∃ out, countdown.assemble "f" = .ok out := ⟨_, rfl⟩
  rw [hdone] at hstarts
  refine ⟨blocks, table, hdone, ?_, (assemble_lays_out htargeted hfits).1 blocks table hdone⟩
  simpa [Except.toOption] using hstarts

/-- A body that ends with the label of the end of a protected range. -/
def endLabel : Listing :=
  [.label "start", .op .returnVoid [], .label "end", .protect "start" "end" []]

/-- No block starts at a label behind the last instruction. -/
theorem assemble_endLabel :
    (∀ item ∈ endLabel.items, item.Targeted) ∧ Fits endLabel.items ∧ Uses endLabel "end" ∧
      Binds endLabel "end" 1 ∧ ∃ blocks table, endLabel.assemble "f" = .ok (blocks, table) ∧
        (∀ place, ¬ Starts blocks 1 place) ∧
        ∀ block ∈ blocks, block.start.toNat ≠ startOf endLabel.items 1 := by
  have htargeted : ∀ item ∈ endLabel.items, item.Targeted := by
    simp [endLabel, Listing.items, Line.op, Line.raw, ListingItem.Targeted]
    decide
  have hfits : Fits endLabel.items := by
    unfold Fits
    decide
  have huses : Uses endLabel "end" :=
    .inr ⟨⟨"start", "end", []⟩, by simp [protections, endLabel], .inr rfl⟩
  have hbinds : Binds endLabel "end" 1 :=
    lookup_labels_iff.1 (by cbv)
  have hdone : endLabel.assemble "f" =
      .ok ([⟨"f-BB@0x0", 0, 1, [⟨.returnVoid, [], 0, 1, none⟩], []⟩], ⟨[⟨0, 1, []⟩]⟩) := by rfl
  refine ⟨htargeted, hfits, huses, hbinds, _, _, hdone, ?_, by decide⟩
  rintro place ⟨block, hthere, hfirst, -⟩
  obtain ⟨hlt, -⟩ := List.getElem?_eq_some_iff.1 hthere
  have hnumber : place.2.toNat = 0 := Nat.lt_one_iff.1 hlt
  rw [hnumber] at hfirst
  exact absurd hfirst (by decide)

end Bytecode
end DalvikDecompiler
