import DalvikDecompiler.Proofs.Bytecode.Layout

/-!
# Assembled listings

**Input.** A listing in which exactly the instructions that jump, branch or switch have targets.

**Results.**
* `decode_eq_ok_iff`, `childrenOf_eq_ok_iff`, `block_eq_ok_iff`, `ranges_eq_ok_iff`: when a part of
  a listing can be laid out, and as what.
* `exists_assemble_error_iff`: when a listing cannot be assembled.
-/

namespace DalvikDecompiler
namespace Bytecode

section Results

variable {ε α β : Type} {f : α → Except ε β} {xs : List α} {ys : List β}

theorem bind_eq_ok_iff
    {x : Except ε α}
    {b : β} :
    x >>= f = .ok b ↔ ∃ a, x = .ok a ∧ f a = .ok b := by
  cases x with
  | error e => simp [bind, Except.bind]
  | ok a => simp [bind, Except.bind]

theorem mapM_eq_ok_iff :
    xs.mapM f = .ok ys ↔ List.Forall₂ (fun x y => f x = .ok y) xs ys := by
  induction xs generalizing ys with
  | nil =>
      rw [List.mapM_nil, List.forall₂_nil_left_iff]
      exact ⟨fun hsame => (Except.ok.inj hsame).symm, fun hsame => hsame ▸ rfl⟩
  | cons x xs ih =>
      simp only [List.mapM_cons, bind_eq_ok_iff, ih, List.forall₂_cons_left_iff]
      constructor
      · rintro ⟨y, hfirst, rest, hall, hsame⟩
        exact ⟨y, rest, hfirst, hall, (Except.ok.inj hsame).symm⟩
      · rintro ⟨y, rest, hfirst, hall, rfl⟩
        exact ⟨y, hfirst, rest, hall, rfl⟩

theorem exists_forall₂_iff
    {R : α → β → Prop} :
    (∃ ys, List.Forall₂ R xs ys) ↔ ∀ x ∈ xs, ∃ y, R x y := by
  induction xs with
  | nil => exact ⟨fun _ => nofun, fun _ => ⟨[], .nil⟩⟩
  | cons x xs ih =>
      rw [List.forall_mem_cons, ← ih]
      constructor
      · rintro ⟨ys, hall⟩
        obtain ⟨y, rest, hfirst, hothers, rfl⟩ := List.forall₂_cons_left_iff.1 hall
        exact ⟨⟨y, hfirst⟩, rest, hothers⟩
      · rintro ⟨⟨y, hfirst⟩, ys, hrest⟩
        exact ⟨y :: ys, .cons hfirst hrest⟩

theorem exists_of_forall₂
    {R : α → β → Prop}
    {y : β}
    {k : Nat}
    (hall : List.Forall₂ R xs ys)
    (hthere : ys[k]? = some y) :
    ∃ x, xs[k]? = some x ∧ R x y := by
  induction hall generalizing k with
  | nil => cases hthere
  | cons hfirst hrest ih =>
      cases k with
      | zero =>
          obtain rfl := Option.some.inj hthere
          exact ⟨_, rfl, hfirst⟩
      | succ k => exact ih hthere

theorem exists_error_iff
    {x : Except ε α} :
    (∃ e, x = .error e) ↔ ¬ ∃ a, x = .ok a := by
  cases x <;> simp

end Results

/-- The labels of a target. -/
def Target.names : Target → List String
  | .none => []
  | .label name => [name]
  | .cases names => names

/-- Whether an instruction is followed by the next one, among others. -/
def fallsThrough (opcode : Opcode) : Bool :=
  !(opcode.isGoto || opcode.isReturn || opcode.isThrow)

/-- An instruction has a target if and only if it jumps, branches or switches, and only a switch has
a table of them. -/
def ListingItem.Targeted (item : ListingItem) : Prop :=
  match item.target with
  | .none =>
      item.opcode.isGoto = false ∧ item.opcode.isConditional = false ∧ item.opcode.isSwitch = false
  | .label _ =>
      item.opcode.isGoto = true ∨ item.opcode.isConditional = true ∨ item.opcode.isSwitch = true
  | .cases _ => item.opcode.isSwitch = true

/-- A label stands for an instruction. -/
def Reaches (lines : Listing) (name : String) (index : Nat) : Prop :=
  Binds lines name index ∧ index < lines.items.length

section Parts

variable {lines : Listing} {name : String} {index stop : Nat} {item last : ListingItem}
variable {place : UInt32 × UInt64} {children : List (UInt32 × UInt64)} {ins : Instruction}

theorem requireLabel_eq_ok_iff :
    (Layout.ofListing lines).requireLabel name = .ok index ↔ Binds lines name index := by
  have hlabels : (Layout.ofListing lines).labels = lines.labels := rfl
  rw [← lookup_labels_iff, Layout.requireLabel, hlabels]
  cases lines.labels.lookup name <;> simp

theorem targetIndex_eq_ok_iff :
    (Layout.ofListing lines).targetIndex name = .ok index ↔ Reaches lines name index := by
  unfold Layout.targetIndex
  simp only [bind_eq_ok_iff, requireLabel_eq_ok_iff]
  constructor
  · rintro ⟨i, hbound, hfound⟩
    split at hfound
    · cases hfound
    · next hwithin =>
        cases hfound
        exact ⟨hbound, Nat.lt_of_not_le hwithin⟩
  · rintro ⟨hbound, hwithin⟩
    refine ⟨index, hbound, ?_⟩
    rw [if_neg (show ¬ (Layout.ofListing lines).items.length ≤ index from Nat.not_le.2 hwithin)]
    rfl

theorem targetBlock_eq_ok_iff :
    (Layout.ofListing lines).targetBlock name = .ok place ↔
      ∃ index, Reaches lines name index ∧ place = (Layout.ofListing lines).place index := by
  unfold Layout.targetBlock
  simp only [← targetIndex_eq_ok_iff]
  cases (Layout.ofListing lines).targetIndex name <;> simp [Except.map, eq_comm]

theorem targetBlocks_eq_ok_iff
    {names : List String} :
    names.mapM (Layout.ofListing lines).targetBlock = .ok children ↔
      ∃ targets, List.Forall₂ (Reaches lines) names targets ∧
        children = targets.map (Layout.ofListing lines).place := by
  rw [mapM_eq_ok_iff]
  simp only [targetBlock_eq_ok_iff]
  induction names generalizing children with
  | nil => simp
  | cons name names ih =>
      simp only [List.forall₂_cons_left_iff, ih]
      constructor
      · rintro ⟨-, -, ⟨index, hreaches, rfl⟩, ⟨targets, hall, rfl⟩, rfl⟩
        exact ⟨index :: targets, ⟨index, targets, hreaches, hall, rfl⟩, rfl⟩
      · rintro ⟨-, ⟨index, targets, hreaches, hall, rfl⟩, rfl⟩
        exact ⟨_, _, ⟨index, hreaches, rfl⟩, ⟨targets, hall, rfl⟩, rfl⟩

/-- **When an instruction can be decoded, and how.** -/
theorem decode_eq_ok_iff :
    (Layout.ofListing lines).decode index item = .ok ins ↔
      ∃ distance, ins = {
          opcode := item.opcode
          operands := item.operands
          offset := UInt32.ofNat ((Layout.ofListing lines).offsetAt index)
          length := UInt32.ofNat item.opcode.codeUnits
          branchDistance := distance } ∧
        match item.target with
        | .label name => ∃ target, Reaches lines name target ∧
            distance = some (Int32.ofInt
              (((Layout.ofListing lines).offsetAt target : Int) -
                (Layout.ofListing lines).offsetAt index))
        | _ => distance = none := by
  unfold Layout.decode
  cases item.target with
  | none =>
      refine ⟨fun hsame => ⟨none, (Except.ok.inj hsame).symm, rfl⟩, ?_⟩
      rintro ⟨-, rfl, rfl⟩
      rfl
  | cases names =>
      refine ⟨fun hsame => ⟨none, (Except.ok.inj hsame).symm, rfl⟩, ?_⟩
      rintro ⟨-, rfl, rfl⟩
      rfl
  | label name =>
      simp only [bind_eq_ok_iff, targetIndex_eq_ok_iff]
      constructor
      · rintro ⟨target, hreaches, distance, hsame, hsame'⟩
        obtain rfl := Except.ok.inj hsame
        exact ⟨_, (Except.ok.inj hsame').symm, target, hreaches, rfl⟩
      · rintro ⟨-, rfl, target, hreaches, rfl⟩
        exact ⟨target, hreaches, _, rfl, rfl⟩

theorem fallsThrough_of_branches
    {opcode : Opcode}
    (hbranches : opcode.isConditional = true ∨ opcode.isSwitch = true) :
    fallsThrough opcode = true := by
  cases opcode <;> first | rfl | exact absurd hbranches (by decide)

theorem not_branches_of_goto
    {opcode : Opcode}
    (hgoto : opcode.isGoto = true) :
    opcode.isConditional = false ∧ opcode.isSwitch = false ∧ fallsThrough opcode = false := by
  cases opcode <;> first | exact absurd hgoto (by decide) | exact ⟨rfl, rfl, rfl⟩

/-- The instructions behind a stretch that control can run on to. -/
def behind (lines : Listing) (stop : Nat) (opcode : Opcode) : List Nat :=
  if fallsThrough opcode = true ∧ stop < lines.items.length then [stop] else []

/-- **When the children of a block are known, and what they are.** -/
theorem childrenOf_eq_ok_iff
    (htargeted : last.Targeted) :
    (Layout.ofListing lines).childrenOf stop last = .ok children ↔
      (last.opcode.isConditional = true ∨ last.opcode.isSwitch = true →
        stop < lines.items.length) ∧
      ∃ targets, List.Forall₂ (Reaches lines) last.target.names targets ∧
        children =
          (behind lines stop last.opcode ++ targets).map (Layout.ofListing lines).place := by
  have hall : (Layout.ofListing lines).items.length = lines.items.length := rfl
  unfold Layout.childrenOf
  unfold ListingItem.Targeted at htargeted
  cases htarget : last.target with
  | none =>
      simp only [htarget] at htargeted
      obtain ⟨hnotGoto, hnotConditional, hnotSwitch⟩ := htargeted
      simp only [Target.names, List.forall₂_nil_left_iff, exists_eq_left, List.append_nil,
        hnotConditional, hnotSwitch, Bool.false_eq_true, or_self, false_implies, true_and, behind,
        fallsThrough, hnotGoto, Bool.false_or, hall]
      cases last.opcode.isReturn || last.opcode.isThrow with
      | true => simp [eq_comm]
      | false => by_cases hmore : stop < lines.items.length <;> simp [hmore, eq_comm]
  | label name =>
      simp only [htarget] at htargeted
      simp only [Target.names, List.forall₂_cons_left_iff, List.forall₂_nil_left_iff, hall]
      cases hgoto : last.opcode.isGoto with
      | true =>
          have here : last.opcode.isConditional = false ∧ last.opcode.isSwitch = false ∧
              fallsThrough last.opcode = false := not_branches_of_goto hgoto
          simp only [if_true, bind_eq_ok_iff, targetBlock_eq_ok_iff, behind, here]
          simp [-Prod.exists, pure, Except.pure, eq_comm (b := children)]
      | false =>
          have hbranches := htargeted.resolve_left (by simp [hgoto])
          have hthrough := fallsThrough_of_branches hbranches
          by_cases hmore : stop < lines.items.length
          · simp only [Bool.false_eq_true, if_false, hmore, if_true, bind_eq_ok_iff,
              targetBlock_eq_ok_iff, behind, hthrough]
            simp [-Prod.exists, pure, Except.pure, eq_comm (b := children)]
          · simp [hmore, hbranches]
  | cases names =>
      simp only [htarget] at htargeted
      have hthrough := fallsThrough_of_branches (.inr htargeted)
      simp only [hall]
      by_cases hmore : stop < lines.items.length
      · simp only [hmore, if_true, bind_eq_ok_iff, targetBlocks_eq_ok_iff, behind, hthrough]
        simp [Target.names, pure, Except.pure, eq_comm (b := children)]
      · simp [hmore, htargeted]

end Parts

section Whole

variable {lines rest : Listing} {methodName : String} {part : Nat × Nat} {last : ListingItem}
variable {block : Block} {blocks : List Block} {leaders : List Nat}
variable {ranges : List ProtectedRange} {handler : Option String × String}

/-- **What is laid out for a part of a listing.** -/
theorem block_eq_ok_iff
    (hlt : part.1 < part.2)
    (hthere : lines.items[part.2 - 1]? = some last) :
    (Layout.ofListing lines).block methodName part.1 part.2 = .ok block ↔
      ∃ instructions children,
        List.Forall₂ (fun entry ins => (Layout.ofListing lines).decode entry.2 entry.1 = .ok ins)
          (slice lines.items.zipIdx part) instructions ∧
        (Layout.ofListing lines).childrenOf part.2 last = .ok children ∧
        block = {
          name := methodName ++ "-BB@" ++ Text.hex ((Layout.ofListing lines).offsetAt part.1)
          start := UInt32.ofNat ((Layout.ofListing lines).offsetAt part.1)
          stop := UInt32.ofNat ((Layout.ofListing lines).offsetAt part.2)
          instructions
          children } := by
  have hitems : ((Layout.ofListing lines).items.take part.2).drop part.1 = slice lines.items part :=
    rfl
  unfold Layout.block
  simp only [hitems, bind_eq_ok_iff, mapM_eq_ok_iff, zipIdx_slice, getLast?_slice hlt hthere]
  refine exists_congr fun instructions => ?_
  constructor
  · rintro ⟨hdecoded, children, hknown, hsame⟩
    exact ⟨children, hdecoded, hknown, (Except.ok.inj hsame).symm⟩
  · rintro ⟨children, hdecoded, hknown, rfl⟩
    exact ⟨hdecoded, children, hknown, rfl⟩

theorem IsPart.exists_of_block
    (h : IsPart lines part)
    (hdone : (Layout.ofListing lines).block methodName part.1 part.2 = .ok block) :
    ∃ last ∈ lines.items, lines.items[part.2 - 1]? = some last ∧ ∃ instructions children,
      List.Forall₂ (fun entry ins => (Layout.ofListing lines).decode entry.2 entry.1 = .ok ins)
        (slice lines.items.zipIdx part) instructions ∧
      (Layout.ofListing lines).childrenOf part.2 last = .ok children ∧
      block = {
        name := methodName ++ "-BB@" ++ Text.hex ((Layout.ofListing lines).offsetAt part.1)
        start := UInt32.ofNat ((Layout.ofListing lines).offsetAt part.1)
        stop := UInt32.ofNat ((Layout.ofListing lines).offsetAt part.2)
        instructions
        children } := by
  obtain ⟨last, hmem, hthere⟩ := h.exists_last
  exact ⟨last, hmem, hthere, (block_eq_ok_iff h.lt hthere).1 hdone⟩

theorem blocks_eq_ok_iff :
    (Layout.ofListing lines).blocks methodName leaders = .ok blocks ↔
      List.Forall₂
        (fun part block => (Layout.ofListing lines).block methodName part.1 part.2 = .ok block)
        (segments lines.items.length leaders) blocks := by
  induction leaders generalizing blocks with
  | nil =>
      rw [segments, List.forall₂_nil_left_iff]
      exact ⟨fun hsame => (Except.ok.inj hsame).symm, fun hsame => hsame ▸ rfl⟩
  | cons first rest ih =>
      simp only [Layout.blocks, segments, List.forall₂_cons_left_iff, bind_eq_ok_iff, ih]
      constructor
      · rintro ⟨block, this, more, hothers, hsame⟩
        exact ⟨block, more, this, hothers, (Except.ok.inj hsame).symm⟩
      · rintro ⟨block, more, this, hothers, rfl⟩
        exact ⟨block, this, more, hothers, rfl⟩

/-- The parts of a listing are laid out one after another. -/
theorem blocks_leaders_eq_ok_iff :
    (Layout.ofListing lines).blocks methodName (Layout.ofListing lines).leaders = .ok blocks ↔
      List.Forall₂
        (fun part block => (Layout.ofListing lines).block methodName part.1 part.2 = .ok block)
        (parts lines) blocks :=
  blocks_eq_ok_iff

/-- A range of a listing that handlers protect. -/
structure Protection where
  start : String
  stop : String
  handlers : List (Option String × String)

/-- The protected ranges of a listing. -/
def protections (lines : Listing) : List Protection :=
  lines.filterMap fun
    | .protect start stop handlers => some ⟨start, stop, handlers⟩
    | _ => none

theorem ranges_eq_ok_iff :
    (Layout.ofListing lines).ranges rest = .ok ranges ↔
      List.Forall₂ (fun protection range => ∃ first stop handlers,
          Binds lines protection.start first ∧ Binds lines protection.stop stop ∧
          protection.handlers.mapM (Layout.ofListing lines).handler = .ok handlers ∧
          range = {
            start := UInt32.ofNat ((Layout.ofListing lines).offsetAt first)
            stop := UInt32.ofNat ((Layout.ofListing lines).offsetAt stop)
            handlers })
        (protections rest) ranges := by
  induction rest generalizing ranges with
  | nil =>
      rw [protections, List.filterMap_nil, List.forall₂_nil_left_iff]
      exact ⟨fun hsame => (Except.ok.inj hsame).symm, fun hsame => hsame ▸ rfl⟩
  | cons line rest ih =>
      cases line with
      | label name => exact ih
      | code opcode operands target => exact ih
      | protect start stop handlers =>
          change _ ↔ List.Forall₂ _ (⟨start, stop, handlers⟩ :: protections rest) ranges
          simp only [Layout.ranges, List.forall₂_cons_left_iff, bind_eq_ok_iff, ih,
            requireLabel_eq_ok_iff]
          constructor
          · rintro ⟨first, here, last, hthere, handlers', hknown, more, hothers, hsame⟩
            exact ⟨_, more, ⟨first, last, handlers', here, hthere, hknown, rfl⟩, hothers,
              (Except.ok.inj hsame).symm⟩
          · rintro ⟨-, more, ⟨first, last, handlers', here, hthere, hknown, rfl⟩, hothers, rfl⟩
            exact ⟨first, here, last, hthere, handlers', hknown, more, hothers, rfl⟩

theorem handler_eq_ok_iff
    {h : Handler} :
    (Layout.ofListing lines).handler handler = .ok h ↔
      ∃ index, Reaches lines handler.2 index ∧
        h = ⟨handler.1, ((Layout.ofListing lines).place index).2⟩ := by
  unfold Layout.handler
  simp only [bind_eq_ok_iff, targetBlock_eq_ok_iff]
  constructor
  · rintro ⟨-, ⟨index, hreaches, rfl⟩, hsame⟩
    exact ⟨index, hreaches, (Except.ok.inj hsame).symm⟩
  · rintro ⟨index, hreaches, rfl⟩
    exact ⟨_, ⟨index, hreaches, rfl⟩, rfl⟩

theorem assemble_eq_ok_iff
    {table : ExceptionTable} :
    lines.assemble methodName = .ok (blocks, table) ↔
      (Layout.ofListing lines).blocks methodName (Layout.ofListing lines).leaders = .ok blocks ∧
        (Layout.ofListing lines).ranges lines = .ok table.ranges := by
  unfold Listing.assemble
  simp only [bind_eq_ok_iff]
  constructor
  · rintro ⟨blocks', hfirst, ranges, hsecond, hsame⟩
    obtain ⟨rfl, rfl⟩ := Prod.mk.inj (Except.ok.inj hsame)
    exact ⟨hfirst, hsecond⟩
  · rintro ⟨hfirst, hsecond⟩
    exact ⟨blocks, hfirst, table.ranges, hsecond, rfl⟩

end Whole

section Failures

variable {lines : Listing} {methodName name : String} {part : Nat × Nat} {index stop : Nat}
variable {item last : ListingItem}

/-- A label that is defined, and not behind the last instruction. -/
theorem exists_reaches_iff :
    (∃ i, Reaches lines name i) ↔
      (∃ i, Binds lines name i) ∧ ¬ Binds lines name lines.items.length := by
  constructor
  · rintro ⟨i, hbinds, hlt⟩
    exact ⟨⟨i, hbinds⟩, fun hpast => hlt.ne (hbinds.unique hpast)⟩
  · rintro ⟨⟨i, hbinds⟩, hwithin⟩
    exact ⟨i, hbinds, hbinds.le.lt_of_ne fun hsame => hwithin (hsame ▸ hbinds)⟩

theorem exists_decode_iff :
    (∃ ins, (Layout.ofListing lines).decode index item = .ok ins) ↔
      ∀ name, item.target = .label name → ∃ i, Reaches lines name i := by
  simp only [decode_eq_ok_iff]
  constructor
  · rintro ⟨ins, distance, -, hdecoded⟩ name htarget
    rw [htarget] at hdecoded
    obtain ⟨i, hreaches, -⟩ := hdecoded
    exact ⟨i, hreaches⟩
  · intro hknown
    cases htarget : item.target with
    | none => exact ⟨_, none, rfl, rfl⟩
    | cases names => exact ⟨_, none, rfl, rfl⟩
    | label name =>
        obtain ⟨i, hreaches⟩ := hknown name htarget
        exact ⟨_, _, rfl, i, hreaches, rfl⟩

theorem exists_childrenOf_iff
    (htargeted : last.Targeted) :
    (∃ children, (Layout.ofListing lines).childrenOf stop last = .ok children) ↔
      (last.opcode.isConditional = true ∨ last.opcode.isSwitch = true →
        stop < lines.items.length) ∧
      ∀ name ∈ last.target.names, ∃ i, Reaches lines name i := by
  simp only [childrenOf_eq_ok_iff htargeted, exists_and_left]
  refine and_congr_right fun _ => ?_
  rw [← exists_forall₂_iff]
  constructor
  · rintro ⟨-, targets, hall, -⟩
    exact ⟨targets, hall⟩
  · rintro ⟨targets, hall⟩
    exact ⟨_, targets, hall, rfl⟩

/-- The table of a switch is only looked at where the switch ends a part, which it does. -/
theorem IsPart.forall_names_iff
    {P : String → Prop}
    (h : IsPart lines part)
    (hthere : lines.items[part.2 - 1]? = some last)
    (htargeted : ∀ item ∈ lines.items, item.Targeted) :
    ((∀ item index, (item, index) ∈ slice lines.items.zipIdx part →
        ∀ name, item.target = .label name → P name) ∧ ∀ name ∈ last.target.names, P name) ↔
      ∀ item index, (item, index) ∈ slice lines.items.zipIdx part →
        ∀ name ∈ item.target.names, P name := by
  constructor
  · rintro ⟨hlabels, htable⟩ item index here name hmem
    have hat_index := (mem_slice_zipIdx.1 here).2.2
    have hitem_targeted := htargeted item (List.mem_of_getElem? hat_index)
    unfold ListingItem.Targeted at hitem_targeted
    cases htarget : item.target with
    | none => simp [htarget, Target.names] at hmem
    | label name' =>
        obtain rfl : name = name' := by simpa [htarget, Target.names] using hmem
        exact hlabels item index here name htarget
    | cases names =>
        simp only [htarget] at hitem_targeted
        have hstop_eq := h.stop_of_transfersControl here
          (by simp [Opcode.transfersControl, hitem_targeted])
        rw [hstop_eq, Nat.add_sub_cancel, hat_index] at hthere
        exact htable name (Option.some.inj hthere ▸ hmem)
  · intro hall
    refine ⟨fun item index here name htarget => ?_, fun name hmem => ?_⟩
    · exact hall item index here name (by simp [htarget, Target.names])
    · have hlt := h.lt
      exact hall last (part.2 - 1) (mem_slice_zipIdx.2 ⟨by omega, by omega, hthere⟩) name hmem

theorem IsPart.exists_block_iff
    (h : IsPart lines part)
    (hthere : lines.items[part.2 - 1]? = some last)
    (htargeted : ∀ item ∈ lines.items, item.Targeted) :
    (∃ block, (Layout.ofListing lines).block methodName part.1 part.2 = .ok block) ↔
      (∀ item index, (item, index) ∈ slice lines.items.zipIdx part →
        ∀ name ∈ item.target.names, ∃ i, Reaches lines name i) ∧
      (last.opcode.isConditional = true ∨ last.opcode.isSwitch = true →
        part.2 < lines.items.length) := by
  rw [← h.forall_names_iff hthere htargeted, and_assoc, and_comm (b := _ → _),
    ← exists_childrenOf_iff (htargeted last (List.mem_of_getElem? hthere))]
  have hdecoded : (∀ item index, (item, index) ∈ slice lines.items.zipIdx part →
      ∀ name, item.target = .label name → ∃ i, Reaches lines name i) ↔
      ∃ instructions, List.Forall₂
        (fun entry ins => (Layout.ofListing lines).decode entry.2 entry.1 = .ok ins)
        (slice lines.items.zipIdx part) instructions := by
    simp only [exists_forall₂_iff, exists_decode_iff, Prod.forall]
  simp only [block_eq_ok_iff h.lt hthere, hdecoded]
  constructor
  · rintro ⟨-, instructions, children, hdecoded, hknown, -⟩
    exact ⟨⟨instructions, hdecoded⟩, children, hknown⟩
  · rintro ⟨⟨instructions, hdecoded⟩, children, hknown⟩
    exact ⟨_, instructions, children, hdecoded, hknown, rfl⟩

/-- **When all blocks can be laid out.** -/
theorem exists_blocks_iff
    (htargeted : ∀ item ∈ lines.items, item.Targeted) :
    (∃ blocks, (Layout.ofListing lines).blocks methodName (Layout.ofListing lines).leaders =
        .ok blocks) ↔
      (∀ item ∈ lines.items, ∀ name ∈ item.target.names, ∃ i, Reaches lines name i) ∧
      ∀ last, lines.items.getLast? = some last →
        ¬ (last.opcode.isConditional = true ∨ last.opcode.isSwitch = true) := by
  simp only [blocks_leaders_eq_ok_iff, exists_forall₂_iff]
  constructor
  · intro hlaid
    have hknown {part : Nat × Nat} (hmem : part ∈ parts lines)
        {last : ListingItem} (hthere : lines.items[part.2 - 1]? = some last) :=
      ((isPart_of_mem hmem).exists_block_iff hthere htargeted).1 (hlaid part hmem)
    constructor
    · intro item hitem_mem
      obtain ⟨index, hthere⟩ := List.mem_iff_getElem?.1 hitem_mem
      obtain ⟨part, hmem, here⟩ := exists_part hthere
      obtain ⟨last, -, hat_stop⟩ := (isPart_of_mem hmem).exists_last
      exact (hknown hmem hat_stop).1 item index here
    · intro last hat_end hbranches
      rw [List.getLast?_eq_getElem?] at hat_end
      obtain ⟨part, hmem, here⟩ := exists_part hat_end
      have hstop_le := (isPart_of_mem hmem).le
      have hlt := (mem_slice_zipIdx.1 here).2.1
      have hstop_eq : part.2 = lines.items.length := by omega
      have hwithin := (hknown hmem (by rw [hstop_eq, hat_end])).2 hbranches
      exact hwithin.ne hstop_eq
  · rintro ⟨hknown, hinside⟩ part hmem
    have hpart := isPart_of_mem hmem
    obtain ⟨last, -, hat_stop⟩ := hpart.exists_last
    refine (hpart.exists_block_iff hat_stop htargeted).2
      ⟨fun item index here => ?_, fun hbranches => ?_⟩
    · exact hknown item (List.mem_of_getElem? (mem_slice_zipIdx.1 here).2.2)
    · refine hpart.le.lt_of_ne fun hstop_eq => hinside last ?_ hbranches
      rw [List.getLast?_eq_getElem?, ← hstop_eq, hat_stop]

theorem exists_ranges_iff :
    (∃ ranges, (Layout.ofListing lines).ranges lines = .ok ranges) ↔
      ∀ protection ∈ protections lines,
        (∃ i, Binds lines protection.start i) ∧ (∃ i, Binds lines protection.stop i) ∧
        ∀ handler ∈ protection.handlers, ∃ i, Reaches lines handler.2 i := by
  simp only [ranges_eq_ok_iff, exists_forall₂_iff, mapM_eq_ok_iff]
  refine forall₂_congr fun protection _ => ?_
  have hknown : (∃ handlers, List.Forall₂
        (fun handler h => (Layout.ofListing lines).handler handler = .ok h)
        protection.handlers handlers) ↔
      ∀ handler ∈ protection.handlers, ∃ i, Reaches lines handler.2 i := by
    simp only [exists_forall₂_iff, handler_eq_ok_iff]
    refine forall₂_congr fun handler _ => ⟨?_, ?_⟩
    · rintro ⟨-, i, hreaches, -⟩
      exact ⟨i, hreaches⟩
    · rintro ⟨i, hreaches⟩
      exact ⟨_, i, hreaches, rfl⟩
  rw [← hknown]
  constructor
  · rintro ⟨-, first, stop, handlers, here, hthere, hall, -⟩
    exact ⟨⟨first, here⟩, ⟨stop, hthere⟩, handlers, hall⟩
  · rintro ⟨⟨first, here⟩, ⟨stop, hthere⟩, handlers, hall⟩
    exact ⟨_, first, stop, handlers, here, hthere, hall, rfl⟩

/-- A branch, the table of a switch or a handler goes to a label. -/
def Enters (lines : Listing) (name : String) : Prop :=
  (∃ item ∈ lines.items, name ∈ item.target.names) ∨
    ∃ protection ∈ protections lines, name ∈ protection.handlers.map Prod.snd

/-- A label is gone to, or bounds a protected range. -/
def Uses (lines : Listing) (name : String) : Prop :=
  Enters lines name ∨
    ∃ protection ∈ protections lines, name = protection.start ∨ name = protection.stop

theorem forall_enters_iff
    {P : String → Prop} :
    (∀ name, Enters lines name → P name) ↔
      (∀ item ∈ lines.items, ∀ name ∈ item.target.names, P name) ∧
        ∀ protection ∈ protections lines, ∀ handler ∈ protection.handlers, P handler.2 := by
  constructor
  · intro hall
    exact ⟨fun item hitem_mem name hmem => hall name (.inl ⟨item, hitem_mem, hmem⟩),
      fun protection hthere handler hmem =>
        hall handler.2 (.inr ⟨protection, hthere, List.mem_map_of_mem hmem⟩)⟩
  · rintro ⟨htargets, handlers⟩ name (⟨item, hitem_mem, hmem⟩ | ⟨protection, hthere, hmem⟩)
    · exact htargets item hitem_mem name hmem
    · obtain ⟨handler, handler_mem, rfl⟩ := List.mem_map.1 hmem
      exact handlers protection hthere handler handler_mem

theorem forall_uses_iff
    {P : String → Prop} :
    (∀ name, Uses lines name → P name) ↔
      (∀ name, Enters lines name → P name) ∧
        ∀ protection ∈ protections lines, P protection.start ∧ P protection.stop := by
  constructor
  · intro hall
    exact ⟨fun name henters => hall name (.inl henters), fun protection hthere =>
      ⟨hall _ (.inr ⟨protection, hthere, .inl rfl⟩), hall _ (.inr ⟨protection, hthere, .inr rfl⟩)⟩⟩
  · rintro ⟨hentered, hbounds⟩ name (henters | ⟨protection, hthere, rfl | rfl⟩)
    · exact hentered name henters
    · exact (hbounds protection hthere).1
    · exact (hbounds protection hthere).2

/-- **When a listing can be assembled.** -/
theorem exists_assemble_iff
    (htargeted : ∀ item ∈ lines.items, item.Targeted) :
    (∃ out, lines.assemble methodName = .ok out) ↔
      (∀ name, Uses lines name → ∃ i, Binds lines name i) ∧
      (∀ name, Enters lines name → ¬ Binds lines name lines.items.length) ∧
      ∀ last, lines.items.getLast? = some last →
        ¬ (last.opcode.isConditional = true ∨ last.opcode.isSwitch = true) := by
  have hparts : (∃ out, lines.assemble methodName = .ok out) ↔
      (∃ blocks, (Layout.ofListing lines).blocks methodName (Layout.ofListing lines).leaders =
        .ok blocks) ∧ ∃ ranges, (Layout.ofListing lines).ranges lines = .ok ranges := by
    constructor
    · rintro ⟨⟨blocks, table⟩, hdone⟩
      obtain ⟨hfirst, hsecond⟩ := assemble_eq_ok_iff.1 hdone
      exact ⟨⟨blocks, hfirst⟩, table.ranges, hsecond⟩
    · rintro ⟨⟨blocks, hfirst⟩, ranges, hsecond⟩
      exact ⟨(blocks, ⟨ranges⟩), assemble_eq_ok_iff.2 ⟨hfirst, hsecond⟩⟩
  rw [hparts, exists_blocks_iff htargeted, exists_ranges_iff, forall_uses_iff]
  simp only [forall_enters_iff, exists_reaches_iff, forall_and]
  tauto

/-- **When a listing cannot be assembled.** -/
theorem exists_assemble_error_iff
    (htargeted : ∀ item ∈ lines.items, item.Targeted) :
    (∃ e, lines.assemble methodName = .error e) ↔
      (∃ name, Uses lines name ∧ ∀ i, ¬ Binds lines name i) ∨
      (∃ name, Enters lines name ∧ Binds lines name lines.items.length) ∨
      ∃ last, lines.items.getLast? = some last ∧
        (last.opcode.isConditional = true ∨ last.opcode.isSwitch = true) := by
  rw [exists_error_iff, exists_assemble_iff htargeted]
  simp only [not_and_or, not_forall, not_exists, not_not, exists_prop]

end Failures

end Bytecode
end DalvikDecompiler
