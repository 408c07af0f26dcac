import DalvikDecompiler.Proofs.FlowGraph.Blocks

/-!
# How nodes end, and where their edges lead

**Input.** The graph of a method.

The last instruction of a block says how its node ends, and the children of the block say where its
edges lead.  Nothing makes the two fit together: a block that returns may have children, and a
branch may have more than two.

**Results.**
* `mem_targets_iff`: the targets of a branch are the last children on its two sides.
* `Conforms`, `Fits`: the edges of a node and the children of a block are what its end asks for.
* `ofMethod_kinds`: the targets of branches and switches are successors, and the edges of a node
  agree with its kind if and only if the children of its block fit.
-/

namespace DalvikDecompiler
namespace FlowGraph

open OrderedSet (ofList mem_ofList nodup_ofList)
open Symbolic (Variables)
open Bytecode (Block Method)
open Construction (Piece kindOf branchesOf)

section Ends

variable {m : Method} {block : Block} {f : Nat → NodeId} {kind : NodeKind}
variable {child child' : UInt32 × UInt64}

/-- The opcode at the end of a block. -/
def lastOpcode (block : Block) : Opcode :=
  (block.instructions.getLast?.map Bytecode.Instruction.opcode).getD .nop

/-- Whether a child of a block stands at the target of its branch. -/
def atTarget (m : Method) (block : Block) (child : UInt32 × UInt64) : Bool :=
  let target := block.instructions.getLast?.bind Bytecode.Instruction.targetOffset
  target.isSome && target == (m.blocks[child.2.toNat]?.map Block.start)

/-- The children of a block on one side of its branch. -/
def sideOf (m : Method) (block : Block) (taken : Bool) : List (UInt32 × UInt64) :=
  block.children.filter fun child => atTarget m block child == taken

/-- The children of a block are what its end asks for. -/
def Fits (m : Method) (block : Block) : Prop :=
  if (lastOpcode block).isReturn || (lastOpcode block).isThrow then
    block.children = []
  else if (lastOpcode block).isSwitch then
    True
  else if (lastOpcode block).isConditional then
    ∀ taken, ∀ child ∈ sideOf m block taken, ∀ child' ∈ sideOf m block taken,
      child.2.toNat = child'.2.toNat
  else
    ∀ child ∈ block.children, ∀ child' ∈ block.children, child.2.toNat = child'.2.toNat

/-- The successors of a node are what its kind asks for. -/
def Conforms (kind : NodeKind) (succs : List NodeId) : Prop :=
  match kind with
  | .ret => succs = []
  | .throw => succs = []
  | .statement => succs.length ≤ 1
  | .conditional b => ∀ s, s ∈ succs ↔ s = b.onTrue ∨ s = b.onFalse
  | .switch table => ∀ s, s ∈ succs ↔ s ∈ table.cases
  | _ => False

theorem atTarget_congr
    (hsame : child.2.toNat = child'.2.toNat) :
    atTarget m block child = atTarget m block child' := by
  unfold atTarget
  rw [hsame]

theorem branchesOf_map :
    branchesOf m block (block.children.map fun child => f child.2.toNat) =
      ((sideOf m block true).getLast?.map fun child => f child.2.toNat,
        (sideOf m block false).getLast?.map fun child => f child.2.toNat) := by
  have hzipped : (block.children.zip (block.children.map fun child => f child.2.toNat)) =
      block.children.map fun child => (child, f child.2.toNat) := by
    rw [← List.zip_map', List.map_id']
  have hside (taken : Bool) :
      ((((block.children.zip (block.children.map fun child => f child.2.toNat)).map
        fun entry => (atTarget m block entry.1, entry.2)).filter
          fun entry => entry.1 == taken).getLast?.map (·.2)) =
        (sideOf m block taken).getLast?.map fun child => f child.2.toNat := by
    rw [hzipped, List.map_map, List.filter_map, List.getLast?_map, Option.map_map]
    rfl
  exact Prod.ext (hside true) (hside false)

/-- A branch goes both ways, or the same way twice. -/
theorem branchesOf_of_conditional
    {children : List NodeId}
    {b : BranchTargets}
    (hends : kindOf m block children = .ok (.conditional b)) :
    branchesOf m block children = (some b.onTrue, some b.onFalse) ∨
      b.onTrue = b.onFalse ∧
        (branchesOf m block children = (some b.onTrue, none) ∨
          branchesOf m block children = (none, some b.onTrue)) := by
  unfold kindOf at hends
  dsimp only at hends
  split at hends
  · cases hends
  split at hends
  · cases hends
  split at hends
  · cases hends
  split at hends
  · split at hends
    · next onTrue onFalse hboth =>
        cases hends
        exact .inl hboth
    · next target honly =>
        cases hends
        exact .inr ⟨rfl, .inl honly⟩
    · next target honly =>
        cases hends
        exact .inr ⟨rfl, .inr honly⟩
    · cases hends
  · cases hends

/-- The targets of a branch are the last children on its two sides. -/
theorem mem_targets_iff
    {b : BranchTargets}
    (hends : kindOf m block (block.children.map fun child => f child.2.toNat) =
      .ok (.conditional b))
    (s : NodeId) :
    s = b.onTrue ∨ s = b.onFalse ↔
      ∃ taken child, (sideOf m block taken).getLast? = some child ∧ s = f child.2.toNat := by
  have hbranches := branchesOf_of_conditional hends
  rw [branchesOf_map] at hbranches
  have hside (taken : Bool) : (∃ child, (sideOf m block taken).getLast? = some child ∧
      s = f child.2.toNat) ↔
      ((sideOf m block taken).getLast?.map fun child => f child.2.toNat) = some s := by
    simp [eq_comm]
  simp only [Bool.exists_bool, hside]
  simp only [Prod.mk.injEq] at hbranches
  rcases hbranches with ⟨htaken, hother⟩ | ⟨hsame, ⟨htaken, hother⟩ | ⟨htaken, hother⟩⟩
  · simp [htaken, hother, eq_comm, or_comm]
  · simp [htaken, hother, ← hsame, eq_comm]
  · simp [htaken, hother, ← hsame, eq_comm]

theorem cases_of_switch
    {children : List NodeId}
    {table : SwitchTable}
    (hends : kindOf m block children = .ok (.switch table)) :
    table.cases = children := by
  unfold kindOf at hends
  dsimp only at hends
  repeat' split at hends
  all_goals
    cases hends
  rfl

variable (hinj : ∀ child ∈ block.children, ∀ child' ∈ block.children,
  f child.2.toNat = f child'.2.toNat → child.2.toNat = child'.2.toNat)

include hinj

/-- A node has one successor at most if its block has one child, perhaps several times. -/
theorem length_le_one_iff :
    (ofList (block.children.map fun child => f child.2.toNat)).length ≤ 1 ↔
      ∀ child ∈ block.children, ∀ child' ∈ block.children, child.2.toNat = child'.2.toNat := by
  have hmem (child : UInt32 × UInt64) (here : child ∈ block.children) :
      f child.2.toNat ∈ ofList (block.children.map fun child => f child.2.toNat) :=
    mem_ofList.2 (List.mem_map.2 ⟨child, here, rfl⟩)
  constructor
  · intro hshort child here child' here'
    refine hinj child here child' here' ?_
    have hfirst := hmem child here
    have hsecond := hmem child' here'
    generalize ofList (block.children.map fun child => f child.2.toNat) = succs at *
    match succs, hshort with
    | [], _ => cases hfirst
    | [x], _ => rw [List.mem_singleton.1 hfirst, List.mem_singleton.1 hsecond]
  · intro hsame
    have hnodup := nodup_ofList (block.children.map fun child => f child.2.toNat)
    refine Nat.le_of_not_lt fun hlong => ?_
    have horigin (i : Nat) (hlt : i < (ofList (block.children.map
        fun child => f child.2.toNat)).length) :
        ∃ child ∈ block.children, f child.2.toNat =
          (ofList (block.children.map fun child => f child.2.toNat))[i] :=
      List.mem_map.1 (mem_ofList.1 (List.getElem_mem hlt))
    obtain ⟨child, here, hfirst⟩ := horigin 0 (Nat.zero_lt_of_lt hlong)
    obtain ⟨child', here', hsecond⟩ := horigin 1 hlong
    have hequal := hfirst.symm.trans ((congrArg f (hsame child here child' here')).trans hsecond)
    exact absurd ((hnodup.getElem_inj_iff).1 hequal) Nat.zero_ne_one

/-- The successors of a branch are its targets if all children on one side are the same. -/
theorem conforms_conditional_iff
    {b : BranchTargets}
    (hends : kindOf m block (block.children.map fun child => f child.2.toNat) =
      .ok (.conditional b)) :
    (∀ s, s ∈ ofList (block.children.map fun child => f child.2.toNat) ↔
        s = b.onTrue ∨ s = b.onFalse) ↔
      ∀ taken, ∀ child ∈ sideOf m block taken, ∀ child' ∈ sideOf m block taken,
        child.2.toNat = child'.2.toNat := by
  simp only [mem_targets_iff hends, mem_ofList, List.mem_map]
  have hmem_side {child : UInt32 × UInt64} {taken : Bool} : child ∈ sideOf m block taken ↔
      child ∈ block.children ∧ atTarget m block child = taken := by
    simp [sideOf]
  constructor
  · intro hagrees
    -- The last child of the side is a target, and no child of the other side is the same block.
    have hlast (taken : Bool) (child : UInt32 × UInt64) (here : child ∈ sideOf m block taken)
        (final : UInt32 × UInt64) (hthere : (sideOf m block taken).getLast? = some final) :
        child.2.toNat = final.2.toNat := by
      obtain ⟨hknown, hside⟩ := hmem_side.1 here
      obtain ⟨taken', final', hthere', hsame⟩ := (hagrees (f child.2.toNat)).1 ⟨child, hknown, rfl⟩
      obtain ⟨hknown', hside'⟩ := hmem_side.1 (List.mem_of_getLast? hthere')
      have hsame := hinj child hknown final' hknown' hsame
      obtain rfl : taken' = taken := hside'.symm.trans ((atTarget_congr hsame).symm.trans hside)
      obtain rfl := Option.some.inj (hthere'.symm.trans hthere)
      exact hsame
    intro taken child here child' here'
    obtain ⟨final, hthere⟩ : ∃ final, (sideOf m block taken).getLast? = some final :=
      ⟨_, List.getLast?_eq_some_getLast (List.ne_nil_of_mem here)⟩
    exact (hlast taken child here final hthere).trans (hlast taken child' here' final hthere).symm
  · intro hsame s
    constructor
    · rintro ⟨child, here, rfl⟩
      have hside : child ∈ sideOf m block (atTarget m block child) := hmem_side.2 ⟨here, rfl⟩
      refine ⟨_, _, List.getLast?_eq_some_getLast (List.ne_nil_of_mem hside), congrArg f ?_⟩
      exact hsame _ child hside _ (List.getLast_mem _)
    · rintro ⟨taken, child, hthere, rfl⟩
      exact ⟨child, (hmem_side.1 (List.mem_of_getLast? hthere)).1, rfl⟩

/-- **The successors of a node agree with its kind exactly if the children of its block fit.** -/
theorem conforms_iff_fits
    (hends : kindOf m block (block.children.map fun child => f child.2.toNat) = .ok kind) :
    Conforms kind (ofList (block.children.map fun child => f child.2.toNat)) ↔ Fits m block := by
  have hbare : ofList (block.children.map fun child => f child.2.toNat) = [] ↔
      block.children = [] := by
    constructor
    · intro hnone
      refine List.eq_nil_iff_forall_not_mem.2 fun child here => ?_
      have hmem := mem_ofList.2 (List.mem_map_of_mem (f := fun child => f child.2.toNat) here)
      rw [hnone] at hmem
      cases hmem
    · intro hnone
      rw [hnone]
      rfl
  have hends' := hends
  unfold kindOf at hends
  unfold Fits lastOpcode
  dsimp only at hends
  split at hends
  · next hreturns =>
      cases hends
      rw [hreturns]
      exact hbare
  split at hends
  · next hthrows =>
      cases hends
      rw [hthrows, Bool.or_true]
      exact hbare
  split at hends
  · next hreturns hthrows hswitches =>
      cases hends
      simp only [hreturns, hthrows, hswitches]
      simp [Conforms, SwitchTable.unordered]
  split at hends
  · next hreturns hthrows hswitches hbranches =>
      simp only [hreturns, hthrows, hswitches, hbranches]
      split at hends
      · cases hends
        exact conforms_conditional_iff hinj hends'
      · cases hends
        exact conforms_conditional_iff hinj hends'
      · cases hends
        exact conforms_conditional_iff hinj hends'
      · cases hends
  · next hreturns hthrows hswitches hbranches =>
      cases hends
      simp only [hreturns, hthrows, hswitches, hbranches]
      exact length_le_one_iff hinj

end Ends

section Graphs

variable {m : Method} {g : FlowGraph} {pieces : List Piece} {vars : Variables} {events : EventLog}

/-- The children of blocks that can be reached have nodes of their own. -/
theorem Charts.numberOf_inj
    {index : Nat}
    {block : Block}
    (h : Charts m g pieces)
    (hreached : Reached m index)
    (hfound : m.blocks[index]? = some block)
    {child child' : UInt32 × UInt64}
    (here : child ∈ block.children)
    (hsame : numberOf pieces child.2.toNat = numberOf pieces child'.2.toNat) :
    child.2.toNat = child'.2.toNat := by
  have hmentioned : child.2.toNat ∈ Construction.mentions m index := by
    simp only [Construction.mentions, hfound, List.mem_append]
    exact .inl (List.mem_map_of_mem (f := fun child => child.2.toNat) here)
  have hthere := (h.mem_iff child.2.toNat).2 (hreached.tail hmentioned)
  exact (List.idxOf_inj hthere).1 hsame

/-- **Where the edges of a method's graph lead.**  The targets of a branch are successors, and the
successors of a switch are its targets.  All successors of a node are what its kind asks for if and
only if the children of its block are what the end of the block asks for. -/
theorem ofMethod_kinds
    (hbuilt : (ofMethod m vars events).graph = .ok g) :
    ∃ pieces, Charts m g pieces ∧ ∀ (n : NodeId) piece block,
      pieces[n]? = some piece → m.blocks[piece.block]? = some block →
      (∀ b, (g.node n).kind = .conditional b → b.onTrue ∈ g.succs n ∧ b.onFalse ∈ g.succs n) ∧
      (∀ table, (g.node n).kind = .switch table → ∀ s, s ∈ g.succs n ↔ s ∈ table.cases) ∧
      (Conforms (g.node n).kind (g.succs n) ↔ Fits m block) := by
  obtain ⟨pieces, -, -, -, hcharts, -⟩ := charts_ofMethod hbuilt
  refine ⟨pieces, hcharts, fun n piece block hthere hfound => ?_⟩
  obtain ⟨block', hfound', hrenders⟩ := hcharts.renders n piece hthere
  obtain rfl := Option.some.inj (hfound'.symm.trans hfound)
  have hreached : Reached m piece.block :=
    (hcharts.mem_iff _).1 (List.mem_map_of_mem (List.mem_of_getElem? hthere))
  have hagrees := conforms_iff_fits (fun child here child' _ hsame =>
    hcharts.numberOf_inj hreached hfound here hsame) hrenders.kind_eq
  have hkind_eq := hrenders.kind_eq
  rw [hrenders.succs_eq]
  refine ⟨fun b hbranches => ?_, fun table hswitches => ?_, hagrees⟩
  · rw [hbranches] at hkind_eq
    have htarget (s : NodeId) (htowards : s = b.onTrue ∨ s = b.onFalse) :
        s ∈ ofList (childNodes pieces block') := by
      obtain ⟨taken, child, hlast, rfl⟩ := (mem_targets_iff hkind_eq s).1 htowards
      exact mem_ofList.2 (List.mem_map.2
        ⟨child, List.mem_of_mem_filter (List.mem_of_getLast? hlast), rfl⟩)
    exact ⟨htarget _ (.inl rfl), htarget _ (.inr rfl)⟩
  · rw [hswitches] at hkind_eq
    intro s
    rw [cases_of_switch hkind_eq]
    exact mem_ofList

theorem ofMethod_kinds_guardedLoop :
    ∃ g, (ofMethod guardedLoop (.ofMethod guardedLoop) []).graph = .ok g ∧
      ∀ n, g.isLive n = true → Conforms (g.node n).kind (g.succs n) := by
  obtain ⟨g, hbuilt, -⟩ := ofMethod_guardedLoop
  obtain ⟨pieces, hcharts, hkinds⟩ := ofMethod_kinds hbuilt
  have hfits : ∀ block ∈ guardedLoop.blocks, Fits guardedLoop block := by
    simp [guardedLoop, unitBlock, sampleInstruction, Fits, lastOpcode, Opcode.isReturn,
      Opcode.isThrow, Opcode.isSwitch, Opcode.isConditional]
  refine ⟨g, hbuilt, fun n hlive => ?_⟩
  have hthere := List.getElem?_eq_getElem ((hcharts.isLive_iff n).1 hlive)
  obtain ⟨block, hfound, -⟩ := hcharts.renders n _ hthere
  exact (hkinds n _ block hthere hfound).2.2.2 (hfits block (List.mem_of_getElem? hfound))

/-- A block with two children that does not branch, and a block that returns and has a child. -/
def looseEnds : Method :=
  { owner := "LFoo;"
    name := "f"
    descriptor := "()V"
    access := ⟨AccessFlags.staticBit⟩
    registers := 0
    blocks :=
      [unitBlock "fork" 0 .nop [(1, 1), (2, 2)], unitBlock "left" 1 .returnVoid [(2, 2)],
       unitBlock "right" 2 .returnVoid []]
    exceptions := .empty }

theorem ofMethod_looseEnds :
    ∃ g, (ofMethod looseEnds (.ofMethod looseEnds) []).graph = .ok g ∧ g.isLive 0 = true ∧
      (g.node 0).kind = .statement ∧ g.succs 0 = [1, 2] ∧ g.isLive 1 = true ∧
      (g.node 1).kind = .ret ∧ g.succs 1 = [2] := by
  obtain ⟨g, events, hchecked, hbuilt⟩ := exists_graph looseEnds (.ofMethod looseEnds) []
    (fun g => g.isLive 0 && (g.node 0).kind == .statement && g.succs 0 == [1, 2] &&
      (g.isLive 1 && (g.node 1).kind == .ret && g.succs 1 == [2])) rfl (by decide +kernel)
    (by decide +kernel)
  simp only [Bool.and_eq_true, beq_iff_eq] at hchecked
  obtain ⟨⟨⟨hlive, hkind⟩, hsuccs⟩, ⟨hlive', hkind'⟩, hsuccs'⟩ := hchecked
  obtain ⟨hsuccs_eq, -, hlive_eq, -, -, hnode_eq⟩ := complete_keeps looseEnds g events
  exact ⟨_, hbuilt, (hlive_eq 0).trans hlive, (hnode_eq 0).1.trans hkind,
    (hsuccs_eq 0).trans hsuccs,
    (hlive_eq 1).trans hlive', (hnode_eq 1).1.trans hkind', (hsuccs_eq 1).trans hsuccs'⟩

/-- **Nodes can have more successors than their kind asks for.** -/
theorem ofMethod_disagrees :
    ¬ ∀ (m : Method) (vars : Variables) (events : EventLog) (g : FlowGraph) (n : NodeId),
      (ofMethod m vars events).graph = .ok g → g.isLive n = true →
      Conforms (g.node n).kind (g.succs n) := fun hagrees => by
  obtain ⟨g, hbuilt, hlive, hkind, hsuccs, -⟩ := ofMethod_looseEnds
  have hdisagree := hagrees looseEnds _ _ g 0 hbuilt hlive
  rw [hkind, hsuccs] at hdisagree
  have hshort : ([1, 2] : List NodeId).length ≤ 1 := hdisagree
  exact absurd hshort (by decide)

end Graphs

end FlowGraph
end DalvikDecompiler
