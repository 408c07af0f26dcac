import DalvikDecompiler.Proofs.FlowGraph.LoopFree

/-!
# Parts of walks

A trip is part of a walk, of a given number of steps.  Other than a walk it may pass the heads of
loops, as often as it likes, and it need not leave the method.

`Unprotected` is the class of graphs without protected regions whose code stands where it belongs.

Main statements: `Trip.trans`, `step_straight_iff`, `step_branch_iff`, `step_leave_iff`.
-/

namespace DalvikDecompiler

open Symbolic (Instr)

namespace NodeKind

theorem targets?_base
    (kind : NodeKind) :
    kind.base.targets? = kind.targets? := by
  induction kind with
  | loop inner _ ih => exact ih
  | _ => rfl

theorem switch?_base
    (kind : NodeKind) :
    kind.base.switch? = kind.switch? := by
  induction kind with
  | loop inner _ ih => exact ih
  | _ => rfl

theorem targets?_of_base
    {kind other : NodeKind}
    (h : kind.base = other) :
    kind.targets? = other.targets? := by
  rw [← targets?_base, h]

theorem switch?_of_base
    {kind other : NodeKind}
    (h : kind.base = other) :
    kind.switch? = other.switch? := by
  rw [← switch?_base, h]

/-- A node that branches is no switch. -/
theorem isSwitch_of_targets?
    {kind : NodeKind}
    {b : BranchTargets}
    (h : kind.targets? = some b) :
    kind.isSwitch = false := by
  induction kind with
  | loop inner _ ih => exact ih h
  | conditional | shortCircuit => rfl
  | _ => cases h

/-- A node that leaves the method is no switch. -/
theorem isSwitch_of_isExit
    {kind : NodeKind}
    (h : kind.isExit = true) :
    kind.isSwitch = false := by
  induction kind with
  | loop inner _ ih => exact ih h
  | ret | throw => rfl
  | _ => cases h

end NodeKind

namespace FlowGraph

/-- One step of a walk, which leads to another node or leaves the method. -/
inductive Step (g : FlowGraph) (id : NodeId) : List FlowEvent → Option NodeId → Prop
  | straight {next : NodeId}
      (hkind : (g.node id).kind.base = .statement)
      (hsuccs : g.succs id = [next]) :
      Step g id ((g.node id).ins.map .performs) (some next)
  | branch {b : BranchTargets} {holds : Bool} {before : List FlowEvent}
      (htargets : (g.node id).kind.targets? = some b)
      (hdecided : g.Decides id before holds) :
      Step g id before (some (b.toward holds))
  | leave
      (hkind : (g.node id).kind.isExit = true) :
      Step g id ((g.node id).ins.map .performs) none

/-- What happens in some steps of a walk. -/
inductive Trip (g : FlowGraph) : Nat → NodeId → List FlowEvent → Option NodeId → Prop
  | here {id : NodeId} :
      Trip g 0 id [] (some id)
  | step {k : Nat} {id next : NodeId} {flow rest : List FlowEvent} {fate : Option NodeId}
      (hfirst : g.Step id flow (some next))
      (h : Trip g k next rest fate) :
      Trip g (k + 1) id (flow ++ rest) fate
  | leave {id : NodeId} {flow : List FlowEvent}
      (hlast : g.Step id flow none) :
      Trip g 1 id flow none

/-- A walk from the entry comes to a node. -/
def ComesTo (g : FlowGraph) (id : NodeId) : Prop :=
  ∃ k flow, g.Trip k g.entry flow (some id)

/-- The number of a node that a walk comes to is not that of another node. -/
def NumbersApart (g : FlowGraph) : Prop :=
  ∀ id other, g.ComesTo id → g.isLive other = true → (g.node id).num = (g.node other).num →
    id = other

/-- The ways a node ends that is no part of a protected region.  A node with a condition holds
nothing else, and only the last instruction of an exit leaves the method. -/
inductive Ending (g : FlowGraph) (id : NodeId) : Prop
  | straight {next : NodeId}
      (hkind : (g.node id).kind.base = .statement)
      (hsuccs : g.succs id = [next])
      (hlive : g.isLive next = true)
      (hstays : ∀ ins ∈ (g.node id).ins, ins.leaves = false)
  | branch {b : BranchTargets}
      (htargets : (g.node id).kind.targets? = some b)
      (hlive : ∀ holds, g.isLive (b.toward holds) = true)
      (htestable : g.Testable id)
  | select {cases : SwitchTable}
      (htargets : (g.node id).kind.switch? = some cases)
      (hlive : ∀ n, n ∈ cases.cases ∨ n ∈ cases.fallback → g.isLive n = true)
  | leave {ahead : List Instr} {last : Instr}
      (hkind : (g.node id).kind.base = .ret ∨ (g.node id).kind.base = .throw)
      (hcode : (g.node id).ins = ahead ++ [last])
      (hstays : ∀ ins ∈ ahead, ins.leaves = false)
      (hleaves : last.leaves = true)

/-- Code without protected regions: each node ends in one of these ways, and what it is marked with
belongs to the graph. -/
structure Unprotected (g : FlowGraph) : Prop where
  entry : g.isLive g.entry = true
  ending : ∀ id, g.isLive id = true → g.Ending id
  marked : ∀ id, g.isLive id = true → ∀ n, n ∈ (g.node id).ifFollow ∨ n ∈ (g.node id).loopFollow ∨
    n ∈ (g.node id).switchFollow ∨ n ∈ (g.node id).latch → g.isLive n = true

section Trips

variable {g : FlowGraph} {k k' : Nat} {id next m : NodeId} {flow flow' : List FlowEvent}
variable {fate : Option NodeId}

theorem Trip.trans
    (h : g.Trip k id flow (some m))
    (h' : g.Trip k' m flow' fate) :
    g.Trip (k + k') id (flow ++ flow') fate := by
  generalize hm : some m = fate' at h
  induction h with
  | here =>
      obtain rfl := Option.some.inj hm
      rwa [Nat.zero_add, List.nil_append]
  | @step k _ _ _ _ _ hfirst _ ih =>
      rw [Nat.add_right_comm, List.append_assoc]
      exact .step hfirst (ih hm)
  | leave => cases hm

theorem Step.trip
    {next : Option NodeId}
    (h : g.Step id flow next) :
    g.Trip 1 id flow next := by
  cases next with
  | none => exact .leave h
  | some next => exact List.append_nil flow ▸ .step h .here

theorem ComesTo.trip
    (h : g.ComesTo id)
    (htrip : g.Trip k id flow (some m)) :
    g.ComesTo m := by
  obtain ⟨_, _, hbefore⟩ := h
  exact ⟨_, _, hbefore.trans htrip⟩

/-- What leads on along the steps of walks holds of all nodes that a walk comes to. -/
theorem ComesTo.induction
    {P : NodeId → Prop}
    (hentry : P g.entry)
    (hsteps : ∀ id flow next, P id → g.Step id flow (some next) → P next)
    (h : g.ComesTo m) :
    P m := by
  obtain ⟨_, _, htrip⟩ := h
  generalize g.entry = start at hentry htrip
  generalize hm : some m = fate at htrip
  induction htrip with
  | here => exact Option.some.inj hm ▸ hentry
  | step hfirst _ ih => exact ih (hsteps _ _ _ hentry hfirst) hm
  | leave => cases hm

section Kinds

variable {next : Option NodeId}

theorem step_straight_iff
    {n : NodeId}
    (hkind : (g.node id).kind.base = .statement)
    (hsuccs : g.succs id = [n]) :
    g.Step id flow next ↔ flow = (g.node id).ins.map .performs ∧ next = some n := by
  constructor
  · intro h
    cases h with
    | straight _ hsame => exact ⟨rfl, by simpa [hsuccs, eq_comm] using hsame⟩
    | branch htargets => simp [NodeKind.targets?_of_base hkind, NodeKind.targets?] at htargets
    | leave hexit => simp [NodeKind.isExit, hkind] at hexit
  · rintro ⟨rfl, rfl⟩
    exact .straight hkind hsuccs

theorem step_branch_iff
    {b : BranchTargets}
    (htargets : (g.node id).kind.targets? = some b) :
    g.Step id flow next ↔ ∃ holds, g.Decides id flow holds ∧ next = some (b.toward holds) := by
  constructor
  · intro h
    cases h with
    | straight hkind => simp [NodeKind.targets?_of_base hkind, NodeKind.targets?] at htargets
    | branch hsame hdecided =>
        obtain rfl : b = _ := by simpa [htargets] using hsame
        exact ⟨_, hdecided, rfl⟩
    | leave hexit =>
        rcases Bool.or_eq_true_iff.1 hexit with hkind | hkind
        all_goals simp [NodeKind.targets?_of_base (eq_of_beq hkind), NodeKind.targets?] at htargets
  · rintro ⟨holds, hdecided, rfl⟩
    exact .branch htargets hdecided

theorem step_leave_iff
    (hkind : (g.node id).kind.isExit = true) :
    g.Step id flow next ↔ flow = (g.node id).ins.map .performs ∧ next = none := by
  constructor
  · intro h
    cases h with
    | straight hsame => simp [NodeKind.isExit, hsame] at hkind
    | branch htargets =>
        rcases Bool.or_eq_true_iff.1 hkind with hkind | hkind
        all_goals simp [NodeKind.targets?_of_base (eq_of_beq hkind), NodeKind.targets?] at htargets
    | leave => exact ⟨rfl, rfl⟩
  · rintro ⟨rfl, rfl⟩
    exact .leave hkind

end Kinds

end Trips

namespace Ending

variable {g : FlowGraph} {id : NodeId}

/-- A node that runs straight on has one node behind it, and stays in the method. -/
theorem of_straight
    (h : g.Ending id)
    (hkind : (g.node id).kind.base = .statement) :
    ∃ next, g.succs id = [next] ∧ g.isLive next = true ∧
      ∀ ins ∈ (g.node id).ins, ins.leaves = false := by
  cases h with
  | straight _ hsuccs hlive hstays => exact ⟨_, hsuccs, hlive, hstays⟩
  | branch htargets => simp [NodeKind.targets?_of_base hkind, NodeKind.targets?] at htargets
  | select htargets => simp [NodeKind.switch?_of_base hkind, NodeKind.switch?] at htargets
  | leave hother => rcases hother with hother | hother <;> simp [hkind] at hother

theorem of_branch
    (h : g.Ending id)
    {b : BranchTargets}
    (htargets : (g.node id).kind.targets? = some b) :
    (∀ holds, g.isLive (b.toward holds) = true) ∧ g.Testable id := by
  cases h with
  | straight hkind => simp [NodeKind.targets?_of_base hkind, NodeKind.targets?] at htargets
  | branch hsame hlive htestable =>
      obtain rfl : b = _ := by simpa [htargets] using hsame
      exact ⟨hlive, htestable⟩
  | select hsame =>
      have hplain := NodeKind.isSwitch_of_targets? htargets
      simp [NodeKind.isSwitch, hsame] at hplain
  | leave hkind =>
      rcases hkind with hkind | hkind <;>
        simp [NodeKind.targets?_of_base hkind, NodeKind.targets?] at htargets

theorem of_select
    (h : g.Ending id)
    {cases : SwitchTable}
    (htargets : (g.node id).kind.switch? = some cases)
    {n : NodeId}
    (hmem : n ∈ cases.cases ∨ n ∈ cases.fallback) :
    g.isLive n = true := by
  cases h with
  | straight hkind => simp [NodeKind.switch?_of_base hkind, NodeKind.switch?] at htargets
  | branch hsame =>
      have hplain := NodeKind.isSwitch_of_targets? hsame
      simp [NodeKind.isSwitch, htargets] at hplain
  | select hsame hlive =>
      obtain rfl : cases = _ := by simpa [htargets] using hsame
      exact hlive n hmem
  | leave hkind =>
      rcases hkind with hkind | hkind <;>
        simp [NodeKind.switch?_of_base hkind, NodeKind.switch?] at htargets

theorem of_leave
    (h : g.Ending id)
    (hkind : (g.node id).kind.isExit = true) :
    ∃ ahead last, (g.node id).ins = ahead ++ [last] ∧
      (∀ ins ∈ ahead, ins.leaves = false) ∧ last.leaves = true := by
  cases h with
  | straight hother => simp [NodeKind.isExit, hother] at hkind
  | branch htargets =>
      rcases Bool.or_eq_true_iff.1 hkind with hkind | hkind
      all_goals simp [NodeKind.targets?_of_base (eq_of_beq hkind), NodeKind.targets?] at htargets
  | select htargets =>
      have hplain := NodeKind.isSwitch_of_isExit hkind
      simp [NodeKind.isSwitch, htargets] at hplain
  | leave _ hcode hstays hleaves => exact ⟨_, _, hcode, hstays, hleaves⟩

/-- A node is of no kind that these ways leave out. -/
theorem base_ne
    (h : g.Ending id)
    {kind : NodeKind}
    (htargets : kind.targets? = none)
    (htable : kind.switch? = none)
    (hothers : kind ≠ .statement ∧ kind ≠ .ret ∧ kind ≠ .throw) :
    (g.node id).kind.base ≠ kind := by
  intro hsame
  cases h with
  | straight hother => exact hothers.1 (hsame.symm.trans hother)
  | branch hbranches => simp [NodeKind.targets?_of_base hsame, htargets] at hbranches
  | select hselects => simp [NodeKind.switch?_of_base hsame, htable] at hselects
  | leave hother =>
      rcases hother with hother | hother
      · exact hothers.2.1 (hsame.symm.trans hother)
      · exact hothers.2.2 (hsame.symm.trans hother)

end Ending

/-- Walks do not lead out of the graph. -/
theorem ComesTo.isLive
    {g : FlowGraph}
    {id : NodeId}
    (h : g.ComesTo id)
    (hgraph : g.Unprotected) :
    g.isLive id = true := by
  refine @ComesTo.induction g id (g.isLive · = true) hgraph.entry
    (fun id flow next hlive hfirst => ?_) h
  cases hfirst with
  | straight hkind hsuccs =>
      obtain ⟨_, hsame, hlive', -⟩ := (hgraph.ending id hlive).of_straight hkind
      obtain rfl := List.head_eq_of_cons_eq (hsuccs.symm.trans hsame)
      exact hlive'
  | branch htargets => exact ((hgraph.ending id hlive).of_branch htargets).1 _

end FlowGraph
end DalvikDecompiler
