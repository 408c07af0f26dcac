import DalvikDecompiler.Proofs.FlowGraph.Merging
import DalvikDecompiler.Proofs.FlowGraph.Protection

/-!
# The conditions of merged branches

**Input.** A flow graph, and the graph after some merges.

A merged node stands for a tree of branches of the first graph.  The branches of all trees are
disjoint, and each node of the first graph is in one tree.

**Results.**
* `ConditionTree`: conditions joined by short circuits, with the tests that decide them.
* `Condenses`: what all merges keep about trees, and about exception edges.
* `merged_handlerSuccs`: which exception edges there are after merging.
-/

namespace DalvikDecompiler

open Edges (replacing)

/-- A condition that is one branch, or joins two conditions. -/
inductive ConditionTree where
  | test (branch : NodeId)
  /-- The second condition is tested if the first one, perhaps negated, leaves the answer open. -/
  | join (isAnd isNot : Bool) (first second : ConditionTree)

namespace ConditionTree

/-- The branches of a condition. -/
def tests : ConditionTree → List NodeId
  | test branch => [branch]
  | join _ _ first second => first.tests ++ second.tests

/-- The branch that is tested first. -/
def opening : ConditionTree → NodeId
  | test branch => branch
  | join _ _ first _ => first.opening

/-- How a condition comes out when its branches come out in a given way. -/
def value (truth : NodeId → Bool) : ConditionTree → Bool
  | test branch => truth branch
  | join isAnd isNot first second =>
      if (first.value truth != isNot) = isAnd then second.value truth else !isAnd

/-- The branches that are tested until a condition comes out, in order. -/
def tested (truth : NodeId → Bool) : ConditionTree → List NodeId
  | test branch => [branch]
  | join isAnd isNot first second =>
      first.tested truth ++
        if (first.value truth != isNot) = isAnd then second.tested truth else []

/-- The branches that are tested until a condition comes out, in order, and whether each of them is
written negated when the condition is written as it is or negated. -/
def written (truth : NodeId → Bool) : Bool → ConditionTree → List (NodeId × Bool)
  | negate, test branch => [(branch, negate)]
  | negate, join isAnd isNot first second =>
      first.written truth (isNot != negate) ++
        if (first.value truth != isNot) = isAnd then second.written truth negate else []

theorem opening_mem
    (c : ConditionTree) :
    c.opening ∈ c.tests := by
  induction c with
  | test => exact List.mem_singleton.2 rfl
  | join _ _ _ _ ih => exact List.mem_append_left _ ih

theorem tested_subset
    (truth : NodeId → Bool)
    (c : ConditionTree) :
    c.tested truth ⊆ c.tests := by
  induction c with
  | test => exact List.Subset.refl _
  | join isAnd isNot first second ih ih' =>
      refine List.append_subset.2 ⟨fun x hmem => List.mem_append_left _ (ih hmem), fun x hmem => ?_⟩
      split at hmem
      · exact List.mem_append_right _ (ih' hmem)
      · cases hmem

theorem map_fst_written
    (truth : NodeId → Bool)
    (negate : Bool)
    (c : ConditionTree) :
    (c.written truth negate).map Prod.fst = c.tested truth := by
  induction c generalizing negate with
  | test => rfl
  | join isAnd isNot first second ih ih' =>
      rw [written, tested, List.map_append, ih]
      split
      · rw [ih']
      · rfl

end ConditionTree

namespace FlowGraph

/-- A node stands for a condition of nodes below a bound, which were there before any merge. -/
inductive Comprises (g : FlowGraph) (bound : Nat) : NodeId → ConditionTree → Prop
  | test {n : NodeId} (hold : n < bound) :
      Comprises g bound n (.test n)
  | join {n : NodeId} {sc : ShortCircuit} {c c' : ConditionTree} (hnew : bound ≤ n)
      (hjoined : (g.node n).kind.base = .shortCircuit sc)
      (hbefore : sc.first < n ∧ sc.second < n)
      (hfirst : Comprises g bound sc.first c)
      (hsecond : Comprises g bound sc.second c') :
      Comprises g bound n (.join sc.isAnd sc.isNot c c')

/-- What merges have made of a graph: each node has a condition, and each node of the first graph
has one owner. -/
structure Condenses (g g' : FlowGraph) (condition : NodeId → ConditionTree)
    (owner : NodeId → NodeId) : Prop where
  wired : g'.Wired
  size_le : g.size ≤ g'.size
  entry_eq : g'.entry = owner g.entry
  renews : ∀ n < g.size, ∃ f, (g.node n).Renews f (g'.node n)
  comprises : ∀ n, g'.isLive n = true → g'.Comprises g.size n (condition n)
  owner_live : ∀ n, g.isLive n = true → g'.isLive (owner n) = true
  mem_tests_iff : ∀ n x, g'.isLive n = true →
    (x ∈ (condition n).tests ↔ g.isLive x = true ∧ owner x = n)
  mem_handlerSuccs_iff : ∀ a b, g'.isLive a = true → g'.isLive b = true →
    (b ∈ g'.handlerSuccs a ↔
      ∃ x ∈ (condition a).tests, (condition b).opening ∈ g.handlerSuccs x)

section Trees

variable {g g' : FlowGraph} {bound : Nat} {n first : NodeId} {c c' : ConditionTree} {merge : Merge}
variable {condition : NodeId → ConditionTree} {owner : NodeId → NodeId}

/-- A node stands for one condition only. -/
theorem Comprises.unique
    (h : g.Comprises bound n c)
    (h' : g.Comprises bound n c') :
    c = c' := by
  induction h generalizing c' with
  | test hold =>
      cases h' with
      | test => rfl
      | join hnew => exact absurd hold (Nat.not_lt.2 hnew)
  | @join n sc _ _ hnew hjoined _ _ _ ih ih' =>
      cases h' with
      | test hold => exact absurd hold (Nat.not_lt.2 hnew)
      | @join _ sc' _ _ _ hjoined' _ hfirst hsecond =>
          obtain rfl : sc = sc' := by simpa [hjoined] using hjoined'
          rw [ih hfirst, ih' hsecond]

theorem base_remap_shortCircuit
    {kind : NodeKind}
    {sc : ShortCircuit}
    {f : NodeId → NodeId}
    (hjoined : kind.base = .shortCircuit sc) :
    (kind.remap f).base = .shortCircuit { sc with branches := sc.branches.remap f } := by
  induction kind with
  | loop inner _ ih => exact ih hjoined
  | shortCircuit => cases hjoined; rfl
  | _ => cases hjoined

theorem base_remap_eq_shortCircuit
    {kind : NodeKind}
    {sc : ShortCircuit}
    {f : NodeId → NodeId}
    (hjoined : (kind.remap f).base = .shortCircuit sc) :
    ∃ sc', kind.base = .shortCircuit sc' := by
  induction kind with
  | loop inner _ ih => exact ih hjoined
  | shortCircuit sc' => exact ⟨sc', rfl⟩
  | _ => cases hjoined

/-- A merge changes the references of old nodes only. -/
theorem Merges.exists_renews
    (hmerges : Merges g g' first merge)
    (hknown : n < g.size) :
    ∃ f, (g.node n).Renews f (g'.node n) := by
  by_cases hlive : g'.isLive n = true
  · rcases hmerges.live_iff.1 hlive with rfl | ⟨hother, hother', hlive⟩
    · exact absurd hknown (lt_irrefl _)
    · exact ⟨_, hmerges.renews n hother hother' hlive⟩
  · rw [hmerges.node_eq n (Bool.eq_false_iff.2 hlive)]
    exact ⟨_, .refl _⟩

theorem Comprises.of_merges
    (hmerges : Merges g g' first merge)
    (h : g.Comprises bound n c)
    (hknown : n < g.size) :
    g'.Comprises bound n c := by
  induction h with
  | test hold => exact .test hold
  | @join n sc _ _ hnew hjoined hbefore _ _ ih ih' =>
      obtain ⟨f, hrenews⟩ := hmerges.exists_renews hknown
      have hjoined' := hrenews.kind_eq ▸ base_remap_shortCircuit hjoined
      exact @Comprises.join g' bound n { sc with branches := sc.branches.remap f } _ _ hnew hjoined'
        hbefore (ih (hbefore.1.trans hknown)) (ih' (hbefore.2.trans hknown))

/-- The condition of each node after a merge. -/
def conditionAfter (condition : NodeId → ConditionTree) (first merged : NodeId) (merge : Merge) :
    NodeId → ConditionTree :=
  Function.update condition merged
    (.join merge.isAnd merge.isNot (condition first) (condition merge.second))

theorem condenses_refl
    (h : g.Wired) :
    Condenses g g .test fun n => n where
  wired := h
  size_le := le_rfl
  entry_eq := rfl
  renews n _ := ⟨_, .refl _⟩
  comprises n hlive := .test (lt_size_of_isLive hlive)
  owner_live n hlive := hlive
  mem_tests_iff n x hlive := by
    simp only [ConditionTree.tests, List.mem_singleton]
    exact ⟨fun hsame => ⟨hsame ▸ hlive, hsame⟩, fun h => h.2⟩
  mem_handlerSuccs_iff a b _ _ := by simp [ConditionTree.tests, ConditionTree.opening]

theorem opening_conditionAfter
    (condition : NodeId → ConditionTree)
    (first merged n : NodeId)
    (merge : Merge) :
    (conditionAfter condition first merged merge n).opening =
      (condition (replacing merged first n)).opening := by
  unfold conditionAfter replacing
  split
  · next here =>
      rw [here, Function.update_self]
      rfl
  · next hother => rw [Function.update_of_ne hother]

/-- **A merge joins two conditions.** -/
theorem Condenses.of_merges
    {g'' : FlowGraph}
    {b : BranchTargets}
    (h : Condenses g g' condition owner)
    (hmerges : Merges g' g'' first merge)
    (hplans : g'.Plans first b merge)
    (hlive : g'.isLive first = true) :
    Condenses g g'' (conditionAfter condition first g'.size merge)
      fun n => combining first merge.second g'.size (owner n) := by
  have hlive' := hplans.live h.wired
  have hfresh {n : NodeId} (hlive : g'.isLive n = true) : n ≠ g'.size :=
    (lt_size_of_isLive hlive).ne
  have hmerged : conditionAfter condition first g'.size merge g'.size =
      .join merge.isAnd merge.isNot (condition first) (condition merge.second) :=
    Function.update_self ..
  have hkept {n : NodeId} (hlive : g'.isLive n = true) :
      conditionAfter condition first g'.size merge n = condition n :=
    Function.update_of_ne (hfresh hlive) ..
  have htests_iff (n x : NodeId) (hthere : g''.isLive n = true) :
      x ∈ (conditionAfter condition first g'.size merge n).tests ↔
        g.isLive x = true ∧ combining first merge.second g'.size (owner x) = n := by
    rcases hmerges.live_iff.1 hthere with rfl | ⟨hother, hother', hthere⟩
    · rw [hmerged, ConditionTree.tests, List.mem_append, h.mem_tests_iff _ x hlive,
        h.mem_tests_iff _ x hlive', ← and_or_left]
      exact and_congr_right fun hknown =>
        (combining_eq_merged_iff (hfresh (h.owner_live x hknown))).symm
    · rw [hkept hthere, h.mem_tests_iff n x hthere]
      exact and_congr_right fun hknown => (combining_eq_iff (hfresh hthere) hother hother').symm
  refine
    { wired := hmerges.wired
      size_le := h.size_le.trans (by rw [hmerges.size_eq]; exact Nat.le_succ _)
      entry_eq := by rw [hmerges.entry_eq, h.entry_eq]
      renews := fun n hknown => ?_
      comprises := fun n hthere => ?_
      owner_live := fun n hthere => ?_
      mem_tests_iff := htests_iff
      mem_handlerSuccs_iff := fun a b ha hb => ?_ }
  · obtain ⟨f, hrenews⟩ := h.renews n hknown
    obtain ⟨f', hrenews'⟩ := hmerges.exists_renews (hknown.trans_le h.size_le)
    exact ⟨_, hrenews.trans hrenews'⟩
  · rcases hmerges.live_iff.1 hthere with rfl | ⟨-, -, hthere⟩
    · rw [hmerged]
      have hjoined := congrArg NodeKind.base hmerges.kind_eq
      exact .join h.size_le hjoined ⟨lt_size_of_isLive hlive, lt_size_of_isLive hlive'⟩
        ((h.comprises first hlive).of_merges hmerges (lt_size_of_isLive hlive))
        ((h.comprises merge.second hlive').of_merges hmerges (lt_size_of_isLive hlive'))
    · rw [hkept hthere]
      exact (h.comprises n hthere).of_merges hmerges (lt_size_of_isLive hthere)
  · exact hmerges.live_combining (h.owner_live n hthere)
  · rw [hmerges.mem_handlerSuccs, opening_conditionAfter]
    have htarget := hmerges.live_replacing hlive hb
    constructor
    · rintro ⟨x, y, hedge, hother, hsource, rfl⟩
      obtain ⟨hx, hy⟩ := h.wired.live x y (.inr hedge)
      rw [replacing_combining hy hother]
      obtain ⟨z, hmem, horigin⟩ := (h.mem_handlerSuccs_iff x _ hx hy).1 hedge
      obtain ⟨hknown, rfl⟩ := (h.mem_tests_iff x z hx).1 hmem
      exact ⟨z, (htests_iff a z ha).2 ⟨hknown, hsource⟩, horigin⟩
    · rintro ⟨z, hmem, hedge⟩
      obtain ⟨hknown, hsource⟩ := (htests_iff a z ha).1 hmem
      have hx := h.owner_live z hknown
      refine ⟨owner z, _, (h.mem_handlerSuccs_iff _ _ hx htarget).2
        ⟨z, (h.mem_tests_iff _ z hx).2 ⟨hknown, rfl⟩, hedge⟩,
        hmerges.replacing_ne_second hplans hb, hsource, hmerges.combining_replacing hb⟩

/-- Conditions are the same in a graph in which nodes are merged from the same ones. -/
theorem Comprises.of_base
    (hsame : ∀ n sc, (g.node n).kind.base = .shortCircuit sc →
      ∃ branches, (g'.node n).kind.base = .shortCircuit { sc with branches })
    (h : g.Comprises bound n c) :
    g'.Comprises bound n c := by
  induction h with
  | test hold => exact .test hold
  | @join n sc _ _ hnew hjoined hbefore _ _ ih ih' =>
      obtain ⟨branches, hjoined⟩ := hsame n sc hjoined
      exact @Comprises.join g' bound n { sc with branches } _ _ hnew hjoined hbefore ih ih'

theorem Condenses.of_reorder
    (h : Condenses g g' condition owner) :
    Condenses g g'.reorder condition owner := by
  have htouch := g'.retouches_reorder
  have hkind (n : NodeId) : (g'.reorder.node n).kind = (g'.node n).kind := (htouch.kept n).kind_eq
  refine
    { wired := h.wired.retouch htouch
      size_le := htouch.size_eq.symm ▸ h.size_le
      entry_eq := htouch.entry_eq.trans h.entry_eq
      renews := fun n hknown => ?_
      comprises := fun n hlive => ?_
      owner_live := fun n hlive => (htouch.isLive_eq _).trans (h.owner_live n hlive)
      mem_tests_iff := fun n x hlive => h.mem_tests_iff n x ((htouch.isLive_eq n).symm.trans hlive)
      mem_handlerSuccs_iff := fun a b ha hb => ?_ }
  · obtain ⟨f, hrenews⟩ := h.renews n hknown
    obtain ⟨num, hsame⟩ := htouch.kept n
    rw [hsame]
    exact ⟨f, hrenews.ins_eq, hrenews.locs_eq, hrenews.kind_eq⟩
  · exact (h.comprises n ((htouch.isLive_eq n).symm.trans hlive)).of_base fun n sc hjoined =>
      ⟨sc.branches, (hkind n).symm ▸ hjoined⟩
  · rw [htouch.handlerSuccs_eq]
    exact h.mem_handlerSuccs_iff a b ((htouch.isLive_eq a).symm.trans ha)
      ((htouch.isLive_eq b).symm.trans hb)

/-- **Merging puts each node into one condition.** -/
theorem merged_condenses
    (h : g.Wired)
    (tree : DominatorTree)
    (passes : Nat) :
    ∃ condition owner, Condenses g (g.merged tree passes) condition owner := by
  refine Merging.passes_induction
    (P := fun g' _ => ∃ condition owner, Condenses g g' condition owner)
    ?_ ?_ passes _ ⟨_, _, condenses_refl h⟩
  · rintro g' _ first b merge ⟨condition, owner, hcondenses⟩ hlive - houter hplanned
    have hplans := plans_mergePlan houter hplanned
    exact ⟨_, _, hcondenses.of_merges
      (merges_mergeBranches hcondenses.wired hplans hlive) hplans hlive⟩
  · rintro g' _ ⟨condition, owner, hcondenses⟩
    exact ⟨_, _, hcondenses.of_reorder⟩

/-- **Exception edges of a graph whose branches have been merged.**  Every node of the first graph
is found in the condition of exactly one node, and a node is protected by another one exactly when
some branch of its condition was protected by the branch that the condition of the other one tests
first.  So an exception edge is kept if its handler is tested first. -/
theorem merged_handlerSuccs
    (h : g.Wired)
    (tree : DominatorTree)
    (passes : Nat) :
    let g' := g.merged tree passes
    (∀ n, g.isLive n = true →
      ∃! m, g'.isLive m = true ∧ ∃ c, g'.Comprises g.size m c ∧ n ∈ c.tests) ∧
    (∀ m, g'.isLive m = true →
      ∃ c, g'.Comprises g.size m c ∧ ∀ n ∈ c.tests, g.isLive n = true) ∧
    ∀ m m' c c', g'.isLive m = true → g'.isLive m' = true →
      g'.Comprises g.size m c → g'.Comprises g.size m' c' →
      (m' ∈ g'.handlerSuccs m ↔ ∃ n ∈ c.tests, c'.opening ∈ g.handlerSuccs n) := by
  intro g'
  obtain ⟨condition, owner, hcondenses⟩ := merged_condenses h tree passes
  refine ⟨fun n hlive => ?_, fun m hlive => ?_,
    fun m m' c c' hlive hlive' hcomprises hcomprises' => ?_⟩
  · have hthere := hcondenses.owner_live n hlive
    refine ⟨owner n, ⟨hthere, condition (owner n), hcondenses.comprises _ hthere,
      (hcondenses.mem_tests_iff _ n hthere).2 ⟨hlive, rfl⟩⟩, ?_⟩
    rintro m ⟨hknown, c, hcomprises, hmem⟩
    rw [hcomprises.unique (hcondenses.comprises m hknown),
      hcondenses.mem_tests_iff m n hknown] at hmem
    exact hmem.2.symm
  · exact ⟨condition m, hcondenses.comprises m hlive, fun n hmem =>
      ((hcondenses.mem_tests_iff m n hlive).1 hmem).1⟩
  · rw [hcomprises.unique (hcondenses.comprises m hlive),
      hcomprises'.unique (hcondenses.comprises m' hlive')]
    exact hcondenses.mem_handlerSuccs_iff m m' hlive hlive'

/-- A handler that is a branch, and which another branch outside of the protected code leads to. -/
def guardedBranch : FlowGraph :=
  { FlowGraph.empty with
    slots := #[
      protectedSlot .statement [] [1] [] [2] [],
      protectedSlot (.conditional ⟨4, 2⟩) [.ifCompareZero .eq (.var 0)] [2, 4] [0] [] [],
      protectedSlot (.conditional ⟨4, 3⟩) [.ifCompareZero .eq (.var 1)] [3, 4] [1] [] [0],
      protectedSlot .statement [] [4] [2] [] [],
      protectedSlot .ret [.ret none] [] [1, 2, 3] [] []] }

/-- The graph after one pass, which merges `1` and `2`. -/
def mergedGuard : FlowGraph :=
  guardedBranch.merged (.blank 5 0) 1

theorem mergedGuard_facts :
    mergedGuard.isLive 0 = true ∧ mergedGuard.isLive 5 = true ∧ mergedGuard.handlerSuccs 0 = [] ∧
      (mergedGuard.node 5).kind = .shortCircuit
        { first := 1, second := 2, isAnd := false, isNot := false, branches := ⟨4, 3⟩ } := by
  have horder : guardedBranch.postOrder = [4, 3, 2, 1, 0] := by cbv
  have htouch := retouches_merged_one guardedBranch (.blank 5 0) horder
  have hkind := (htouch.kept 5).kind_eq
  rw [mergedGuard, htouch.isLive_eq, htouch.isLive_eq, htouch.handlerSuccs_eq, hkind]
  decide +kernel

theorem mergedGuard_comprises :
    mergedGuard.Comprises 5 5 (.join false false (.test 1) (.test 2)) :=
  .join (by decide) (congrArg NodeKind.base mergedGuard_facts.2.2.2) (by decide) (.test (by decide))
    (.test (by decide))

theorem merged_handlerSuccs_guardedBranch :
    guardedBranch.Wired ∧ mergedGuard.isLive 0 = true ∧ mergedGuard.isLive 5 = true ∧
      (5 ∈ mergedGuard.handlerSuccs 0 ↔
        ∃ n ∈ (ConditionTree.test 0).tests,
          (ConditionTree.join false false (.test 1) (.test 2)).opening ∈
            guardedBranch.handlerSuccs n) := by
  have hwired : guardedBranch.Wired := by decide
  obtain ⟨hlive, hlive', -, -⟩ := mergedGuard_facts
  exact ⟨hwired, hlive, hlive',
    (merged_handlerSuccs hwired (.blank 5 0) 1).2.2 0 5 _ _ hlive hlive' (.test (by decide))
      mergedGuard_comprises⟩

/-- The exception edge from `0` to `2` is lost, since `2` is the second half of a condition. -/
theorem guardedBranch_loses :
    ¬ ∀ (g : FlowGraph) (tree : DominatorTree) (passes : Nat) (n h m m' : NodeId)
      (c c' : ConditionTree), g.Wired → h ∈ g.handlerSuccs n →
        (g.merged tree passes).isLive m = true → (g.merged tree passes).isLive m' = true →
        (g.merged tree passes).Comprises g.size m c →
        (g.merged tree passes).Comprises g.size m' c' →
        n ∈ c.tests → h ∈ c'.tests → m' ∈ (g.merged tree passes).handlerSuccs m := by
  intro hkept
  obtain ⟨hlive, hlive', hnone, -⟩ := mergedGuard_facts
  have hedge := hkept guardedBranch (.blank 5 0) 1 0 2 0 5 _ _ (by decide) (by decide) hlive hlive'
    (.test (by decide)) mergedGuard_comprises (by decide) (by decide)
  exact List.not_mem_nil (hnone ▸ hedge)

end Trees

end FlowGraph
end DalvikDecompiler
