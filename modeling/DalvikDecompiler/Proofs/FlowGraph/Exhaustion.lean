import DalvikDecompiler.Proofs.FlowGraph.Merging
import DalvikDecompiler.Proofs.FlowGraph.Protection

/-!
# Merging until nothing is left to merge

**Input.** A flow graph, a dominator tree, and the number of passes that are allowed.

The order in which a pass visits the nodes is taken before its first merge, so a merged node is
visited by later passes only.  A merge may make another one possible in front of it or behind it: it
takes an edge away where both of its branches have led to the same node.  Passes go on until one of
them has visited all nodes and found nothing.

**Results.**
* `Merging.pass_quiet`: a pass without merges has changed nothing, and no merge is planned for any
  node that it has visited.
* `Merging.Paid`: each merge has cost a node and a branch.
* `merging_exhausts`: passes end with nothing left to merge, after fewer of them than there have
  been branches, and where they end does not depend on the bound.
-/

namespace DalvikDecompiler
namespace FlowGraph

/-- The nodes of the graph with two ways on. -/
def branches (g : FlowGraph) : List NodeId :=
  g.liveIds.filter fun n => (g.node n).kind.isCond

/-- No merge is planned for any node that can be reached. -/
def Exhausted (g : FlowGraph) : Prop :=
  ∀ n, g.toDigraph.Reachable g.entry n → g.Unmergeable n

section Counting

variable {g g' : FlowGraph} {first n : NodeId} {merge : Merge} {b : BranchTargets}

theorem nodup_liveIds
    (g : FlowGraph) :
    g.liveIds.Nodup :=
  List.nodup_range.filter _

theorem nodup_branches
    (g : FlowGraph) :
    g.branches.Nodup :=
  g.nodup_liveIds.filter _

theorem mem_branches_iff :
    n ∈ g.branches ↔ g.isLive n = true ∧ (g.node n).kind.isCond = true := by
  rw [branches, List.mem_filter, mem_liveIds_iff]

/-- A list has lost two members and gained one. -/
theorem length_of_exchange
    {xs ys : List NodeId}
    {a b c : NodeId}
    (hnodup : xs.Nodup)
    (hnodup' : ys.Nodup)
    (hlost : a ∈ xs)
    (hlost' : b ∈ xs)
    (hapart : b ≠ a)
    (hfresh : c ∉ xs)
    (hmem_iff : ∀ n, n ∈ ys ↔ n = c ∨ n ≠ a ∧ n ≠ b ∧ n ∈ xs) :
    ys.length + 1 = xs.length := by
  have hexchanged : ys.Perm (c :: (xs.erase a).erase b) := by
    refine (List.perm_ext_iff_of_nodup hnodup' (List.nodup_cons.2 ⟨fun hmem => ?_, ?_⟩)).2 fun n =>
      ?_
    · exact hfresh (List.mem_of_mem_erase (List.mem_of_mem_erase hmem))
    · exact (hnodup.erase a).erase b
    · rw [hmem_iff, List.mem_cons, (hnodup.erase a).mem_erase_iff, hnodup.mem_erase_iff]
      tauto
  have hone := List.length_erase_add_one hlost
  have htwo := List.length_erase_add_one ((List.mem_erase_of_ne hapart).2 hlost')
  rw [hexchanged.length_eq, List.length_cons]
  omega

theorem Merges.length_liveIds
    (hmerges : Merges g g' first merge)
    (hplans : g.Plans first b merge)
    (hlive : g.isLive first = true)
    (hlive' : g.isLive merge.second = true) :
    g'.liveIds.length + 1 = g.liveIds.length := by
  refine length_of_exchange g.nodup_liveIds g'.nodup_liveIds (mem_liveIds_iff.2 hlive)
    (mem_liveIds_iff.2 hlive') hplans.apart (c := g.size) (fun hmem => ?_) fun n => ?_
  · exact lt_irrefl _ (lt_size_of_isLive (mem_liveIds_iff.1 hmem))
  · simp only [mem_liveIds_iff, hmerges.live_iff]

/-- The merged node has two ways on, and the others have as many as before. -/
theorem Merges.length_branches
    (hmerges : Merges g g' first merge)
    (hplans : g.Plans first b merge)
    (hlive : g.isLive first = true)
    (hlive' : g.isLive merge.second = true)
    (htargets : (g.node first).kind.targets? = some b) :
    g'.branches.length + 1 = g.branches.length := by
  have hbranch {n : NodeId} {b : BranchTargets} (hlive : g.isLive n = true)
      (htargets : (g.node n).kind.targets? = some b) : n ∈ g.branches :=
    mem_branches_iff.2 ⟨hlive, by rw [NodeKind.isCond, htargets]; rfl⟩
  refine length_of_exchange g.nodup_branches g'.nodup_branches (hbranch hlive htargets)
    (hbranch hlive' hplans.targets) hplans.apart (c := g.size) (fun hmem => ?_) fun n => ?_
  · exact lt_irrefl _ (lt_size_of_isLive (mem_branches_iff.1 hmem).1)
  · rw [mem_branches_iff, mem_branches_iff, hmerges.live_iff]
    constructor
    · rintro ⟨rfl | ⟨hother, hother', hknown⟩, htwo⟩
      · exact .inl rfl
      · rw [NodeKind.isCond, hmerges.targets_kept hother hother' hknown, Option.isSome_map] at htwo
        exact .inr ⟨hother, hother', hknown, htwo⟩
    · rintro (rfl | ⟨hother, hother', hknown, htwo⟩)
      · exact ⟨.inl rfl, by rw [NodeKind.isCond, hmerges.targets_merged]; rfl⟩
      · refine ⟨.inr ⟨hother, hother', hknown⟩, ?_⟩
        rwa [NodeKind.isCond, hmerges.targets_kept hother hother' hknown, Option.isSome_map]

end Counting
end FlowGraph

namespace Merging

open FlowGraph (Exhausted mem_postOrder merges_mergeBranches plans_mergePlan retouches_reorder)

variable {s : Merging} {bound bound' nodes branches : Nat}

/-- Each of some merges has cost a graph one of its nodes and one of its branches. -/
structure Paid (nodes branches : Nat) (g : FlowGraph) (count : Nat) : Prop where
  wired : g.Wired
  nodes_eq : count + g.liveIds.length = nodes
  branches_eq : count + g.branches.length = branches

theorem Paid.merge
    {g : FlowGraph}
    {count : Nat}
    {first : NodeId}
    {b : BranchTargets}
    {merge : Merge}
    (h : Paid nodes branches g count)
    (hlive : g.isLive first = true)
    (htargets : (g.node first).kind.targets? = some b)
    (houter : b.contains first = false)
    (hplanned : g.mergePlan first b = some merge) :
    Paid nodes branches (g.mergeBranches first merge).2 (count + 1) := by
  have hplans := plans_mergePlan houter hplanned
  have hmerges := merges_mergeBranches h.wired hplans hlive
  have hone := hmerges.length_liveIds hplans hlive (hplans.live h.wired)
  have htwo := hmerges.length_branches hplans hlive (hplans.live h.wired) htargets
  exact ⟨hmerges.wired, by have := h.nodes_eq; omega, by have := h.branches_eq; omega⟩

theorem Paid.reorder
    {g : FlowGraph}
    {count : Nat}
    (h : Paid nodes branches g count) :
    Paid nodes branches g.reorder count := by
  have htouch := retouches_reorder g
  have hlives : g.reorder.liveIds = g.liveIds := by
    rw [FlowGraph.liveIds, FlowGraph.liveIds, htouch.size_eq]
    exact List.filter_congr fun n _ => htouch.isLive_eq n
  refine ⟨h.wired.retouch htouch, by rw [hlives, h.nodes_eq], ?_⟩
  rw [FlowGraph.branches, hlives, ← h.branches_eq, FlowGraph.branches]
  congr 2
  exact List.filter_congr fun n _ => congrArg NodeKind.isCond (htouch.kept n).kind_eq

theorem Paid.pass
    (h : Paid nodes branches s.graph s.merged) :
    Paid nodes branches s.pass.graph s.pass.merged :=
  pass_induction (P := fun g _ count => Paid nodes branches g count)
    (fun _ _ _ _ _ _ h => h.merge) s h

theorem Paid.passes
    (h : Paid nodes branches s.graph s.merged)
    (bound : Nat) :
    Paid nodes branches (passes bound s).1.graph (passes bound s).1.merged :=
  counted_induction (P := fun g _ count => Paid nodes branches g count)
    (fun _ _ _ _ _ _ h => h.merge) (fun _ _ _ h => h.reorder) bound s h

theorem merged_le_visit
    (s : Merging)
    (id : NodeId) :
    s.merged ≤ (s.visit id).merged := by
  rcases s.visit_cases id with ⟨-, -, hmerged, -⟩ | ⟨_, _, -, -, -, -, -, -, hmerged⟩
  · exact hmerged.ge
  · rw [hmerged]
    exact Nat.le_succ _

theorem merged_le_foldl
    (ids : List NodeId)
    (s : Merging) :
    s.merged ≤ (ids.foldl visit s).merged := by
  induction ids generalizing s with
  | nil => exact le_rfl
  | cons id ids ih => exact (s.merged_le_visit id).trans (ih (s.visit id))

/-- If the visits of some nodes merge nothing, then all of them have met the same graph. -/
theorem foldl_quiet
    (ids : List NodeId)
    (s : Merging)
    (hquiet : (ids.foldl visit s).merged = s.merged) :
    (ids.foldl visit s).graph = s.graph ∧ (ids.foldl visit s).tree = s.tree ∧
      ∀ n ∈ ids, s.graph.Unmergeable n := by
  induction ids generalizing s with
  | nil => simp
  | cons id ids ih =>
      rw [List.foldl_cons] at hquiet ⊢
      rcases s.visit_cases id with ⟨hgraph, htree, hmerged, hnone⟩ | ⟨_, _, -, -, -, -,
        -, -, hmerged⟩
      · obtain ⟨hgraph', htree', hrest⟩ := ih (s.visit id) (hquiet.trans hmerged.symm)
        rw [hgraph] at hgraph' hrest
        exact ⟨hgraph', htree'.trans htree, List.forall_mem_cons.2 ⟨hnone, hrest⟩⟩
      · have hmore := merged_le_foldl ids (s.visit id)
        omega

/-- **A pass without merges** has changed nothing, and there is nothing to merge. -/
theorem pass_quiet
    (hquiet : s.pass.merged = s.merged) :
    s.pass.graph = s.graph ∧ s.pass.tree = s.tree ∧ s.graph.Exhausted := by
  obtain ⟨hgraph, htree, hvisited⟩ := foldl_quiet s.graph.postOrder s hquiet
  exact ⟨hgraph, htree, fun n hreached b hlive => hvisited n (mem_postOrder hreached hlive) b hlive⟩

theorem passes_exhausted
    (hended : (passes bound s).2 = false) :
    (passes bound s).1.graph.Exhausted := by
  induction bound generalizing s with
  | zero => cases hended
  | succ bound ih =>
      by_cases hquiet : s.pass.merged = s.merged
      · obtain ⟨hgraph, -, hexhausted⟩ := pass_quiet hquiet
        rw [passes_of_quiet hquiet, hgraph]
        exact hexhausted
      · rw [passes_of_busy hquiet] at hended ⊢
        exact ih hended

/-- Every pass but the last one costs a branch. -/
theorem Paid.ends
    (h : Paid nodes branches s.graph s.merged)
    (henough : s.graph.branches.length < bound) :
    (Merging.passes bound s).2 = false := by
  induction bound generalizing s with
  | zero => cases henough
  | succ bound ih =>
      by_cases hquiet : s.pass.merged = s.merged
      · rw [passes_of_quiet hquiet]
      · have hnext := h.pass.reorder
        have hmore : s.merged ≤ s.pass.merged := merged_le_foldl s.graph.postOrder s
        have hbefore := h.branches_eq
        have hafter := hnext.branches_eq
        rw [passes_of_busy hquiet]
        refine ih hnext ?_
        dsimp only
        omega

/-- Passes that have ended are not affected by a larger bound. -/
theorem passes_of_le
    (hended : (passes bound s).2 = false)
    (hle : bound ≤ bound') :
    passes bound' s = passes bound s := by
  induction bound generalizing s bound' with
  | zero => cases hended
  | succ bound ih =>
      obtain ⟨more, rfl⟩ : ∃ more, bound' = more + 1 := ⟨bound' - 1, by omega⟩
      by_cases hquiet : s.pass.merged = s.merged
      · rw [passes_of_quiet hquiet, passes_of_quiet hquiet]
      · rw [passes_of_busy hquiet] at hended ⊢
        rw [passes_of_busy hquiet]
        exact ih hended (Nat.le_of_succ_le_succ hle)

end Merging

namespace FlowGraph

/-- **Merging reaches its end.**  If the last pass has found nothing, then no merge is left for any
node that can be reached.  In a graph that keeps each edge at both of its ends, that is so whenever
more passes are allowed than there are branches, whatever the bound is the outcome is the same then,
and each merge has taken one node away. -/
theorem merging_exhausts
    (g : FlowGraph)
    (tree : DominatorTree) :
    let start : Merging := { graph := g, tree, merged := 0, dangling := false }
    (∀ bound, (Merging.passes bound start).2 = false →
      (Merging.passes bound start).1.graph.Exhausted) ∧
    (g.Wired →
      (∀ bound, g.branches.length < bound → (Merging.passes bound start).2 = false) ∧
      (∀ bound bound', g.branches.length < bound → g.branches.length < bound' →
        Merging.passes bound start = Merging.passes bound' start) ∧
      ∀ bound, (Merging.passes bound start).1.merged +
        (Merging.passes bound start).1.graph.liveIds.length = g.liveIds.length) := by
  intro start
  refine ⟨fun bound hended => Merging.passes_exhausted hended, fun hwired => ?_⟩
  have hpaid : Merging.Paid g.liveIds.length g.branches.length start.graph start.merged :=
    ⟨hwired, Nat.zero_add _, Nat.zero_add _⟩
  refine ⟨fun bound henough => hpaid.ends henough, fun bound bound' henough henough' => ?_,
    fun bound => (hpaid.passes bound).nodes_eq⟩
  have hleast := hpaid.ends (Nat.lt_succ_self _)
  rw [Merging.passes_of_le hleast henough, Merging.passes_of_le hleast henough']

/-- Branches of which the second one can be merged with the third one only when the first one has
been merged with the second one. -/
def waitingTests : FlowGraph :=
  { FlowGraph.empty with
    slots := #[
      protectedSlot (.conditional ⟨1, 2⟩) [.ifCompareZero .eq (.var 0)] [1, 2] [] [] [],
      protectedSlot (.conditional ⟨3, 2⟩) [.ifCompareZero .eq (.var 1)] [3, 2] [0] [] [],
      protectedSlot (.conditional ⟨3, 4⟩) [.ifCompareZero .eq (.var 2)] [3, 4] [0, 1] [] [],
      protectedSlot .ret [.ret none] [] [1, 2] [] [],
      protectedSlot .ret [.ret none] [] [2] [] []] }

theorem merging_exhausts_waitingTests :
    waitingTests.Wired ∧ waitingTests.branches.length = 3 ∧
      (Merging.passes 4 ⟨waitingTests, .blank 5 0, 0, false⟩).2 = false ∧
      (Merging.passes 4 ⟨waitingTests, .blank 5 0, 0, false⟩).1.graph.Exhausted ∧
      (Merging.passes 4 ⟨waitingTests, .blank 5 0, 0, false⟩).1.merged +
        (Merging.passes 4 ⟨waitingTests, .blank 5 0, 0, false⟩).1.graph.liveIds.length = 5 := by
  have hwired : waitingTests.Wired := by decide
  obtain ⟨hexhausted, hmore⟩ := merging_exhausts waitingTests (.blank 5 0)
  obtain ⟨hends, -, hcounted⟩ := hmore hwired
  have hended := hends 4 (by decide)
  exact ⟨hwired, by decide, hended, hexhausted 4 hended, hcounted 4⟩

end FlowGraph
end DalvikDecompiler
