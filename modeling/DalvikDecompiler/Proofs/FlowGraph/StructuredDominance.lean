import DalvikDecompiler.Proofs.FlowGraph.Marking
import DalvikDecompiler.Proofs.FlowGraph.MergedDominance

/-!
# The dominator tree of a structured graph

**Input.** A guided flow graph with its dominator tree.

Of all stages of structuring, only merging and entering regions change edges.  In a graph without
exception edges there are no regions, so that the tree stays exact as long as merging keeps it so.

**Results.**
* `prepared_fits`: the tree fits the graph when regions are about to be entered.
* `structured_dominators`: without exception edges, tree, entry and numbers are those of the
  structured graph, if the entry is tested first wherever it is tested.
-/

namespace DalvikDecompiler

namespace DominatorTree

variable (t : DominatorTree) (f : NodeId → Nat)

theorem foldl_setNumber_facts
    (order : List NodeId) :
    (order.foldl (fun t n => t.setNumber n (f n)) t).entry = t.entry ∧
      (∀ n, (order.foldl (fun t n => t.setNumber n (f n)) t).immediateDominator n =
        t.immediateDominator n) ∧
      ∀ n, (order.foldl (fun t n => t.setNumber n (f n)) t).number n =
        if n ∈ order then f n else t.number n := by
  induction order generalizing t with
  | nil => exact ⟨rfl, fun _ => rfl, fun _ => (if_neg List.not_mem_nil).symm⟩
  | cons first rest ih =>
      obtain ⟨hentry, hparent, hnumber⟩ := ih (t.setNumber first (f first))
      refine ⟨hentry, fun n =>
        (hparent n).trans (t.immediateDominator_setNumber _ _ _), fun n => ?_⟩
      rw [List.foldl_cons, hnumber, number_setNumber]
      grind

end DominatorTree

namespace FlowGraph

/-- The graph with its switches and loops marked. -/
def marked (g : FlowGraph) (tree : DominatorTree) : FlowGraph :=
  ((g.markSwitches tree).recordLoops (g.toDigraph.derivedSequence g.order)).1

/-- The graph and the tree with which regions are entered. -/
def prepared (g : FlowGraph) (tree : DominatorTree) (passes : Nat) : FlowGraph × DominatorTree :=
  let merging :=
    (Merging.passes passes { graph := g.marked tree, tree, merged := 0, dangling := false }).1
  let numbered := merging.graph.reorder
  let tree := numbered.renumber merging.tree
  let (branched, waiting) := numbered.markIfFollows tree
  (waiting.foldl markByContext branched.makeHeads.describeLoops.1, tree)

section Preparing

variable {g g' : FlowGraph} {tree : DominatorTree} {n : NodeId}

theorem structured_eq
    (g : FlowGraph)
    (tree : DominatorTree)
    (passes : Nat)
    (method : String) :
    (g.structured tree passes method).graph =
        ((g.prepared tree passes).1.protect (g.prepared tree passes).2).graph ∧
      (g.structured tree passes method).tree = (g.prepared tree passes).2 :=
  ⟨rfl, rfl⟩

theorem marked_marks
    (g : FlowGraph)
    (tree : DominatorTree) :
    Marks g (g.marked tree) :=
  (markSwitches_marks g tree).trans (recordLoops_marks _ _)

theorem prepared_marks
    (g : FlowGraph)
    (tree : DominatorTree)
    (passes : Nat) :
    Marks ((g.marked tree).merged tree passes).reorder (g.prepared tree passes).1 :=
  (((markIfFollows_marks _ _).trans (makeHeads_marks _)).trans (describeLoops_marks _)).trans
    (marks_foldl (fun g => g) markByContext_marks _ _)

/-- The prepared graph is the merged one with numbers and marks. -/
theorem prepared_retouches
    (g : FlowGraph)
    (tree : DominatorTree)
    (passes : Nat) :
    Retouches (fun n n' => ∀ sc, n'.kind.base = .shortCircuit sc ↔ n.kind.base = .shortCircuit sc)
      ((g.marked tree).merged tree passes) (g.prepared tree passes).1 :=
  ((retouches_reorder _).mono fun _ _ h _ => by rw [h.kind_eq]).trans
    (fun _ _ _ h h' sc => (h' sc).trans (h sc))
    ((prepared_marks g tree passes).touch.mono fun _ _ h => h.base_iff)

theorem Marks.landing_iff
    (hmarks : Marks g g') :
    g'.Landing n ↔ g.Landing n := by
  simp only [Landing, hmarks.touch.entry_eq, hmarks.touch.handlerSuccs_eq]

theorem order_reorder
    (g : FlowGraph) :
    g.reorder.order = g.reorder.toDigraph.reversePostorder g.reorder.entry := by
  have htouch := g.retouches_reorder
  rw [htouch.toDigraph_eq, htouch.entry_eq]
  exact g.reorder_sameCode.2

/-- Marks do not change what is tested first. -/
theorem opens_iff
    {bound : Nat}
    (htouch : Retouches
      (fun n n' => ∀ sc, n'.kind.base = .shortCircuit sc ↔ n.kind.base = .shortCircuit sc) g g') :
    g'.Opens bound n ↔ g.Opens bound n := by
  refine forall_congr' fun m => forall_congr' fun c => ?_
  rw [htouch.isLive_eq]
  have hcomprises : g'.Comprises bound m c ↔ g.Comprises bound m c :=
    ⟨.of_base fun n sc hjoined => ⟨sc.branches, (htouch.kept n sc).1 hjoined⟩,
      .of_base fun n sc hjoined => ⟨sc.branches, (htouch.kept n sc).2 hjoined⟩⟩
  rw [hcomprises]

/-- **The tree fits the graph when regions are about to be entered**, if control comes from outside,
and by exceptions, only to branches that are tested first. -/
theorem prepared_fits
    (h : g.Guided)
    (hentry : g.isLive g.entry = true)
    (hfits : tree.Fits g.toDigraph)
    (passes : Nat)
    (hopens : ∀ n, g.Landing n → (g.prepared tree passes).1.Opens g.size n) :
    (g.prepared tree passes).2.Fits (g.prepared tree passes).1.toDigraph := by
  have hmarks := marked_marks g tree
  have htouch := prepared_retouches g tree passes
  have hmerged := merged_fits (hmarks.guided h)
    (by rw [hmarks.touch.isLive_eq, hmarks.touch.entry_eq]; exact hentry)
    (hmarks.touch.toDigraph_eq ▸ hfits) passes fun n hlanding => by
      rw [hmarks.touch.size_eq]
      exact (opens_iff htouch).1 (hopens n (hmarks.landing_iff.1 hlanding))
  obtain ⟨hstart, hparent, -⟩ := (Merging.passes passes
    { graph := g.marked tree, tree, merged := 0, dangling := false }).1.tree.foldl_setNumber_facts
      (fun id => (((g.marked tree).merged tree passes).reorder.node id).num)
      ((g.marked tree).merged tree passes).reorder.order
  exact htouch.toDigraph_eq.symm ▸ hmerged.congr hstart hparent

theorem prepared_opens
    (h : g.Wired)
    (tree : DominatorTree)
    (passes : Nat)
    (hlive : g.isLive n = true)
    (hends : (g.node n).kind.targets? = none) :
    (g.prepared tree passes).1.Opens g.size n := by
  have hmarks := marked_marks g tree
  rw [opens_iff (prepared_retouches g tree passes), ← hmarks.touch.size_eq]
  exact opens_of_no_targets (h.retouch hmarks.touch) tree passes
    ((hmarks.touch.isLive_eq n).trans hlive) ((hmarks.touch.kept n).targets_eq.trans hends)

theorem prepared_numbers
    (g : FlowGraph)
    (tree : DominatorTree)
    (passes : Nat) :
    let prepared := g.prepared tree passes
    prepared.1.order = prepared.1.toDigraph.reversePostorder prepared.1.entry ∧
      ∀ n ∈ prepared.1.order, prepared.2.number n = (prepared.1.node n).num ∧
        (prepared.1.node n).num = prepared.1.order.idxOf n + 1 := by
  intro prepared
  have hmarks := prepared_marks g tree passes
  let numbered := ((g.marked tree).merged tree passes).reorder
  have horder : numbered.order = numbered.toDigraph.reversePostorder numbered.entry :=
    order_reorder _
  have hnum (n : NodeId) : (prepared.1.node n).num = (numbered.node n).num :=
    (hmarks.touch.kept n).num_eq
  refine ⟨?_, fun n hmem => ?_⟩
  · rw [hmarks.order_eq, hmarks.touch.toDigraph_eq, hmarks.touch.entry_eq]
    exact horder
  · rw [hmarks.order_eq] at hmem ⊢
    obtain ⟨-, -, hnumber⟩ := (Merging.passes passes
      { graph := g.marked tree, tree, merged := 0, dangling := false }).1.tree.foldl_setNumber_facts
        (fun id => (numbered.node id).num) numbered.order
    rw [hnum]
    refine ⟨(hnumber n).trans (if_pos hmem), ?_⟩
    rw [reorder_numbersCurrent _ n, ← horder, numberIn, if_pos hmem]

theorem prepared_wired
    (h : g.Wired)
    (hentry : g.isLive g.entry = true)
    (tree : DominatorTree)
    (passes : Nat) :
    (g.prepared tree passes).1.Wired ∧
      (g.prepared tree passes).1.isLive (g.prepared tree passes).1.entry = true := by
  have hmarks := marked_marks g tree
  have htouch := prepared_retouches g tree passes
  obtain ⟨condition, owner, hcondenses⟩ := merged_condenses (h.retouch hmarks.touch) tree passes
  refine ⟨hcondenses.wired.retouch htouch, ?_⟩
  rw [htouch.isLive_eq, htouch.entry_eq, hcondenses.entry_eq]
  refine hcondenses.owner_live _ ?_
  rwa [hmarks.touch.isLive_eq, hmarks.touch.entry_eq]

theorem Wired.bare_of_live
    (h : g.Wired)
    (hbare : ∀ n ∈ g.liveIds, g.handlerSuccs n = [])
    (n : NodeId) :
    g.handlerSuccs n = [] := by
  by_cases hlive : g.isLive n = true
  · exact hbare n (List.mem_filter.2 ⟨List.mem_range.2 (lt_size_of_isLive hlive), hlive⟩)
  · exact h.handlerSuccs_of_not_live (Bool.eq_false_iff.2 hlive)

/-- Without exception edges there is nothing to protect. -/
theorem protect_of_bare
    (h : g.Wired)
    (hbare : ∀ n, g.handlerSuccs n = []) :
    (g.protect tree).graph = g := by
  have hnone : g.handlers = [] := by
    refine List.filter_eq_nil_iff.2 fun n _ => ?_
    have hunreached : g.handlerPreds n = [] := List.eq_nil_iff_forall_not_mem.2 fun m hmem =>
      List.not_mem_nil (hbare m ▸ h.mem_handlerPreds.1 hmem)
    simp [hunreached]
  rw [protect, hnone]
  rfl

theorem structured_of_bare
    (h : g.Wired)
    (hentry : g.isLive g.entry = true)
    (hbare : ∀ n, g.handlerSuccs n = [])
    (tree : DominatorTree)
    (passes : Nat)
    (method : String) :
    (g.structured tree passes method).graph = (g.prepared tree passes).1 := by
  have hmarks := marked_marks g tree
  rw [(structured_eq g tree passes method).1]
  refine protect_of_bare (prepared_wired h hentry tree passes).1 fun n => ?_
  rw [(prepared_retouches g tree passes).handlerSuccs_eq]
  exact merged_bare (h.retouch hmarks.touch) tree passes
    (fun n => (hmarks.touch.handlerSuccs_eq n).trans (hbare n)) n

/-- **The dominator tree of a structured graph.**  In a graph without exception edges, the tree
names the immediate dominators of the structured graph, its entry and the numbers of its nodes, if
the entry is not tested behind another branch. -/
theorem structured_dominators
    (h : g.Guided)
    (hbare : ∀ n, g.handlerSuccs n = [])
    (hentry : g.isLive g.entry = true)
    (hfits : tree.Fits g.toDigraph)
    (passes : Nat)
    (method : String)
    (hopens : (g.structured tree passes method).graph.Opens g.size g.entry) :
    let s := g.structured tree passes method
    s.tree.entry = s.graph.entry ∧
      s.graph.order = s.graph.toDigraph.reversePostorder s.graph.entry ∧
      ∀ n ∈ s.graph.order,
        (s.tree.immediateDominator n = none ↔ n = s.graph.entry) ∧
        (∀ d, s.tree.immediateDominator n = some d ↔
          s.graph.toDigraph.ImmediatelyDominates d n) ∧
        s.tree.number n = (s.graph.node n).num ∧
        (s.graph.node n).num = s.graph.order.idxOf n + 1 := by
  intro s
  have hsame := structured_of_bare h.wired hentry hbare tree passes method
  obtain ⟨hwired, hentry_live⟩ := prepared_wired h.wired hentry tree passes
  have hfits := prepared_fits h hentry hfits passes fun n hlanding => by
    rcases hlanding with rfl | ⟨m, hedge⟩
    · exact hsame ▸ hopens
    · exact absurd (hbare m ▸ hedge) List.not_mem_nil
  obtain ⟨horder, hnumbers⟩ := prepared_numbers g tree passes
  have hsweep := Digraph.reversePostorder_isSweepOrder hwired.wellFormed
    (lt_size_of_isLive hentry_live)
  rw [show s.graph = _ from hsame]
  refine ⟨hfits.entry_eq, horder, fun n hmem => ?_⟩
  have hreached := (hsweep.mem_iff n).1 (horder ▸ hmem)
  exact ⟨hfits.none_iff n hreached, fun d => hfits.some_iff n d hreached, hnumbers n hmem⟩

end Preparing

section Examples

/-- Two tests with a common way out, behind a node that is none. -/
def sharedExit : FlowGraph :=
  { FlowGraph.empty with
    slots := #[
      protectedSlot .statement [] [1] [] [] [],
      protectedSlot (.conditional ⟨4, 2⟩) [.ifCompareZero .eq (.var 0)] [2, 4] [0] [] [],
      protectedSlot (.conditional ⟨4, 3⟩) [.ifCompareZero .eq (.var 1)] [3, 4] [1] [] [],
      protectedSlot .statement [] [4] [2] [] [],
      protectedSlot .ret [.ret none] [] [1, 2, 3] [] []]
    order := [0, 1, 2, 3, 4] }

/-- A test at the entry, and another one that leads back to it or shares its way out. -/
def repeatedEntry : FlowGraph :=
  { FlowGraph.empty with
    slots := #[
      protectedSlot (.conditional ⟨3, 1⟩) [.ifCompareZero .eq (.var 0)] [1, 3] [2] [] [],
      protectedSlot .statement [] [2] [0] [] [],
      protectedSlot (.conditional ⟨0, 3⟩) [.ifCompareZero .eq (.var 1)] [3, 0] [1] [] [],
      protectedSlot .ret [.ret none] [] [0, 2] [] []]
    order := [0, 1, 2, 3] }

theorem fits_dominatorTree
    {g : FlowGraph}
    (h : g.Wired)
    (horder : g.order = g.toDigraph.reversePostorder g.entry) :
    g.dominatorTree.Fits g.toDigraph := by
  rw [dominatorTree, horder]
  exact DominatorTree.compute_fits h.wellFormed

theorem order_structured_sharedExit :
    (sharedExit.structured sharedExit.dominatorTree 1 "f").graph.order = [0, 5, 3, 4] := by
  cbv

theorem structured_dominators_sharedExit :
    let s := sharedExit.structured sharedExit.dominatorTree 1 "f"
    sharedExit.Guided ∧ (∀ n, sharedExit.handlerSuccs n = []) ∧
      sharedExit.isLive sharedExit.entry = true ∧
      sharedExit.dominatorTree.Fits sharedExit.toDigraph ∧
      s.graph.Opens sharedExit.size sharedExit.entry ∧ s.graph.order = [0, 5, 3, 4] ∧
      ∀ d, s.tree.immediateDominator 4 = some d ↔ s.graph.toDigraph.ImmediatelyDominates d 4 := by
  intro s
  have hguided : sharedExit.Guided := by decide
  have hbare : ∀ n, sharedExit.handlerSuccs n = [] := hguided.wired.bare_of_live (by decide)
  have hlive : sharedExit.isLive sharedExit.entry = true := by decide
  have hfits := fits_dominatorTree hguided.wired (show _ = _ by cbv)
  have hopens : s.graph.Opens sharedExit.size sharedExit.entry := by
    rw [show s.graph = _ from structured_of_bare hguided.wired hlive hbare _ 1 "f"]
    exact prepared_opens hguided.wired _ 1 hlive rfl
  obtain ⟨-, -, htree⟩ := structured_dominators hguided hbare hlive hfits 1 "f" hopens
  have hmem : 4 ∈ s.graph.order := order_structured_sharedExit ▸ (by decide : 4 ∈ [0, 5, 3, 4])
  exact ⟨hguided, hbare, hlive, hfits, hopens, order_structured_sharedExit, (htree 4 hmem).2.1⟩

/-- The test at the entry comes second in the merged condition, whose place the tree takes from the
test that comes first. -/
theorem structured_repeatedEntry :
    let s := repeatedEntry.structured repeatedEntry.dominatorTree 1 "f"
    (s.graph.entry, s.graph.order, s.tree.immediateDominator 4) = (4, [4, 1, 3], some 1) := by
  cbv

theorem repeatedEntry_misplaced :
    ¬ ∀ (g : FlowGraph) (tree : DominatorTree) (passes : Nat) (method : String), g.Guided →
      (∀ n, g.handlerSuccs n = []) → (∀ n, g.isLive n = true → g.toDigraph.Reachable g.entry n) →
      tree.Fits g.toDigraph → ∀ n ∈ (g.structured tree passes method).graph.order,
        ((g.structured tree passes method).tree.immediateDominator n = none ↔
          n = (g.structured tree passes method).graph.entry) := by
  intro hkept
  have hguided : repeatedEntry.Guided := by decide
  have horder : repeatedEntry.order =
      repeatedEntry.toDigraph.reversePostorder repeatedEntry.toDigraph.entry := by cbv
  have hsweep := Digraph.reversePostorder_isSweepOrder hguided.wired.wellFormed (by decide)
  rw [← horder] at hsweep
  have hreached (n : NodeId) (hlive : repeatedEntry.isLive n = true) :
      repeatedEntry.toDigraph.Reachable repeatedEntry.entry n :=
    (hsweep.mem_iff n).1 (List.mem_range.2 (lt_size_of_isLive hlive))
  have hsame := structured_repeatedEntry
  simp only [Prod.mk.injEq] at hsame
  obtain ⟨hentry, hlisted, hfound⟩ := hsame
  have hmisplaced := hkept repeatedEntry repeatedEntry.dominatorTree 1 "f" hguided
    (hguided.wired.bare_of_live (by decide)) hreached (fits_dominatorTree hguided.wired horder) 4
    (hlisted ▸ List.mem_cons_self)
  rw [hfound, hentry] at hmisplaced
  cases hmisplaced.2 rfl

end Examples

end FlowGraph
end DalvikDecompiler
