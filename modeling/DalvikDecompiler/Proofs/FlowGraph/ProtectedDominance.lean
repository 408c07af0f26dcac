import DalvikDecompiler.Proofs.FlowGraph.Ordinary
import DalvikDecompiler.Proofs.FlowGraph.Regions
import DalvikDecompiler.Proofs.FlowGraph.StructuredDominance

/-!
# The dominator tree of a graph with protected regions

**Input.** An ordinary flow graph with its dominator tree.

Nothing is said to the tree when regions are entered.  It goes on to name the nearest dominators
among the nodes that were there before, and knows none of the nodes that regions are entered
through.

**Results.**
* `protect_keepsTests`: conditions are the same after regions have been entered.
* `prepared_beyond`: the tree knows nothing but nodes of the graph before regions are entered.
* `structured_fitsApart`: the tree fits the structured graph apart from the nodes that regions are
  entered through, if the entry and all handlers are tested first wherever they are tested.
-/

namespace DalvikDecompiler

open DominatorTree (FitsApart)
open Edges (replacing replacing_of_ne)

namespace FlowGraph

/-- Nodes stay part of a graph, and conditions are merged from the same nodes as before. -/
structure KeepsTests (g g' : FlowGraph) : Prop where
  isLive : ∀ n, g.isLive n = true → g'.isLive n = true
  joined : ∀ n sc, (g.node n).kind.base = .shortCircuit sc →
    ∃ branches, (g'.node n).kind.base = .shortCircuit { sc with branches }

section Keeping

variable {g g' g'' : FlowGraph} {tree : DominatorTree} {n : NodeId} {bound : Nat}

theorem KeepsTests.refl
    (g : FlowGraph) :
    KeepsTests g g :=
  ⟨fun _ hlive => hlive, fun _ sc hjoined => ⟨sc.branches, hjoined⟩⟩

theorem KeepsTests.trans
    (h : KeepsTests g g')
    (h' : KeepsTests g' g'') :
    KeepsTests g g'' where
  isLive n hlive := h'.isLive n (h.isLive n hlive)
  joined n sc hjoined := by
    obtain ⟨branches, hjoined⟩ := h.joined n sc hjoined
    exact h'.joined n { sc with branches } hjoined

theorem Retouches.keepsTests
    (htouch : Retouches
      (fun n n' => ∀ sc, n.kind.base = .shortCircuit sc → n'.kind.base = .shortCircuit sc) g g') :
    KeepsTests g g' where
  isLive n hlive := (htouch.isLive_eq n).trans hlive
  joined n sc hjoined := ⟨sc.branches, htouch.kept n sc hjoined⟩

/-- What is tested first stays so. -/
theorem KeepsTests.opens
    (h : KeepsTests g g')
    (hopens : g'.Opens bound n) :
    g.Opens bound n :=
  fun m c hlive hcomprises => hopens m c (h.isLive m hlive) (hcomprises.of_base h.joined)

/-- Both ends of an edge are edited. -/
theorem sameNodes_modifySlots
    (g : FlowGraph)
    (a b : NodeId)
    {f f' : Slot → Slot}
    (hsame : ∀ s, (f s).node = s.node ∧ (f s).live = s.live)
    (hsame' : ∀ s, (f' s).node = s.node ∧ (f' s).live = s.live) :
    SameNodes g ((g.modifySlot a f).modifySlot b f') :=
  (sameNodes_modifySlot g a hsame).trans (sameNodes_modifySlot _ b hsame')

theorem sameNodes_addEdge
    (g : FlowGraph)
    (a b : NodeId) :
    SameNodes g (g.addEdge a b) := by
  unfold addEdge
  split
  · exact .refl g
  · exact sameNodes_modifySlots g a b (fun _ => ⟨rfl, rfl⟩) fun _ => ⟨rfl, rfl⟩

theorem sameNodes_addHandlerEdge
    (g : FlowGraph)
    (a b : NodeId) :
    SameNodes g (g.addHandlerEdge a b) := by
  unfold addHandlerEdge
  split
  · exact .refl g
  · exact sameNodes_modifySlots g a b (fun _ => ⟨rfl, rfl⟩) fun _ => ⟨rfl, rfl⟩

theorem sameNodes_moveIncoming
    (g : FlowGraph)
    (old new : NodeId) :
    SameNodes g (g.moveIncoming old new) := by
  have hedge (g : FlowGraph) (pred : NodeId) : SameNodes g (moveIncomingFrom old new g pred) :=
    sameNodes_modifySlots g pred new (fun _ => ⟨rfl, rfl⟩) fun _ => ⟨rfl, rfl⟩
  have hdropped (g : FlowGraph) (pred : NodeId) : SameNodes g (g.dropHandlerSucc pred old) :=
    sameNodes_modifySlot g pred fun _ => ⟨rfl, rfl⟩
  have hcleared (g : FlowGraph) :
      SameNodes g (g.modifySlot old fun slot => { slot with preds := [] }) :=
    sameNodes_modifySlot g old fun _ => ⟨rfl, rfl⟩
  have hcleared' (g : FlowGraph) :
      SameNodes g (g.modifySlot old fun slot => { slot with handlerPreds := [] }) :=
    sameNodes_modifySlot g old fun _ => ⟨rfl, rfl⟩
  unfold moveIncoming
  exact (((hcleared g).trans (sameNodes_foldl hedge _ _)).trans (hcleared' _)).trans
    (sameNodes_foldl (fun g pred => (hdropped g pred).trans (sameNodes_addHandlerEdge _ pred new)) _
      _)

/-- Entering a region redirects references, which conditions keep only as their branches. -/
theorem keepsTests_enterTry
    (g : FlowGraph)
    (start : NodeId) :
    KeepsTests g (g.enterTry start).2 := by
  unfold enterTry
  dsimp only
  rw [fst_addNode]
  generalize g.regionFollow start = follow
  generalize (g.node start).shell ((g.node start).name ++ "-try") .statement = shell
  generalize { shell with startsLoop := false, latch := none, loopNodes := [] : Node } = added
  let entered := ((g.addNode added).2.retarget start g.size).modifyNode g.size fun n =>
    { n with kind := .tryBlock start [] follow }
  have hmoved := (sameNodes_moveIncoming entered start g.size).trans
    (sameNodes_addEdge _ g.size start)
  refine ⟨fun n hlive => ?_, fun n sc hjoined => ?_⟩
  · rw [hmoved.isLive_eq]
    simp [entered, isLive_addNode, hlive]
  · have hother : n ≠ g.size := by
      rintro rfl
      simp [node, size, Node.plain, NodeKind.base] at hjoined
    rw [hmoved.node_eq, node_modifyNode _ n _ (by simp), if_neg hother]
    cases hlive : g.isLive n with
    | false =>
        rw [node_retarget_of_not_live _ _ _ _ (by simp [isLive_addNode, hlive, hother]),
          node_addNode,
          if_neg hother]
        exact ⟨sc.branches, hjoined⟩
    | true =>
        rw [node_retarget _ _ _ _ (by simp [isLive_addNode, hlive]), node_addNode, if_neg hother]
        exact ⟨_, base_remap_shortCircuit hjoined⟩

theorem keepsTests_enterCatch
    (g : FlowGraph)
    (handler : NodeId) :
    KeepsTests g (g.enterCatch handler).2 := by
  have hdropped : KeepsTests g (g.dropBinding handler) :=
    ((retouches_dropBinding handler).mono fun _ _ hsame _ hjoined =>
      by rwa [hsame.sameKind]).keepsTests
  refine hdropped.trans ⟨fun n hlive => ?_, fun n sc hjoined => ⟨sc.branches, ?_⟩⟩
  · simp [enterCatch, isLive_addNode, hlive]
  · rw [enterCatch, node_addNode, if_neg]
    · exact hjoined
    · rintro rfl
      simp [node, size, Node.plain, NodeKind.base] at hjoined

theorem keepsTests_addCatch
    (g : FlowGraph)
    (region handler : NodeId) :
    KeepsTests g (g.addCatch region handler) := by
  refine (retouches_modifyNode region (fun _ _ hjoined => hjoined) fun n sc hjoined =>
    ?_).keepsTests
  split
  · next hkind => rw [hkind] at hjoined; cases hjoined
  · exact hjoined

theorem keepsTests_region
    (s : Protection)
    (start : NodeId) :
    KeepsTests s.graph (s.region start).2.graph := by
  unfold Protection.region
  split
  · exact .refl _
  · have hentered := keepsTests_enterTry s.graph start
    generalize s.graph.enterTry start = made at hentered ⊢
    exact hentered

/-- **Entering regions leaves conditions alone.** -/
theorem protect_keepsTests
    (g : FlowGraph)
    (tree : DominatorTree) :
    KeepsTests g (g.protect tree).graph := by
  have hstep (s : Protection) (handler : NodeId) :
      KeepsTests s.graph (s.addHandler tree handler).graph := by
    unfold Protection.addHandler
    split
    · exact .refl _
    · exact ((keepsTests_region s _).trans (keepsTests_enterCatch _ handler)).trans
        (keepsTests_addCatch _ _ _)
  have hall (handlers : List NodeId) (s : Protection) :
      KeepsTests s.graph (handlers.foldl (Protection.addHandler tree) s).graph := by
    induction handlers generalizing s with
    | nil => exact .refl _
    | cons handler rest ih => exact (hstep s handler).trans (ih _)
  exact hall g.handlers { graph := g, regions := [], dangling := false }

end Keeping

section Protected

variable {g : FlowGraph} {tree : DominatorTree}

theorem Ordinary.prepared
    (h : g.Ordinary)
    (tree : DominatorTree)
    (passes : Nat) :
    (g.prepared tree passes).1.Ordinary :=
  ((h.marks (marked_marks g tree)).merged tree passes).reorder.marks (prepared_marks g tree passes)

/-- **The tree grows with the graph.** -/
theorem prepared_beyond
    (h : g.Wired)
    (hbeyond : ∀ n, g.size ≤ n → tree.immediateDominator n = none)
    (passes : Nat)
    (n : NodeId)
    (houtside : (g.prepared tree passes).1.size ≤ n) :
    (g.prepared tree passes).2.immediateDominator n = none := by
  have hmarks := marked_marks g tree
  have hkept := Merging.passes_induction
    (P := fun g' tree' => g'.Wired ∧ ∀ n, g'.size ≤ n → tree'.immediateDominator n = none)
    ?_ ?_ passes { graph := g.marked tree, tree, merged := 0, dangling := false }
    ⟨h.retouch hmarks.touch, fun n houtside => hbeyond n (hmarks.touch.size_eq ▸ houtside)⟩
  · obtain ⟨-, hparent, -⟩ := (Merging.passes passes
      { graph := g.marked tree, tree, merged := 0, dangling := false }).1.tree.foldl_setNumber_facts
        (fun id => (((g.marked tree).merged tree passes).reorder.node id).num)
        ((g.marked tree).merged tree passes).reorder.order
    rw [(prepared_retouches g tree passes).size_eq] at houtside
    exact (hparent n).trans (hkept.2 n houtside)
  · rintro g' tree' first b merge ⟨hwired, hbeyond⟩ hlive htargets houter hplanned
    have hplans := plans_mergePlan houter hplanned
    have hmerges := merges_mergeBranches hwired hplans hlive
    refine ⟨hmerges.wired, fun n houtside => ?_⟩
    rw [hmerges.size_eq] at houtside
    have hfresh : g'.size < n := houtside
    have hother : n ≠ first := ((lt_size_of_isLive hlive).trans hfresh).ne'
    have hother' : n ≠ merge.second := ((lt_size_of_isLive (hplans.live hwired)).trans hfresh).ne'
    rw [DominatorTree.immediateDominator_mergeInto tree' hother hother', replacing_of_ne hfresh.ne',
      hbeyond n hfresh.le]
    rfl
  · rintro g' tree' ⟨hwired, hbeyond⟩
    have htouch := g'.retouches_reorder
    exact ⟨hwired.retouch htouch, fun n houtside => hbeyond n (htouch.size_eq ▸ houtside)⟩

/-- **The dominator tree of a structured graph with regions.**  It fits the structured graph apart
from the nodes that regions are entered through. -/
theorem structured_fitsApart
    (h : g.Ordinary)
    (hfits : tree.Fits g.toDigraph)
    (hbeyond : ∀ n, g.size ≤ n → tree.immediateDominator n = none)
    (passes : Nat)
    (method : String)
    (hopens : ∀ n, g.Landing n → (g.structured tree passes method).graph.Opens g.size n) :
    (g.structured tree passes method).tree.FitsApart (g.structured tree passes method).graph := by
  obtain ⟨hsame, hsame'⟩ := structured_eq g tree passes method
  rw [hsame, hsame']
  rw [hsame] at hopens
  have hordinary := h.prepared tree passes
  obtain ⟨horder, -⟩ := prepared_numbers g tree passes
  have hfits := prepared_fits h.toGuided h.entry_live hfits passes fun n hlanding =>
    (protect_keepsTests _ _).opens (hopens n hlanding)
  obtain ⟨regions, hprotects⟩ :=
    protect_protects hordinary.wired hordinary.entry_live horder hordinary.outside hfits
  exact hprotects.fitsApart hordinary.wired hordinary.entry_live hfits
    (prepared_beyond h.wired hbeyond passes)

end Protected

end FlowGraph
end DalvikDecompiler
