import DalvikDecompiler.FlowGraph.Edit
import DalvikDecompiler.Proofs.FlowGraph.Guided

/-!
# Edits in any order

**Input.** The empty graph, to which nodes are added and which is edited.

Edges are added between nodes of the graph, and moved from one node of the graph to another one.
Everything else may be done to any node at any time.

**Results.**
* `Edges.Mirrored`: edges are known at both ends, each once at either end.  What each way of editing
  them does to the sources of a node, in order.
* `Consistent.perform`: an edit keeps the edges of both kinds mirrored.
* `Edited.edges`: the edges after any edits, and where they lead when those into a node are moved.

A normal edge that is moved keeps its position.  An exception edge does not: the new handler stands
behind the others (`moveIncoming_reorders`).
-/

namespace DalvikDecompiler

open OrderedSet (insertAll erase mem_insert mem_erase nodup_insert nodup_insertAll nodup_erase
  insert_of_mem insert_of_not_mem erase_of_not_mem)

namespace Edges

/-- Edges are known at both ends, and each once at either end. -/
structure Mirrored (e : Edges) : Prop extends e.Paired where
  nodup_sources : ∀ b, (e.sources b).Nodup

section Sources

variable {e : Edges} {a b n old new : NodeId} {xs : List NodeId}

theorem sources_add
    (hknown : b ∈ e.targets a ↔ a ∈ e.sources b) :
    (e.add a b).sources n =
      if n = b then OrderedSet.insert (e.sources n) a else e.sources n := by
  unfold add
  split
  · next hthere =>
      split
      · next hsame => rw [hsame, insert_of_mem (hknown.1 (List.contains_iff_mem.1 hthere))]
      · rfl
  · next habsent =>
      have habsent : a ∉ e.sources b :=
        fun hmem => habsent (List.contains_iff_mem.2 (hknown.2 hmem))
      simp only [Function.update_apply]
      split
      · next hsame => rw [hsame, insert_of_not_mem habsent]
      · rfl

theorem sources_foldl_dropSource :
    (xs.foldl (fun e b => e.dropSource n b) e).sources b =
      if b ∈ xs then erase (e.sources b) n else e.sources b := by
  induction xs generalizing e with
  | nil => simp
  | cons x xs ih =>
      have htwice : erase (erase (e.sources x) n) n = erase (e.sources x) n :=
        erase_of_not_mem (by simp)
      rw [List.foldl_cons, ih]
      simp only [dropSource, Function.update_apply, List.mem_cons]
      grind

theorem sources_foldl_substituteFrom :
    (xs.foldl (substituteFrom old new) e).sources b =
      if b = new then insertAll (e.sources b) xs else e.sources b := by
  induction xs generalizing e with
  | nil => exact (ite_self _).symm
  | cons x xs ih =>
      rw [List.foldl_cons, ih]
      simp only [substituteFrom, Function.update_apply]
      split
      · next hsame => rw [hsame]; rfl
      · rfl

theorem sources_foldl_readdress
    (hapart : new ≠ old)
    (hknown : ∀ a, new ∈ e.targets a ↔ a ∈ e.sources new) :
    (xs.foldl (fun e a => (e.dropTarget a old).add a new) e).sources b =
      if b = new then insertAll (e.sources b) xs else e.sources b := by
  induction xs generalizing e with
  | nil => exact (ite_self _).symm
  | cons x xs ih =>
      have hdropped (a : NodeId) : new ∈ (e.dropTarget x old).targets a ↔ a ∈ e.sources new := by
        rw [← hknown a]
        simp only [dropTarget, Function.update_apply]
        grind [mem_erase]
      have hfirst (b : NodeId) : ((e.dropTarget x old).add x new).sources b =
          if b = new then OrderedSet.insert (e.sources b) x else e.sources b :=
        sources_add (hdropped x)
      rw [List.foldl_cons, ih fun a => ?_, hfirst]
      · split <;> rfl
      · rw [hfirst, targets_add, if_pos rfl, mem_insert, ← hdropped a]
        grind [mem_insert]

/-- No source is put down twice while the edges out of a node are moved to another one. -/
theorem nodup_foldl_transferTo
    (hapart : new ≠ old)
    (redirect : NodeId → NodeId)
    (hknown : ∀ b, b ∈ e.targets new ↔ new ∈ e.sources b)
    (hnodup : ∀ b, (e.sources b).Nodup) :
    ((xs.foldl (transferTo old new redirect) e).sources b).Nodup := by
  induction xs generalizing e with
  | nil => exact hnodup b
  | cons x xs ih =>
      have hdropped (b : NodeId) : b ∈ e.targets new ↔ new ∈ (e.dropSource old x).sources b := by
        rw [hknown b]
        simp only [dropSource, Function.update_apply]
        grind [mem_erase]
      have hfirst (b : NodeId) : (transferTo old new redirect e x).sources b =
          if b = redirect x then OrderedSet.insert ((e.dropSource old x).sources b) new
          else (e.dropSource old x).sources b :=
        sources_add (hdropped (redirect x))
      have hdistinct (b : NodeId) : ((e.dropSource old x).sources b).Nodup := by
        simp only [dropSource, Function.update_apply]
        split
        · exact nodup_erase (hnodup x)
        · exact hnodup b
      refine ih (fun b => ?_) fun b => ?_
      · rw [hfirst, transferTo, targets_add, if_pos rfl, mem_insert]
        have hends := hdropped b
        grind [mem_insert, dropSource]
      · rw [hfirst]
        split
        · exact nodup_insert (hdistinct b)
        · exact hdistinct b

end Sources

section Mirrors

variable {e : Edges} {old new : NodeId}

theorem Mirrored.add
    (h : e.Mirrored)
    (a b : NodeId) :
    (e.add a b).Mirrored where
  toPaired := h.toPaired.add a b
  nodup_sources n := by
    rw [sources_add (h.mem_sources a b).symm]
    split
    · exact nodup_insert (h.nodup_sources n)
    · exact h.nodup_sources n

theorem Mirrored.drop
    (h : e.Mirrored)
    (a b : NodeId) :
    ((e.dropTarget a b).dropSource a b).Mirrored where
  toPaired := (h.toPaired.drop a b).1
  nodup_sources n := by
    simp only [dropTarget, dropSource, Function.update_apply]
    split
    · exact nodup_erase (h.nodup_sources b)
    · exact h.nodup_sources n

theorem Mirrored.cut
    (h : e.Mirrored)
    (n : NodeId) :
    ((e.clearTargets n).clearSources n).Mirrored where
  toPaired := (h.toPaired.cut n).1
  nodup_sources b := by
    have hfirst : ((e.clearTargets n).sources b).Nodup := by
      unfold clearTargets
      rw [sources_foldl_dropSource]
      split
      · exact nodup_erase (h.nodup_sources b)
      · exact h.nodup_sources b
    unfold clearSources
    rw [sources_foldl_dropTarget]
    simp only [Function.update_apply]
    split
    · exact List.nodup_nil
    · exact hfirst

/-- The sources of a node to which the edges into another one lead, and of that other node. -/
theorem nodup_sources_of_moved
    {e' : Edges}
    (h : e.Mirrored)
    (hmoved : ∀ b, e'.sources b = if b = new then insertAll (e.sources b) (e.sources old)
      else if b = old then [] else e.sources b)
    (b : NodeId) :
    (e'.sources b).Nodup := by
  rw [hmoved]
  split
  · exact nodup_insertAll (h.nodup_sources b)
  · split
    · exact List.nodup_nil
    · exact h.nodup_sources b

/-- The edges into a node lead to another one, at the same positions. -/
theorem Mirrored.substitute
    (h : e.Mirrored)
    (hapart : new ≠ old) :
    (e.substitute old new).Mirrored ∧
      ∀ b, (e.substitute old new).sources b =
        if b = new then insertAll (e.sources b) (e.sources old)
        else if b = old then [] else e.sources b := by
  have hsources (b : NodeId) : (e.substitute old new).sources b =
      if b = new then insertAll (e.sources b) (e.sources old)
      else if b = old then [] else e.sources b := by
    unfold Edges.substitute
    rw [sources_foldl_substituteFrom]
    simp only [Function.update_apply]
    grind
  exact ⟨⟨(h.toPaired.substitute hapart).1, nodup_sources_of_moved h hsources⟩, hsources⟩

/-- The edges into a node lead to another one, behind the other targets. -/
theorem Mirrored.readdress
    (h : e.Mirrored)
    (hapart : new ≠ old) :
    (e.readdress old new).Mirrored ∧
      ∀ b, (e.readdress old new).sources b =
        if b = new then insertAll (e.sources b) (e.sources old)
        else if b = old then [] else e.sources b := by
  have hsources (b : NodeId) : (e.readdress old new).sources b =
      if b = new then insertAll (e.sources b) (e.sources old)
      else if b = old then [] else e.sources b := by
    unfold Edges.readdress
    rw [sources_foldl_readdress hapart fun a => ?_]
    · simp only [Function.update_apply]
      grind
    · simp only [Function.update_apply, if_neg hapart]
      exact (h.mem_sources a new).symm
  exact ⟨⟨(h.toPaired.readdress hapart).1, nodup_sources_of_moved h hsources⟩, hsources⟩

/-- The edges out of a node start at another one. -/
theorem Mirrored.transfer
    (h : e.Mirrored)
    (hapart : new ≠ old)
    (redirect : NodeId → NodeId) :
    (e.transfer old new redirect).Mirrored where
  toPaired := (h.toPaired.transfer hapart redirect).1
  nodup_sources b := by
    refine nodup_foldl_transferTo hapart redirect (fun b => ?_) h.nodup_sources
    simp only [Function.update_apply, if_neg hapart]
    exact (h.mem_sources new b).symm

end Mirrors

end Edges

namespace FlowGraph

/-- Edges of both kinds are known at both ends, each once at either end, and connect nodes of the
graph. -/
structure Consistent (g : FlowGraph) : Prop extends g.Wired where
  nodup_preds : ∀ n, (g.preds n).Nodup
  nodup_handlerPreds : ∀ n, (g.handlerPreds n).Nodup

/-- What it is to lead the edges into a node to another one: that one gets the sources behind its
own, and each source has the new target where the old one was.  A new handler stands behind the
others. -/
structure Redirects (g g' : FlowGraph) (old new : NodeId) : Prop where
  preds_eq : ∀ n, g'.preds n =
    if n = new then insertAll (g.preds n) (g.preds old) else if n = old then [] else g.preds n
  handlerPreds_eq : ∀ n, g'.handlerPreds n =
    if n = new then insertAll (g.handlerPreds n) (g.handlerPreds old)
    else if n = old then [] else g.handlerPreds n
  succs_of_new : ∀ n, new ∉ g.succs n → g'.succs n = (g.succs n).map (Edges.replacing old new)
  succs_of_known : ∀ n, new ∈ g.succs n → g'.succs n = erase (g.succs n) old
  handlerSuccs_eq : ∀ n, g'.handlerSuccs n =
    if old ∈ g.handlerSuccs n then OrderedSet.insert (erase (g.handlerSuccs n) old) new
    else g.handlerSuccs n

section Consistency

variable {g g' : FlowGraph} {old new : NodeId}

theorem Consistent.normalMirrored
    (h : g.Consistent) :
    g.normal.Mirrored :=
  ⟨h.normal, h.nodup_preds⟩

theorem Consistent.exceptionalMirrored
    (h : g.Consistent) :
    g.exceptional.Mirrored :=
  ⟨h.exceptional, h.nodup_handlerPreds⟩

theorem Wired.consistent
    (h : g.Wired)
    (hnormal : g.normal.Mirrored)
    (hexceptional : g.exceptional.Mirrored) :
    g.Consistent :=
  ⟨h, hnormal.nodup_sources, hexceptional.nodup_sources⟩

/-- The nodes change, the edges do not. -/
theorem Consistent.of_edges
    (h : g.Consistent)
    (hnormal : g'.normal = g.normal)
    (hexceptional : g'.exceptional = g.exceptional)
    (hlive : ∀ n, g.isLive n = true → g'.isLive n = true) :
    g'.Consistent :=
  (h.toWired.of_edges hnormal hexceptional hlive).consistent (hnormal ▸ h.normalMirrored)
    (hexceptional ▸ h.exceptionalMirrored)

theorem Consistent.modifyNode
    (h : g.Consistent)
    (id : NodeId)
    (f : Node → Node) :
    (g.modifyNode id f).Consistent :=
  h.of_edges (by simp) (by simp) (by simp)

theorem consistent_empty :
    FlowGraph.empty.Consistent where
  toWired := wired_iff.2 fun n hknown => absurd hknown (Nat.not_lt_zero n)
  nodup_preds _ := List.nodup_nil
  nodup_handlerPreds _ := List.nodup_nil

theorem Consistent.addNode
    (h : g.Consistent)
    (added : Node) :
    (g.addNode added).2.Consistent :=
  h.of_edges (by simp) (by simp) fun n hlive => by simp [isLive_addNode, hlive]

theorem rewires_removeHandlerEdge
    (g : FlowGraph)
    (a b : NodeId) :
    Rewires g (g.removeHandlerEdge a b) (fun e => e) fun e =>
      (e.dropTarget a b).dropSource a b :=
  (g.rewires_dropHandlerSucc a b).trans (rewires_dropHandlerPred _ a b)

/-- An exception edge is removed. -/
theorem Wired.removeHandlerEdge
    (h : g.Wired)
    (a b : NodeId) :
    (g.removeHandlerEdge a b).Wired := by
  have hdrops := g.rewires_removeHandlerEdge a b
  obtain ⟨hpaired, htargets⟩ := h.exceptional.drop a b
  have hsuccs : (g.removeHandlerEdge a b).succs = g.succs :=
    congrArg Edges.targets hdrops.normal_eq
  have handlers (n : NodeId) : (g.removeHandlerEdge a b).handlerSuccs n =
      if n = a then erase (g.handlerSuccs n) b else g.handlerSuccs n :=
    (congrFun (congrArg Edges.targets hdrops.exceptional_eq) n).trans (htargets n)
  refine ⟨hdrops.normal_eq ▸ h.normal, hdrops.exceptional_eq ▸ hpaired, fun x y hmem => ?_⟩
  have hlive := h.live x y
  rw [hdrops.isLive_eq, hdrops.isLive_eq]
  rw [hsuccs, handlers] at hmem
  grind [mem_erase]

theorem Consistent.of_not_live
    {n : NodeId}
    (h : g.Consistent)
    (hdead : g.isLive n = false) :
    g.succs n = [] ∧ g.preds n = [] ∧ g.handlerSuccs n = [] ∧ g.handlerPreds n = [] := by
  refine ⟨h.succs_of_not_live hdead, ?_, h.handlerSuccs_of_not_live hdead, ?_⟩
  · refine List.eq_nil_iff_forall_not_mem.2 fun a hmem => ?_
    simp [(h.live a n (.inl (h.mem_preds.1 hmem))).2] at hdead
  · refine List.eq_nil_iff_forall_not_mem.2 fun a hmem => ?_
    simp [(h.live a n (.inr (h.mem_handlerPreds.1 hmem))).2] at hdead

theorem Consistent.removeNode
    (h : g.Consistent)
    (id : NodeId) :
    (g.removeNode id).Consistent := by
  have hremoves := removes_removeNode g id
  exact (hremoves.wired h.toWired).1.consistent (hremoves.normal_eq ▸ h.normalMirrored.cut id)
    (hremoves.exceptional_eq ▸ h.exceptionalMirrored.cut id)

/-- **The edges into a node lead to another one.** -/
theorem Consistent.moveIncoming
    (h : g.Consistent)
    (hlive : g.isLive new = true)
    (hapart : new ≠ old) :
    (g.moveIncoming old new).Consistent ∧ Redirects g (g.moveIncoming old new) old new := by
  have hmoves := rewires_moveIncoming old new (lt_size_of_isLive hlive) fun a hmem =>
    (h.lt_of_handlerSuccs (h.mem_handlerPreds.1 hmem)).1
  obtain ⟨hnormal, hsources⟩ := h.normalMirrored.substitute hapart
  obtain ⟨hexceptional, hsources'⟩ := h.exceptionalMirrored.readdress hapart
  obtain ⟨hwired, -, hsuccs, handlerSuccs⟩ := h.toWired.moveIncoming hlive hapart
  refine ⟨hwired.consistent (hmoves.normal_eq ▸ hnormal) (hmoves.exceptional_eq ▸ hexceptional), ?_⟩
  exact
    { preds_eq := fun n => (congrFun (congrArg Edges.sources hmoves.normal_eq) n).trans (hsources n)
      handlerPreds_eq := fun n =>
        (congrFun (congrArg Edges.sources hmoves.exceptional_eq) n).trans (hsources' n)
      succs_of_new := fun n hfresh =>
        (hsuccs n).trans (Edges.substitute_of_new (h.nodup_succs n) hfresh)
      succs_of_known := fun n hknown =>
        (hsuccs n).trans (if_pos (List.contains_iff_mem.2 hknown))
      handlerSuccs_eq := handlerSuccs }

theorem Consistent.moveOutgoing
    (h : g.Consistent)
    (hlive : g.isLive new = true)
    (hapart : new ≠ old) :
    (g.moveOutgoing old new).Consistent := by
  have hmoves := rewires_moveOutgoing old new (lt_size_of_isLive hlive) fun b hmem =>
    (List.mem_append.1 hmem).elim (fun hmem => (h.lt_of_succs hmem).2)
      fun hmem => (h.lt_of_handlerSuccs hmem).2
  exact (h.toWired.moveOutgoing hlive hapart).1.consistent
    (hmoves.normal_eq ▸ h.normalMirrored.transfer hapart _)
    (hmoves.exceptional_eq ▸ h.exceptionalMirrored.transfer hapart _)

end Consistency

section Sequences

/-- Whether an edit adds edges only between nodes of the graph, and moves them only from one of
these to another one. -/
def Allows (g : FlowGraph) : Edit → Prop
  | .addEdge source target => g.isLive source = true ∧ g.isLive target = true
  | .addHandlerEdge source handler => g.isLive source = true ∧ g.isLive handler = true
  | .moveIncoming old new => g.isLive old = true ∧ g.isLive new = true ∧ new ≠ old
  | .moveOutgoing old new => g.isLive old = true ∧ g.isLive new = true ∧ new ≠ old
  | _ => True

/-- The graphs that come from the empty one by adding nodes and editing it. -/
inductive Edited : FlowGraph → Prop where
  | empty : Edited .empty
  | addNode {g : FlowGraph} (hedited : Edited g) (node : Node) : Edited (g.addNode node).2
  | perform {g : FlowGraph} (hedited : Edited g) (edit : Edit) (hallowed : g.Allows edit) :
      Edited (edit.perform g)

variable {g : FlowGraph}

/-- **An edit keeps the edges of both kinds consistent.** -/
theorem Consistent.perform
    (h : g.Consistent)
    (edit : Edit)
    (hallowed : g.Allows edit) :
    (edit.perform g).Consistent := by
  cases edit with
  | setKind node kind => exact h.modifyNode node fun n => { n with kind }
  | setCatchType node catchType => exact h.modifyNode node fun n => { n with catchType }
  | declare node name => exact h.modifyNode node fun n => n.declare name
  | addEdge a b =>
      obtain ⟨hsource, htarget⟩ := hallowed
      have hadds := rewires_addEdge (lt_size_of_isLive hsource) (lt_size_of_isLive htarget)
      exact (h.toWired.addEdge hsource htarget).1.consistent
        (hadds.normal_eq ▸ h.normalMirrored.add a b) (hadds.exceptional_eq ▸ h.exceptionalMirrored)
  | addHandlerEdge a b =>
      obtain ⟨hsource, handler⟩ := hallowed
      have hadds := rewires_addHandlerEdge (lt_size_of_isLive hsource) (lt_size_of_isLive handler)
      have hlive : ∀ c ∈ [b], g.isLive c = true := List.forall_mem_singleton.2 handler
      have hwired : (g.addHandlerEdge a b).Wired := (h.toWired.addHandlerEdges hsource hlive).1
      exact hwired.consistent (hadds.normal_eq ▸ h.normalMirrored)
        (hadds.exceptional_eq ▸ h.exceptionalMirrored.add a b)
  | removeEdge a b =>
      have hdrops := g.rewires_removeEdge a b
      exact (h.toWired.removeEdge a b).1.consistent
        (hdrops.normal_eq ▸ h.normalMirrored.drop a b)
          (hdrops.exceptional_eq ▸ h.exceptionalMirrored)
  | removeHandlerEdge a b =>
      have hdrops := g.rewires_removeHandlerEdge a b
      exact (h.toWired.removeHandlerEdge a b).consistent
        (hdrops.normal_eq ▸ h.normalMirrored)
          (hdrops.exceptional_eq ▸ h.exceptionalMirrored.drop a b)
  | removeNode node => exact h.removeNode node
  | moveIncoming old new => exact (h.moveIncoming hallowed.2.1 hallowed.2.2).1
  | moveOutgoing old new => exact h.moveOutgoing hallowed.2.1 hallowed.2.2
  | retarget old new =>
      exact h.of_edges (g.normal_retarget old new) (g.exceptional_retarget old new) fun n hlive =>
        (g.isLive_retarget old new n).trans hlive
  | setEntry node => exact h.of_edges rfl rfl fun _ hlive => hlive
  | setExit node => exact h.of_edges rfl rfl fun _ hlive => hlive
  | reorder =>
      have hnumbers := retouches_reorder g
      exact h.of_edges hnumbers.normal_eq hnumbers.exceptional_eq fun n hlive =>
        (hnumbers.isLive_eq n).trans hlive

/-- **The edges stay consistent whatever is edited in whatever order.** -/
theorem Edited.consistent
    (hedited : Edited g) :
    g.Consistent := by
  induction hedited with
  | empty => exact consistent_empty
  | addNode _ node ih => exact ih.addNode node
  | perform _ edit hallowed ih => exact ih.perform edit hallowed

/-- **The edges after any edits.**  They are known at both ends, no list names a node twice, a node
that has been removed has none, and those into a node can be led to another one. -/
theorem edited_edges
    (hedited : Edited g) :
    (∀ a b, (b ∈ g.succs a ↔ a ∈ g.preds b) ∧ (b ∈ g.handlerSuccs a ↔ a ∈ g.handlerPreds b)) ∧
      (∀ n, (g.succs n).Nodup ∧ (g.preds n).Nodup ∧ (g.handlerSuccs n).Nodup ∧
        (g.handlerPreds n).Nodup) ∧
      (∀ n, g.isLive n = false →
        g.succs n = [] ∧ g.preds n = [] ∧ g.handlerSuccs n = [] ∧ g.handlerPreds n = []) ∧
      ∀ old new, g.isLive old = true → g.isLive new = true → new ≠ old →
        Redirects g (g.moveIncoming old new) old new := by
  have h := hedited.consistent
  refine ⟨fun a b => ⟨h.mem_preds.symm, h.mem_handlerPreds.symm⟩, fun n => ?_,
    fun n hdead => h.of_not_live hdead, fun old new _ hlive hapart =>
      (h.moveIncoming hlive hapart).2⟩
  exact ⟨h.nodup_succs n, h.nodup_preds n, h.nodup_handlerSuccs n, h.nodup_handlerPreds n⟩

/-- A node with two handlers, and one that is apart. -/
def twoHandlers : FlowGraph :=
  let nodes := (List.range 4).foldl (fun g _ => (g.addNode (.plain "" .statement)).2) empty
  (nodes.addHandlerEdge 0 1).addHandlerEdge 0 2

theorem edited_twoHandlers :
    Edited twoHandlers :=
  have hnodes := (((Edited.empty.addNode (.plain "" .statement)).addNode
    (.plain "" .statement)).addNode (.plain "" .statement)).addNode (.plain "" .statement)
  (hnodes.perform (.addHandlerEdge 0 1) ⟨by decide, by decide⟩).perform (.addHandlerEdge 0 2)
    ⟨by decide, by decide⟩

theorem edited_edges_twoHandlers :
    Edited twoHandlers ∧ Redirects twoHandlers (twoHandlers.moveIncoming 1 3) 1 3 :=
  ⟨edited_twoHandlers,
    (edited_edges edited_twoHandlers).2.2.2 1 3 (by decide) (by decide) (by decide)⟩

/-- **A handler that is led elsewhere loses its position among the handlers.** -/
theorem moveIncoming_reorders :
    ¬ ∀ g old new, Edited g → g.isLive old = true → g.isLive new = true → new ≠ old →
      ∀ n, new ∉ g.handlerSuccs n →
        (g.moveIncoming old new).handlerSuccs n =
          (g.handlerSuccs n).map (Edges.replacing old new) := fun hkeeps => by
  have hsame := hkeeps twoHandlers 1 3 edited_twoHandlers (by decide) (by decide) (by decide) 0
    (by decide)
  exact absurd hsame (by decide)

end Sequences

end FlowGraph
end DalvikDecompiler
