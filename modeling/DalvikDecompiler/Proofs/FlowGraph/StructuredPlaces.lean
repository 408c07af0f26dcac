import DalvikDecompiler.Proofs.FlowGraph.Places
import DalvikDecompiler.Proofs.FlowGraph.StructuredReferences

/-!
# The places of a structured graph

**Input.** A flow graph whose index is exact.

Structuring marks nodes, merges branches and enters regions.  It never renews the index: the nodes
that go take their entries with them, and the new ones hold no instructions.  A handler loses the
instruction that binds the exception, together with its place.

**Results.**
* `Exact.merged`: merging branches keeps the index exact.
* `Exact.enterCatch`: so does taking the binding out of a handler.
* `Exact.structured`: so does structuring as a whole.
-/

namespace DalvikDecompiler
namespace FlowGraph

variable {g g' g'' : FlowGraph} {tree : DominatorTree} {start handler : NodeId}

/-- The index of a graph is exact, and its code is part of that of another one. -/
structure Draws (g g' : FlowGraph) : Prop where
  wired : g'.Wired
  exact : g'.Exact
  carries : ∀ x, g'.Carries x → g.Carries x

section Drawing

theorem Exact.draws
    (h : g.Exact)
    (hwired : g.Wired) :
    Draws g g :=
  ⟨hwired, h, fun _ hcarried => hcarried⟩

theorem Draws.retouch
    (h : Draws g g')
    (htouch : Retouches SameLines g' g'')
    (hindex : g''.locIndex = g'.locIndex) :
    Draws g g'' :=
  ⟨h.wired.retouch htouch, h.exact.retouch htouch hindex,
    fun x hcarried => h.carries x ((inherits_of_touch htouch).carries hcarried)⟩

theorem Draws.marks
    (h : Draws g g')
    (hmarks : Marks g' g'') :
    Draws g g'' :=
  h.retouch (hmarks.touch.mono fun _ _ hsame => ⟨hsame.ins_eq, hsame.locs_eq⟩) hmarks.locIndex_eq

theorem Draws.reorder
    (h : Draws g g') :
    Draws g g'.reorder :=
  h.retouch (sameLines_reorder g') (frame_reorder g').2

end Drawing

section Merging

variable {first : NodeId} {b : BranchTargets} {merge : Merge}

theorem Merges.inherits
    (hmerges : Merges g g' first merge) :
    Inherits g g' where
  old n hlive hold := by
    obtain rfl | ⟨hother, hother', -⟩ := hmerges.live_iff.1 hlive
    · exact absurd rfl (lt_size_of_isLive hold).ne
    · have hrenews := hmerges.renews n hother hother' hold
      exact ⟨hrenews.ins_eq, hrenews.locs_eq⟩
  new n hlive hold := by
    obtain rfl | ⟨-, -, hthere⟩ := hmerges.live_iff.1 hlive
    · exact ⟨hmerges.ins_eq, hmerges.locs_eq⟩
    · rw [hold] at hthere
      cases hthere

theorem locIndex_retarget
    (g : FlowGraph)
    (old new : NodeId) :
    (g.retarget old new).locIndex = g.locIndex :=
  rfl

/-- The two nodes that are merged take their entries with them. -/
theorem locIndex_mergeBranches
    (g : FlowGraph)
    (first : NodeId)
    (merge : Merge) :
    (g.mergeBranches first merge).2.locIndex =
      (g.locIndex.filter fun entry => entry.2 != merge.second).filter fun entry =>
        entry.2 != first := by
  unfold FlowGraph.mergeBranches
  dsimp only
  rw [fst_addNode]
  generalize ((g.node first).declares ++ (g.node merge.second).declares).foldl
    Node.declare _ = added
  rw [locIndex_retarget, locIndex_retarget, (frame_removeNode _ first).2.2,
    (frame_removeNode _ merge.second).2.2,
      (sameFrame_moveOutgoing _ merge.second g.size).locIndex_eq,
    (sameFrame_moveOutgoing _ first g.size).locIndex_eq, (sameFrame_moveIncoming ..).locIndex_eq]
  rfl

theorem Draws.mergeBranches
    (h : Draws g g')
    (hplans : g'.Plans first b merge)
    (hlive : g'.isLive first = true) :
    Draws g (g'.mergeBranches first merge).2 := by
  have hmerges := merges_mergeBranches h.wired hplans hlive
  have hindex := locIndex_mergeBranches g' first merge
  refine ⟨hmerges.wired, hmerges.inherits.exact h.exact ?_ fun entry hmem => ?_,
    fun x hcarried => h.carries x (hmerges.inherits.carries hcarried)⟩
  · rw [hindex]
    exact List.filter_sublist.trans List.filter_sublist
  · have hold := ((h.exact.mem_locIndex_iff entry).1 hmem).1
    have hknown := (lt_size_of_isLive hold).ne
    rw [hindex, hmerges.live_iff]
    simp [hmem, hold, hknown, and_comm]

/-- **Marks and merges keep the index exact.** -/
theorem Exact.prepared
    (h : g.Exact)
    (hwired : g.Wired)
    (tree : DominatorTree)
    (passes : Nat) :
    Draws g (g.prepared tree passes).1 := by
  have hmarked := (h.draws hwired).marks (marked_marks g tree)
  have hmerged : Draws g ((g.marked tree).merged tree passes) :=
    Merging.passes_induction (P := fun g' _ => Draws g g')
      (fun g' tree first b merge h hlive _ houter hplanned =>
        h.mergeBranches (plans_mergePlan houter hplanned) hlive)
      (fun _ _ h => h.reorder) passes
      { graph := g.marked tree, tree, merged := 0, dangling := false } hmarked
  exact hmerged.reorder.marks (prepared_marks g tree passes)

end Merging

section Regions

theorem Enters.inherits
    (henters : Enters g g' start) :
    Inherits g g' where
  old n _ hold := ⟨(henters.renews n hold).ins_eq, (henters.renews n hold).locs_eq⟩
  new n hlive hold := by
    rw [henters.isLive_eq, hold, Bool.or_false, beq_iff_eq] at hlive
    rw [hlive]
    exact ⟨henters.ins_new, henters.locs_new⟩

theorem locIndex_enterTry
    (g : FlowGraph)
    (start : NodeId) :
    (g.enterTry start).2.locIndex = g.locIndex := by
  unfold FlowGraph.enterTry
  dsimp only
  rw [(sameFrame_addEdge ..).locIndex_eq, (sameFrame_moveIncoming ..).locIndex_eq]
  rfl

theorem Draws.enterTry
    (h : Draws g g')
    (hlive : g'.isLive start = true) :
    Draws g (g'.enterTry start).2 := by
  have henters := (enters_enterTry h.wired hlive).2
  have hindex := locIndex_enterTry g' start
  have hkept : (g'.enterTry start).2.locIndex.Sublist g'.locIndex := by rw [hindex]
  refine ⟨henters.wired, henters.inherits.exact h.exact hkept fun entry hmem => ?_,
    fun x hcarried => h.carries x (henters.inherits.carries hcarried)⟩
  rw [hindex, henters.isLive_eq, ((h.exact.mem_locIndex_iff entry).1 hmem).1, Bool.or_true]
  exact iff_of_true hmem rfl

/-- A node without code is added. -/
theorem Draws.addNode
    (h : Draws g g')
    {added : Node}
    (hins : added.ins = [])
    (hlocs : added.locs = []) :
    Draws g (g'.addNode added).2 := by
  have hinherits : Inherits g' (g'.addNode added).2 := by
    refine ⟨fun n _ hold => ?_, fun n hlive hold => ?_⟩
    · rw [node_addNode, if_neg (lt_size_of_isLive hold).ne]
      exact ⟨rfl, rfl⟩
    · rw [isLive_addNode, hold, Bool.or_false, beq_iff_eq] at hlive
      rw [node_addNode, if_pos hlive]
      exact ⟨hins, hlocs⟩
  refine ⟨h.wired.addNode added, hinherits.exact h.exact (List.Sublist.refl _) fun entry hmem => ?_,
    fun x hcarried => h.carries x (hinherits.carries hcarried)⟩
  rw [isLive_addNode, ((h.exact.mem_locIndex_iff entry).1 hmem).1, Bool.or_true]
  exact iff_of_true hmem rfl

/-- **The instruction that binds the exception goes with its place.** -/
theorem Draws.dropBinding
    (h : Draws g g')
    (hlive : g'.isLive handler = true) :
    Draws g (g'.dropBinding handler) := by
  unfold FlowGraph.dropBinding
  split
  · exact h
  · next loc _ _ =>
      refine ⟨h.wired.retouch (retouches_removeInstr g' loc), h.exact.removeInstr loc,
        fun x hcarried => h.carries x ?_⟩
      obtain ⟨y, hthere, hkept⟩ := (h.exact.carries_removeInstr loc x).1 hcarried
      unfold dropAt at hkept
      split at hkept
      · cases hkept
      · exact Option.some.inj hkept ▸ hthere
  · next hbound habsent =>
      -- An instruction of a node of the graph has a place.
      have hnone : (g'.node handler).ins = [] := by
        rw [← List.length_eq_zero_iff, ← h.exact.located handler hlive, List.length_eq_zero_iff]
        exact List.head?_eq_none_iff.1 habsent
      rw [binding?, hnone] at hbound
      cases hbound

theorem Draws.enterCatch
    (h : Draws g g')
    (hlive : g'.isLive handler = true) :
    Draws g (g'.enterCatch handler).2 :=
  (h.dropBinding hlive).addNode rfl rfl

theorem Draws.addCatch
    (h : Draws g g')
    (region handler : NodeId) :
    Draws g (g'.addCatch region handler) := by
  refine h.retouch (retouches_modifyNode region (fun _ => ⟨rfl, rfl⟩) fun n => ?_) rfl
  split <;> exact ⟨rfl, rfl⟩

/-- **Structuring keeps the index exact.** -/
theorem Exact.structured
    (h : g.Exact)
    (hintact : g.IntactWith tree)
    (passes : Nat)
    (method : String) :
    Draws g (g.structured tree passes method).graph := by
  rw [(structured_eq g tree passes method).1]
  have hnamed := hintact.prepared passes
  exact protect_induction (P := Draws g) (fun _ hdraws => hdraws.wired)
    (fun _ _ hdraws hlive => hdraws.enterTry hlive)
      (fun _ _ hdraws hlive => hdraws.enterCatch hlive)
    (fun _ region handler hdraws _ => hdraws.addCatch region handler) hnamed.intact.order_live
    hnamed.named (h.prepared hintact.intact.wired tree passes)

end Regions

end FlowGraph
end DalvikDecompiler
