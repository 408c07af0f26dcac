import DalvikDecompiler.Proofs.FlowGraph.Guided
import DalvikDecompiler.Proofs.FlowGraph.Stranding

/-!
# The references of nodes

**Input.** A flow graph that keeps each edge at both of its ends.

A node refers to others by the way it ends and by what structuring has written down in it.  When a
node goes, another one takes its place in all of this, or nothing has referred to it.

**Results.**
* `Node.refs`, `NodeKind.catches`: the nodes that a node refers to.
* `Refers`: all references of a graph go to nodes of a given kind.
* `Intact`: edges, references and the order are about nodes of the graph.
* `Intact.splitBranches`, `Intact.compact`: cleaning up leaves no reference to a node that has gone.
-/

namespace DalvikDecompiler

open Edges (replacing)

namespace NodeKind

/-- The nodes that a kind refers to, apart from handlers and the parts of a condition. -/
def refs : NodeKind → List NodeId
  | .statement | .ret | .throw => []
  | .conditional b => [b.onTrue, b.onFalse]
  | .switch s => s.cases ++ s.fallback.toList ++ s.arms.map Prod.fst
  | .shortCircuit sc => [sc.branches.onTrue, sc.branches.onFalse]
  | .loop inner _ => inner.refs
  | .tryBlock start _ follow => start :: follow.toList
  | .catchBlock start .. => [start]

/-- The handlers of a protected region. -/
def catches : NodeKind → List NodeId
  | .loop inner _ => inner.catches
  | .tryBlock _ catches _ => catches
  | _ => []

/-- The parts of a condition, and how they are put together. -/
def condition? : NodeKind → Option ShortCircuit
  | .loop inner _ => inner.condition?
  | .shortCircuit sc => some sc
  | _ => none

variable (kind : NodeKind) (f : NodeId → NodeId)

@[simp] theorem refs_remap :
    (kind.remap f).refs = kind.refs.map f := by
  induction kind with
  | loop inner _ ih => exact ih
  | switch s =>
      simp only [remap, refs, SwitchTable.remap, List.map_append, List.map_map]
      rw [List.append_assoc, List.append_assoc]
      congr 1
      cases s.fallback <;> rfl
  | tryBlock start catches follow => cases follow <;> rfl
  | _ => rfl

@[simp] theorem catches_remap :
    (kind.remap f).catches = kind.catches := by
  induction kind with
  | loop inner _ ih => exact ih
  | _ => rfl

theorem condition?_remap :
    (kind.remap f).condition? =
      kind.condition?.map fun sc => { sc with branches := sc.branches.remap f } := by
  induction kind with
  | loop inner _ ih => exact ih
  | _ => rfl

variable {kind}

theorem condition?_of_base
    {sc : ShortCircuit}
    (hjoined : kind.base = .shortCircuit sc) :
    kind.condition? = some sc := by
  induction kind with
  | loop inner _ ih => exact ih hjoined
  | shortCircuit => exact congrArg some (NodeKind.shortCircuit.inj hjoined)
  | _ => cases hjoined

/-- Both targets of a branch are referred to. -/
theorem mem_refs_of_targets?
    {b : BranchTargets}
    (hfound : kind.targets? = some b) :
    b.onTrue ∈ kind.refs ∧ b.onFalse ∈ kind.refs := by
  induction kind with
  | loop inner _ ih => exact ih hfound
  | conditional | shortCircuit =>
      obtain rfl := Option.some.inj hfound
      simp [refs]
  | _ => cases hfound

end NodeKind

namespace Node

/-- The nodes that structuring has written down in a node. -/
def notes (n : Node) : List NodeId :=
  n.ifFollow.toList ++ n.switchFollow.toList ++ n.loopFollow.toList ++ n.latch.toList ++ n.loopNodes

/-- The nodes that a node refers to, apart from handlers and the parts of a condition. -/
def refs (n : Node) : List NodeId :=
  n.kind.refs ++ n.notes

theorem mem_refs_remap
    {n : Node}
    {f : NodeId → NodeId}
    {r : NodeId} :
    r ∈ (n.remap f).refs ↔ ∃ m ∈ n.refs, f m = r := by
  simp only [refs, notes, remap, NodeKind.refs_remap, List.mem_append, List.mem_map,
    OrderedSet.mem_ofList, Option.mem_toList, Option.map_eq_some_iff, or_and_right, exists_or]

end Node

namespace FlowGraph

/-- Nodes with the same references. -/
def SameRefs (n n' : Node) : Prop :=
  n'.refs = n.refs ∧ n'.kind = n.kind

/-- Order, exit and index are the same. -/
structure SameFrame (g g' : FlowGraph) : Prop where
  order_eq : g'.order = g.order
  exit_eq : g'.exit = g.exit
  locIndex_eq : g'.locIndex = g.locIndex

/-- Entry, exit and what the nodes refer to is of a given kind, their handlers are of another one,
and the parts of a condition, which have gone themselves, have smaller numbers. -/
structure Refers (g : FlowGraph) (ok caught : NodeId → Prop) : Prop where
  entry : ok g.entry
  exit : ∀ e, g.exit = some e → ok e
  refs : ∀ n, g.isLive n = true → ∀ r ∈ (g.node n).refs, ok r
  catches : ∀ n, g.isLive n = true → ∀ r ∈ (g.node n).kind.catches, caught r
  parts : ∀ n sc, (g.node n).kind.condition? = some sc → sc.first < n ∧ sc.second < n

/-- Edges, references and the order are about nodes of the graph, and handlers are of a given
kind. -/
structure Intact (g : FlowGraph) (caught : NodeId → Prop) : Prop where
  wired : g.Wired
  refers : g.Refers (g.isLive · = true) caught
  order_live : ∀ n ∈ g.order, g.isLive n = true

section Frames

variable {g g' g'' : FlowGraph}

theorem SameFrame.refl
    (g : FlowGraph) :
    SameFrame g g :=
  ⟨rfl, rfl, rfl⟩

theorem SameFrame.trans
    (h : SameFrame g g')
    (h' : SameFrame g' g'') :
    SameFrame g g'' :=
  ⟨h'.order_eq.trans h.order_eq, h'.exit_eq.trans h.exit_eq, h'.locIndex_eq.trans h.locIndex_eq⟩

theorem sameFrame_modifySlot
    (g : FlowGraph)
    (id : NodeId)
    (f : Slot → Slot) :
    SameFrame g (g.modifySlot id f) :=
  ⟨rfl, rfl, rfl⟩

theorem sameFrame_foldl
    {α : Type}
    (step : FlowGraph → α → FlowGraph)
    (heach : ∀ g x, SameFrame g (step g x))
    (xs : List α)
    (g : FlowGraph) :
    SameFrame g (xs.foldl step g) := by
  induction xs generalizing g with
  | nil => exact .refl g
  | cons x xs ih => exact (heach g x).trans (ih (step g x))

theorem sameFrame_addEdge
    (g : FlowGraph)
    (a b : NodeId) :
    SameFrame g (g.addEdge a b) := by
  unfold addEdge
  split
  · exact .refl g
  · exact (sameFrame_modifySlot g a _).trans (sameFrame_modifySlot _ b _)

theorem sameFrame_addHandlerEdge
    (g : FlowGraph)
    (a b : NodeId) :
    SameFrame g (g.addHandlerEdge a b) := by
  unfold addHandlerEdge
  split
  · exact .refl g
  · exact (sameFrame_modifySlot g a _).trans (sameFrame_modifySlot _ b _)

theorem sameFrame_moveIncoming
    (g : FlowGraph)
    (old new : NodeId) :
    SameFrame g (g.moveIncoming old new) := by
  have hnormal := (sameFrame_modifySlot g old fun slot => { slot with preds := [] }).trans
    (sameFrame_foldl (moveIncomingFrom old new)
      (fun g x => (sameFrame_modifySlot g x _).trans (sameFrame_modifySlot _ new _))
        (g.preds old) _)
  exact (hnormal.trans (sameFrame_modifySlot _ old _)).trans
    (sameFrame_foldl _ (fun g x => (sameFrame_modifySlot g x _).trans
      (sameFrame_addHandlerEdge _ x new)) _ _)

theorem sameFrame_moveOutgoing
    (g : FlowGraph)
    (old new : NodeId) :
    SameFrame g (g.moveOutgoing old new) := by
  have hnormal := (sameFrame_modifySlot g old fun slot => { slot with succs := [] }).trans
    (sameFrame_foldl (fun g succ =>
        (g.dropPred old succ).addEdge new (if succ = old then new else succ))
      (fun g x => (sameFrame_modifySlot g x _).trans (sameFrame_addEdge _ new _)) (g.succs old) _)
  exact (hnormal.trans (sameFrame_modifySlot _ old _)).trans
    (sameFrame_foldl _ (fun g x => (sameFrame_modifySlot g x _).trans
      (sameFrame_addHandlerEdge _ new x)) _ _)

/-- Cutting the edges at a node leaves order, exit and index alone. -/
theorem sameFrame_cut
    (g : FlowGraph)
    (id : NodeId) :
    SameFrame g ((((g.clearSuccs id).clearPreds id).clearHandlerSuccs id).clearHandlerPreds
      id) := by
  have hdropAll {drop : FlowGraph → NodeId → FlowGraph}
      (heach : ∀ g x, SameFrame g (drop g x)) (f : Slot → Slot) (xs : List NodeId) (g : FlowGraph) :
      SameFrame g (xs.foldl drop (g.modifySlot id f)) :=
    (sameFrame_modifySlot g id f).trans (sameFrame_foldl _ heach xs _)
  have hfirst : SameFrame g (g.clearSuccs id) :=
    hdropAll (fun g x => sameFrame_modifySlot g x _) _ _ g
  have hsecond (g : FlowGraph) : SameFrame g (g.clearPreds id) :=
    hdropAll (fun g x => sameFrame_modifySlot g x _) _ _ g
  have hthird (g : FlowGraph) : SameFrame g (g.clearHandlerSuccs id) :=
    hdropAll (fun g x => sameFrame_modifySlot g x _) _ _ g
  have hfourth (g : FlowGraph) : SameFrame g (g.clearHandlerPreds id) :=
    hdropAll (fun g x => sameFrame_modifySlot g x _) _ _ g
  exact ((hfirst.trans (hsecond _)).trans (hthird _)).trans (hfourth _)

/-- Removing a node takes it out of order and index, and it is not the exit any more. -/
theorem frame_removeNode
    (g : FlowGraph)
    (id : NodeId) :
    (g.removeNode id).order = OrderedSet.erase g.order id ∧
      (g.removeNode id).exit = (if g.exit = some id then none else g.exit) ∧
      (g.removeNode id).locIndex = g.locIndex.filter fun entry => entry.2 != id := by
  have hcut := sameFrame_cut g id
  unfold removeNode
  generalize (((g.clearSuccs id).clearPreds id).clearHandlerSuccs id).clearHandlerPreds
    id = g' at hcut
  simp only [modifySlot, hcut.order_eq, hcut.exit_eq, hcut.locIndex_eq, and_self]

/-- Numbering nodes by their order leaves exit and index alone. -/
theorem frame_reorder
    (g : FlowGraph) :
    g.reorder.exit = g.exit ∧ g.reorder.locIndex = g.locIndex := by
  let cleared : FlowGraph :=
    { g with
      slots := g.slots.map fun slot => { slot with node := { slot.node with num := 0 } }
      order := g.toDigraph.reversePostorder g.entry }
  have hnumbered := sameFrame_foldl _
    (fun g (x : NodeId × Nat) => sameFrame_modifySlot g x.1 fun slot =>
      { slot with node := { slot.node with num := x.2 + 1 } })
    (g.toDigraph.reversePostorder g.entry).zipIdx cleared
  exact ⟨hnumbered.exit_eq, hnumbered.locIndex_eq⟩

theorem frame_modifyInstr
    (g : FlowGraph)
    (loc : Loc)
    (f : Symbolic.Instr → Symbolic.Instr) :
    (g.modifyInstr loc f).exit = g.exit ∧ (g.modifyInstr loc f).order = g.order := by
  unfold modifyInstr
  split
  · exact ⟨rfl, rfl⟩
  · split <;> exact ⟨rfl, rfl⟩

theorem frame_removeInstr
    (g : FlowGraph)
    (loc : Loc) :
    (g.removeInstr loc).exit = g.exit ∧ (g.removeInstr loc).order = g.order := by
  unfold removeInstr
  split
  · exact ⟨rfl, rfl⟩
  · dsimp only
    split <;> exact ⟨rfl, rfl⟩

end Frames

section References

variable {g g' : FlowGraph} {ok ok' caught caught' : NodeId → Prop} {id old new : NodeId}

theorem Refers.mono
    (h : g.Refers ok caught)
    (hweaker : ∀ n, ok n → ok' n)
    (hweaker' : ∀ n, caught n → caught' n) :
    g.Refers ok' caught' :=
  ⟨hweaker _ h.entry, fun e hfound => hweaker e (h.exit e hfound),
    fun n hlive r hmem => hweaker r (h.refs n hlive r hmem),
    fun n hlive r hmem => hweaker' r (h.catches n hlive r hmem), h.parts⟩

/-- A graph with the same nodes and the same exit has the same references. -/
theorem Refers.of_same
    (h : g.Refers ok caught)
    (hsame : SameNodes g g')
    (hexit : g'.exit = g.exit) :
    g'.Refers ok caught := by
  refine ⟨hsame.entry_eq ▸ h.entry, hexit ▸ h.exit, fun n hlive => ?_, fun n hlive => ?_,
    fun n => hsame.node_eq n ▸ h.parts n⟩
  all_goals
    rw [hsame.isLive_eq] at hlive
    rw [hsame.node_eq]
  · exact h.refs n hlive
  · exact h.catches n hlive

theorem Refers.retouch
    (h : g.Refers ok caught)
    (htouch : Retouches SameRefs g g')
    (hexit : g'.exit = g.exit) :
    g'.Refers ok caught := by
  refine ⟨htouch.entry_eq ▸ h.entry, hexit ▸ h.exit, fun n hlive => ?_, fun n hlive => ?_,
    fun n => (htouch.kept n).2 ▸ h.parts n⟩
  all_goals rw [htouch.isLive_eq] at hlive
  · rw [(htouch.kept n).1]
    exact h.refs n hlive
  · rw [(htouch.kept n).2]
    exact h.catches n hlive

theorem Refers.modifyNode
    {f : Node → Node}
    (h : g.Refers ok caught)
    (hrefs : g.isLive id = true → ∀ r ∈ (f (g.node id)).refs, ok r)
    (hcatches : g.isLive id = true → ∀ r ∈ (f (g.node id)).kind.catches, caught r)
    (hcondition : (f (g.node id)).kind.condition? = (g.node id).kind.condition?) :
    (g.modifyNode id f).Refers ok caught := by
  have helsewhere {n : NodeId} (hother : n ≠ id ∨ g.size ≤ n) :
      (g.modifyNode id f).node n = g.node n := by
    rw [node, slots_modifyNode, node]
    rcases hother with hother | hbeyond
    · simp [hother]
    · simp [Array.getElem?_eq_none hbeyond]
  refine ⟨h.entry, h.exit, fun n hlive => ?_, fun n hlive => ?_, fun n => ?_⟩
  · rw [isLive_modifyNode] at hlive
    by_cases here : n = id
    · subst here
      rw [node_modifyNode g n f (lt_size_of_isLive hlive), if_pos rfl]
      exact hrefs hlive
    · rw [helsewhere (.inl here)]
      exact h.refs n hlive
  · rw [isLive_modifyNode] at hlive
    by_cases here : n = id
    · subst here
      rw [node_modifyNode g n f (lt_size_of_isLive hlive), if_pos rfl]
      exact hcatches hlive
    · rw [helsewhere (.inl here)]
      exact h.catches n hlive
  · by_cases here : n = id ∧ n < g.size
    · obtain ⟨rfl, hknown⟩ := here
      rw [node_modifyNode g n f hknown, if_pos rfl, hcondition]
      exact h.parts n
    · rw [helsewhere ((not_and_or.1 here).imp_right not_lt.1)]
      exact h.parts n

theorem Refers.addNode
    {added : Node}
    (h : g.Refers ok caught)
    (hrefs : ∀ r ∈ added.refs, ok r)
    (hcatches : ∀ r ∈ added.kind.catches, caught r)
    (hparts : ∀ sc, added.kind.condition? = some sc → sc.first < g.size ∧ sc.second < g.size) :
    (g.addNode added).2.Refers ok caught := by
  have hold {n : NodeId} (here : n ≠ g.size) (hlive : (g.addNode added).2.isLive n = true) :
      g.isLive n = true := by simpa [isLive_addNode, here] using hlive
  refine ⟨h.entry, h.exit, fun n hlive => ?_, fun n hlive => ?_, fun n => ?_⟩
  all_goals
    rw [node_addNode]
    split
  · exact hrefs
  · next here => exact h.refs n (hold here hlive)
  · exact hcatches
  · next here => exact h.catches n (hold here hlive)
  · next here => exact here ▸ hparts
  · exact h.parts n

/-- Another node takes the place of one. -/
theorem Refers.retarget
    (h : g.Refers ok caught)
    (htakes : ∀ n, ok n → ok' (replacing old new n)) :
    (g.retarget old new).Refers ok' caught := by
  refine ⟨?_, fun e hfound => ?_, ?_, ?_, ?_⟩
  · rw [entry_retarget]
    exact htakes _ h.entry
  · have hexit : (g.retarget old new).exit = g.exit.map (replacing old new) := by
      unfold FlowGraph.retarget replacing
      cases g.exit with
      | none => rfl
      | some e => by_cases here : e = old <;> simp [here]
    rw [hexit, Option.map_eq_some_iff] at hfound
    obtain ⟨e, hfound, rfl⟩ := hfound
    exact htakes e (h.exit e hfound)
  · intro n hlive r hmem
    rw [isLive_retarget] at hlive
    rw [node_retarget _ _ _ _ hlive] at hmem
    obtain ⟨m, hthere, rfl⟩ := Node.mem_refs_remap.1 hmem
    exact htakes m (h.refs n hlive m hthere)
  · intro n hlive r hmem
    rw [isLive_retarget] at hlive
    rw [node_retarget _ _ _ _ hlive] at hmem
    exact h.catches n hlive r ((NodeKind.catches_remap (g.node n).kind _) ▸ hmem)
  · intro n sc hfound
    cases hlive : g.isLive n with
    | false => exact h.parts n sc (node_retarget_of_not_live _ _ _ _ hlive ▸ hfound)
    | true =>
        rw [node_retarget _ _ _ _ hlive] at hfound
        obtain ⟨before, hthere, rfl⟩ :=
          Option.map_eq_some_iff.1 ((NodeKind.condition?_remap (g.node n).kind _).symm.trans hfound)
        exact h.parts n before hthere

@[simp] theorem order_retarget
    (g : FlowGraph)
    (old new : NodeId) :
    (g.retarget old new).order = g.order :=
  rfl

theorem Refers.removeNode
    (h : g.Refers ok caught)
    (id : NodeId) :
    (g.removeNode id).Refers ok caught := by
  have hremoves := removes_removeNode g id
  refine ⟨?_, fun e hfound => ?_, ?_, ?_, ?_⟩
  · rw [hremoves.entry_eq]
    exact h.entry
  · rw [(frame_removeNode g id).2.1] at hfound
    split at hfound
    · cases hfound
    · exact h.exit e hfound
  · intro n hlive
    rw [hremoves.isLive_eq, Bool.and_eq_true] at hlive
    rw [hremoves.node_eq]
    exact h.refs n hlive.2
  · intro n hlive
    rw [hremoves.isLive_eq, Bool.and_eq_true] at hlive
    rw [hremoves.node_eq]
    exact h.catches n hlive.2
  · intro n
    rw [hremoves.node_eq]
    exact h.parts n

end References

section Edits

variable {g g' : FlowGraph} {caught caught' : NodeId → Prop} {id succ old new : NodeId}

theorem Intact.entry_live
    (h : g.Intact caught) :
    g.isLive g.entry = true :=
  h.refers.entry

/-- What a node of the graph refers to is part of the graph. -/
theorem Intact.refs_live
    (h : g.Intact caught)
    (hlive : g.isLive id = true) :
    ∀ r ∈ (g.node id).refs, g.isLive r = true :=
  h.refers.refs id hlive

theorem Intact.notes_live
    (h : g.Intact caught)
    (hlive : g.isLive id = true) :
    ∀ r ∈ (g.node id).notes, g.isLive r = true :=
  fun r hmem => h.refs_live hlive r (List.mem_append_right _ hmem)

theorem Intact.mono
    (h : g.Intact caught)
    (hweaker : ∀ n, caught n → caught' n) :
    g.Intact caught' :=
  ⟨h.wired, h.refers.mono (fun _ hlive => hlive) hweaker, h.order_live⟩

/-- Edges are changed between nodes of the graph. -/
theorem Intact.rewire
    (h : g.Intact caught)
    (hwired : g'.Wired)
    (hsame : SameNodes g g')
    (hframe : SameFrame g g') :
    g'.Intact caught where
  wired := hwired
  refers := (h.refers.of_same hsame hframe.exit_eq).mono
    (fun n hlive => (hsame.isLive_eq n).trans hlive) fun _ hthere => hthere
  order_live n hmem := (hsame.isLive_eq n).trans (h.order_live n (hframe.order_eq ▸ hmem))

/-- Something else than references is changed in nodes. -/
theorem Intact.retouch
    (h : g.Intact caught)
    (htouch : Retouches SameRefs g g')
    (hexit : g'.exit = g.exit)
    (horder : ∀ n ∈ g'.order, g.isLive n = true) :
    g'.Intact caught where
  wired := h.wired.retouch htouch
  refers := (h.refers.retouch htouch hexit).mono (fun n hlive => (htouch.isLive_eq n).trans hlive)
    fun _ hthere => hthere
  order_live n hmem := (htouch.isLive_eq n).trans (horder n hmem)

theorem Intact.modifyNode
    {f : Node → Node}
    (h : g.Intact caught)
    (hrefs : g.isLive id = true → ∀ r ∈ (f (g.node id)).refs, g.isLive r = true)
    (hcatches : g.isLive id = true → ∀ r ∈ (f (g.node id)).kind.catches, caught r)
    (hcondition : (f (g.node id)).kind.condition? = (g.node id).kind.condition?) :
    (g.modifyNode id f).Intact caught where
  wired := h.wired.modifyNode id f
  refers := (h.refers.modifyNode hrefs hcatches hcondition).mono
    (fun n hlive => by simpa using hlive)
    fun _ hthere => hthere
  order_live n hmem := by simpa using h.order_live n hmem

/-- Another node takes the place of one, which stays. -/
theorem Intact.retarget
    (h : g.Intact caught)
    (hlive : g.isLive new = true) :
    (g.retarget old new).Intact caught where
  wired := h.wired.retarget old new
  refers := h.refers.retarget fun n hthere => by
    rw [isLive_retarget]
    unfold replacing
    split
    · exact hlive
    · exact hthere
  order_live n hmem := by simpa using h.order_live n hmem

/-- A node of the same kind refers to other nodes of the graph. -/
theorem Intact.note
    {f : Node → Node}
    (h : g.Intact caught)
    (hkind : (f (g.node id)).kind = (g.node id).kind)
    (hnotes : g.isLive id = true → ∀ r ∈ (f (g.node id)).notes, g.isLive r = true) :
    (g.modifyNode id f).Intact caught := by
  refine h.modifyNode (fun hlive r hmem => ?_) (fun hlive => ?_) (congrArg _ hkind)
  · rcases List.mem_append.1 hmem with hmem | hmem
    · exact h.refs_live hlive r (List.mem_append_left _ (hkind ▸ hmem))
    · exact hnotes hlive r hmem
  · rw [hkind]
    exact h.refers.catches id hlive

theorem Intact.addNode
    {added : Node}
    (h : g.Intact caught)
    (hrefs : ∀ r ∈ added.refs, g.isLive r = true)
    (hcatches : ∀ r ∈ added.kind.catches, caught r)
    (hparts : ∀ sc, added.kind.condition? = some sc → sc.first < g.size ∧ sc.second < g.size) :
    (g.addNode added).2.Intact caught where
  wired := h.wired.addNode added
  refers := (h.refers.addNode hrefs hcatches hparts).mono
    (fun n hlive => by simp [isLive_addNode, hlive]) fun _ hthere => hthere
  order_live n hmem := by simp [isLive_addNode, h.order_live n hmem]

theorem Intact.moveIncoming
    (h : g.Intact caught)
    (hlive : g.isLive new = true)
    (hapart : new ≠ old) :
    (g.moveIncoming old new).Intact caught ∧ SameNodes g (g.moveIncoming old new) := by
  obtain ⟨hwired, hsame, -⟩ := h.wired.moveIncoming hlive hapart
  exact ⟨h.rewire hwired hsame (sameFrame_moveIncoming g old new), hsame⟩

theorem Intact.moveOutgoing
    (h : g.Intact caught)
    (hlive : g.isLive new = true)
    (hapart : new ≠ old) :
    (g.moveOutgoing old new).Intact caught ∧ SameNodes g (g.moveOutgoing old new) := by
  obtain ⟨hwired, hsame, -⟩ := h.wired.moveOutgoing hlive hapart
  exact ⟨h.rewire hwired hsame (sameFrame_moveOutgoing g old new), hsame⟩

theorem Intact.addEdge
    {a b : NodeId}
    (h : g.Intact caught)
    (hlive : g.isLive a = true)
    (hlive' : g.isLive b = true) :
    (g.addEdge a b).Intact caught ∧ SameNodes g (g.addEdge a b) := by
  obtain ⟨hwired, hsame, -⟩ := h.wired.addEdge hlive hlive'
  exact ⟨h.rewire hwired hsame (sameFrame_addEdge g a b), hsame⟩

/-- **A node goes, and another one takes its place wherever it was referred to.** -/
theorem Intact.replace
    (h : g.Intact caught)
    (hlive : g.isLive new = true)
    (hapart : new ≠ old) :
    ((g.retarget old new).removeNode old).Intact caught := by
  have hreplaces := h.wired.replaces old new
  have hisLive {n : NodeId} (hthere : g.isLive n = true) :
      ((g.retarget old new).removeNode old).isLive (replacing old new n) = true := by
    unfold replacing
    rw [hreplaces.isLive_eq]
    split
    · simp [hapart, hlive]
    · next hother => simp [hother, hthere]
  refine ⟨hreplaces.wired, (h.refers.retarget fun n hthere => hisLive hthere).removeNode old,
    fun n hmem => ?_⟩
  rw [(frame_removeNode (g.retarget old new) old).1, OrderedSet.mem_erase] at hmem
  rw [hreplaces.isLive_eq]
  simp [hmem.2, h.order_live n hmem.1]

theorem Intact.reorder
    (h : g.Intact caught) :
    g.reorder.Intact caught := by
  have htouch := retouches_reorder g
  refine h.retouch (htouch.mono fun n n' hsame => ?_) (frame_reorder g).1 fun n hmem => ?_
  · obtain ⟨num, rfl⟩ := hsame
    exact ⟨rfl, rfl⟩
  · rw [(reorder_sameCode g).2, Digraph.reversePostorder, List.mem_reverse,
      Digraph.mem_postorder_iff h.wired.wellFormed (lt_size_of_isLive h.entry_live)] at hmem
    exact h.wired.live_of_reachable h.entry_live hmem

theorem Intact.reindex
    (h : g.Intact caught) :
    g.reindex.Intact caught :=
  ⟨h.wired.reindex,
    ⟨h.refers.entry, h.refers.exit, h.refers.refs, h.refers.catches, h.refers.parts⟩, h.order_live⟩

/-- The branch of a node is split off. -/
theorem Intact.splitBranch
    (h : g.Intact caught)
    (hlive : g.isLive id = true) :
    (g.splitBranch id).Intact caught := by
  have hknown := lt_size_of_isLive hlive
  have hpre : (g.addNode (preOf (g.node id))).2.Intact caught :=
    h.addNode (h.notes_live hlive) (by simp [preOf, Node.shell, NodeKind.catches])
      (by simp [preOf, Node.shell, NodeKind.condition?])
  have hstays {n : NodeId} (hthere : g.isLive n = true) :
      (g.addNode (preOf (g.node id))).2.isLive n = true := by
    simp [isLive_addNode, hthere]
  have hboth : ((g.addNode (preOf (g.node id))).2.addNode (condOf (g.node id))).2.Intact
    caught := by
    refine hpre.addNode (fun r hmem => hstays (h.refs_live hlive r hmem))
      (h.refers.catches id hlive)
      fun sc hfound => ?_
    obtain ⟨hfirst, hsecond⟩ := h.refers.parts id sc hfound
    have hlater : id < (g.addNode (preOf (g.node id))).2.size :=
      (size_addNode ..).symm ▸ Nat.lt_succ_of_lt hknown
    exact ⟨hfirst.trans hlater, hsecond.trans hlater⟩
  have hisLive (n : NodeId) :=
    (h.wired.extends (preOf (g.node id)) (condOf (g.node id))).isLive_eq n
  rw [splitBranch_eq]
  generalize ((g.addNode (preOf (g.node id))).2.addNode (condOf (g.node id))).2 =
    g₁ at hboth hisLive ⊢
  obtain ⟨hentered, hsame⟩ := hboth.moveIncoming (by simp [hisLive]) hknown.ne'
  obtain ⟨hleft, hsame'⟩ := hentered.moveOutgoing
    (by simp [hsame.isLive_eq, hisLive]) (Nat.lt_succ_of_lt hknown).ne'
  have hsame := hsame.trans hsame'
  obtain ⟨hwired, hsame', -⟩ := hleft.wired.addHandlerEdges (a := g.size)
    (by simp [hsame.isLive_eq, hisLive]) fun b (hmem : b ∈ g.handlerSuccs id) => by
      simp [hsame.isLive_eq, hisLive, (h.wired.live id b (.inr hmem)).2]
  have hunder := hleft.rewire hwired hsame'
    (sameFrame_foldl _ (fun g b => sameFrame_addHandlerEdge g _ b) _ _)
  have hsame := hsame.trans hsame'
  obtain ⟨hjoined, hsame'⟩ := hunder.addEdge (a := g.size) (b := g.size + 1)
    (by simp [hsame.isLive_eq, hisLive]) (by simp [hsame.isLive_eq, hisLive])
  have hsame := hsame.trans hsame'
  exact hjoined.replace (by simp [hsame.isLive_eq, hisLive]) hknown.ne'

theorem Recoded.sameRefs
    {n n' : Node}
    (h : Recoded n n') :
    SameRefs n n' :=
  ⟨(congrArg Node.refs h :), h.sameKind⟩

theorem sameRefs_foldl_declare
    (n : Node)
    (names : List Symbolic.VarId) :
    SameRefs n (names.foldl Node.declare n) := by
  obtain ⟨declares, hsame⟩ := exists_foldl_declare_eq n names
  rw [hsame]
  exact ⟨rfl, rfl⟩

/-- A node is left out. -/
theorem Intact.bypass
    (h : g.Intact caught)
    (hedge : succ ∈ g.succs id)
    (hapart : succ ≠ id) :
    (g.bypass id succ).Intact caught := by
  have hdeclared : (g.declareAll succ (g.node id).declares).Intact caught :=
    h.retouch
      (retouches_modifyNode succ (fun _ => ⟨rfl, rfl⟩) fun n => sameRefs_foldl_declare n _) rfl
      h.order_live
  have hlive : (g.declareAll succ (g.node id).declares).isLive succ = true :=
    (isLive_modifyNode ..).trans (h.wired.live id succ (.inl hedge)).2
  obtain ⟨hmoved, hsame⟩ := hdeclared.moveIncoming hlive hapart
  exact hmoved.replace ((hsame.isLive_eq succ).trans hlive) hapart

/-- A node is joined with its successor. -/
theorem Intact.join
    (h : g.Intact caught)
    (hedge : succ ∈ g.succs id)
    (hapart : succ ≠ id) :
    (g.join id succ).Intact caught := by
  have hlive := (h.wired.live id succ (.inl hedge)).1
  have hemptied : (g.modifyNode succ fun n =>
      { n with ins := [], locs := [], declares := [] }).Intact
      caught :=
    h.retouch (retouches_modifyNode succ (fun _ => ⟨rfl, rfl⟩) fun _ => ⟨rfl, rfl⟩) rfl h.order_live
  have hlive₁ : (g.modifyNode succ fun n =>
      { n with ins := [], locs := [], declares := [] }).isLive id = true := by simpa using hlive
  unfold FlowGraph.join
  dsimp only
  generalize (g.modifyNode succ fun n => { n with ins := [], locs := [], declares := [] }) = g₁ at *
  have habsorbed := hemptied.retouch (retouches_modifyNode id (fun _ => ⟨rfl, rfl⟩)
    fun n => sameRefs_foldl_declare
      { n with ins := n.ins ++ (g.node succ).ins, locs := n.locs ++ (g.node succ).locs }
      (g.node succ).declares) rfl hemptied.order_live
  have hlive₂ : (g₁.modifyNode id fun n => (g.node succ).declares.foldl Node.declare
      { n with ins := n.ins ++ (g.node succ).ins, locs := n.locs ++ (g.node succ).locs }).isLive
        id = true := by simpa using hlive₁
  generalize (g₁.modifyNode id fun n => (g.node succ).declares.foldl Node.declare
      { n with ins := n.ins ++ (g.node succ).ins, locs := n.locs ++ (g.node succ).locs }) = g₂ at *
  obtain ⟨hwired, hsame, -⟩ := habsorbed.wired.removeEdge id succ
  have hcut := habsorbed.rewire hwired hsame
    ((sameFrame_modifySlot g₂ id _).trans (sameFrame_modifySlot _ succ _))
  obtain ⟨hmoved, hsame'⟩ := hcut.moveOutgoing ((hsame.isLive_eq id).trans hlive₂) hapart.symm
  exact hmoved.replace (((hsame.trans hsame').isLive_eq id).trans hlive₂) hapart.symm

theorem Intact.compacts
    (h : g.Intact caught)
    (hcompacts : Compacts g id g') :
    g'.Intact caught := by
  cases hcompacts with
  | bypass _ _ hsuccs _ hapart _ hmade =>
      exact hmade ▸ h.bypass (hsuccs ▸ List.mem_cons_self) hapart
  | join _ _ hsuccs _ _ _ hapart _ _ _ hmade =>
      exact hmade ▸ h.join (hsuccs ▸ List.mem_cons_self) hapart

theorem Intact.splitBranches
    (h : g.Intact caught) :
    g.splitBranches.2.Intact caught :=
  splitBranches_induction (P := (Intact · caught)) (fun _ h => h.wired)
    (fun _ _ h hlive _ _ => h.splitBranch hlive)
    (fun _ h => h.reindex) h

/-- **Cleaning up leaves no reference to a node that has gone.** -/
theorem Intact.compact
    (h : g.Intact caught) :
    g.compact.2.Intact caught :=
  compact_induction (P := (Intact · caught)) (fun _ h => h.wired) (fun _ _ _ h => h.compacts)
    (fun _ h => h.reindex) h

end Edits

end FlowGraph
end DalvikDecompiler
