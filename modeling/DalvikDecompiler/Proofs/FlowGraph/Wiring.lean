import DalvikDecompiler.FlowGraph.Cleanup
import DalvikDecompiler.Proofs.Digraph.DepthFirst
import DalvikDecompiler.Proofs.FlowGraph.Edges
import DalvikDecompiler.Proofs.FlowGraph.LoopFree
import DalvikDecompiler.Proofs.FlowGraph.Rewriting

/-!
# Editing a flow graph

**Input.** A flow graph that keeps each edge at both of its ends.

An edit of the shape changes the edges of the two kinds, each as `Edges` says, and leaves the nodes
alone, or it changes nodes and leaves the edges alone.

**Results.**
* `Rewires`: what an edit of the edges does, for each of the edits that move or remove edges.
* `Wired`: edges are known at both ends, each once, and connect nodes of the graph.
* `Wired.removeNode`, `Wired.moveIncoming`, `Wired.moveOutgoing`: the edges stay wired, and where
  they lead.
-/

namespace DalvikDecompiler
namespace FlowGraph

open OrderedSet (insertAll erase mem_insertAll mem_erase)

/-- A slot that holds nothing. -/
def vacant : Slot :=
  { node := .plain "" .statement
    live := false
    succs := []
    preds := []
    handlerSuccs := []
    handlerPreds := [] }

/-- A slot, or a vacant one where there is none. -/
def slotAt (g : FlowGraph) (id : NodeId) : Slot :=
  g.slots[id]?.getD vacant

/-- Two graphs have the same nodes. -/
structure SameNodes (g g' : FlowGraph) : Prop where
  size_eq : g'.size = g.size
  entry_eq : g'.entry = g.entry
  node_eq : ∀ n, g'.node n = g.node n
  isLive_eq : ∀ n, g'.isLive n = g.isLive n

/-- The normal edges. -/
def normal (g : FlowGraph) : Edges :=
  ⟨g.succs, g.preds⟩

/-- The exception edges. -/
def exceptional (g : FlowGraph) : Edges :=
  ⟨g.handlerSuccs, g.handlerPreds⟩

/-- An edit that leaves the nodes alone and changes the edges of the two kinds. -/
structure Rewires (g g' : FlowGraph) (normal exceptional : Edges → Edges) : Prop extends
    SameNodes g g' where
  normal_eq : g'.normal = normal g.normal
  exceptional_eq : g'.exceptional = exceptional g.exceptional

/-- Edges of both kinds are known at both ends, each once, and connect nodes of the graph. -/
structure Wired (g : FlowGraph) : Prop where
  normal : g.normal.Paired
  exceptional : g.exceptional.Paired
  live : ∀ a b, b ∈ g.succs a ∨ b ∈ g.handlerSuccs a → g.isLive a = true ∧ g.isLive b = true

section Slots

variable (g : FlowGraph) {id n : NodeId} {f : Slot → Slot}

theorem node_eq_slotAt :
    g.node n = (g.slotAt n).node := by
  unfold node slotAt
  cases g.slots[n]? <;> rfl

theorem isLive_eq_slotAt :
    g.isLive n = (g.slotAt n).live := by
  unfold isLive slotAt
  cases g.slots[n]? <;> rfl

theorem succs_eq_slotAt :
    g.succs n = (g.slotAt n).succs := by
  unfold succs slotAt
  cases g.slots[n]? <;> rfl

theorem preds_eq_slotAt :
    g.preds n = (g.slotAt n).preds := by
  unfold preds slotAt
  cases g.slots[n]? <;> rfl

theorem handlerSuccs_eq_slotAt :
    g.handlerSuccs n = (g.slotAt n).handlerSuccs := by
  unfold handlerSuccs slotAt
  cases g.slots[n]? <;> rfl

theorem handlerPreds_eq_slotAt :
    g.handlerPreds n = (g.slotAt n).handlerPreds := by
  unfold handlerPreds slotAt
  cases g.slots[n]? <;> rfl

/-- A field of the slots after one of them has been changed. -/
theorem slotAt_modifySlot
    {α : Type}
    (field : Slot → α)
    (change : α → α)
    (hsame : ∀ s, field (f s) = change (field s))
    (hblank' : id < g.size ∨ change (field vacant) = field vacant) :
    field ((g.modifySlot id f).slotAt n) =
      if n = id then change (field (g.slotAt n)) else field (g.slotAt n) := by
  unfold slotAt modifySlot
  rw [Array.getElem?_modify]
  by_cases h : id = n
  · subst h
    rw [if_pos rfl, if_pos rfl]
    rcases Nat.lt_or_ge id g.slots.size with hknown | hunknown
    · simp [Array.getElem?_eq_getElem hknown, hsame]
    · have hblank := hblank'.resolve_left (Nat.not_lt.2 hunknown)
      simp [Array.getElem?_eq_none hunknown, hblank]
  · rw [if_neg h, if_neg (Ne.symm h)]

/-- A field of the slots that a change leaves alone. -/
theorem slotAt_modifySlot_same
    {α : Type}
    (field : Slot → α)
    (hsame : ∀ s, field (f s) = field s) :
    field ((g.modifySlot id f).slotAt n) = field (g.slotAt n) := by
  rw [slotAt_modifySlot g field (fun x => x) hsame (.inr rfl), ite_self]

end Slots

section Nodes

variable {g g' g'' : FlowGraph}

@[simp] theorem size_modifySlot
    (g : FlowGraph)
    (id : NodeId)
    (f : Slot → Slot) :
    (g.modifySlot id f).size = g.size :=
  Array.size_modify ..

theorem SameNodes.refl
    (g : FlowGraph) :
    SameNodes g g :=
  ⟨rfl, rfl, fun _ => rfl, fun _ => rfl⟩

theorem SameNodes.trans
    (h : SameNodes g g')
    (h' : SameNodes g' g'') :
    SameNodes g g'' where
  size_eq := h'.size_eq.trans h.size_eq
  entry_eq := h'.entry_eq.trans h.entry_eq
  node_eq n := (h'.node_eq n).trans (h.node_eq n)
  isLive_eq n := (h'.isLive_eq n).trans (h.isLive_eq n)

theorem sameNodes_modifySlot
    (g : FlowGraph)
    (id : NodeId)
    {f : Slot → Slot}
    (hsame : ∀ s, (f s).node = s.node ∧ (f s).live = s.live) :
    SameNodes g (g.modifySlot id f) where
  size_eq := size_modifySlot ..
  entry_eq := rfl
  node_eq n := by
    rw [node_eq_slotAt, node_eq_slotAt]
    exact slotAt_modifySlot_same g Slot.node fun s => (hsame s).1
  isLive_eq n := by
    rw [isLive_eq_slotAt, isLive_eq_slotAt]
    exact slotAt_modifySlot_same g Slot.live fun s => (hsame s).2

theorem sameNodes_foldl
    {α : Type}
    {step : FlowGraph → α → FlowGraph}
    (hsame : ∀ g x, SameNodes g (step g x))
    (xs : List α)
    (g : FlowGraph) :
    SameNodes g (xs.foldl step g) := by
  induction xs generalizing g with
  | nil => exact .refl g
  | cons x xs ih => exact (hsame g x).trans (ih (step g x))

end Nodes

section EdgeLists

variable (g : FlowGraph) (id : NodeId)

theorem succs_eq :
    g.succs = fun n => (g.slotAt n).succs :=
  funext fun _ => g.succs_eq_slotAt

theorem preds_eq :
    g.preds = fun n => (g.slotAt n).preds :=
  funext fun _ => g.preds_eq_slotAt

theorem handlerSuccs_eq :
    g.handlerSuccs = fun n => (g.slotAt n).handlerSuccs :=
  funext fun _ => g.handlerSuccs_eq_slotAt

theorem handlerPreds_eq :
    g.handlerPreds = fun n => (g.slotAt n).handlerPreds :=
  funext fun _ => g.handlerPreds_eq_slotAt

/-- An edit of the four edge lists of one node. -/
theorem edges_modifySlot
    {f : Slot → Slot}
    (succs preds handlerSuccs handlerPreds : List NodeId → List NodeId)
    (hsame : ∀ s, (f s).succs = succs s.succs ∧ (f s).preds = preds s.preds ∧
      (f s).handlerSuccs = handlerSuccs s.handlerSuccs ∧
      (f s).handlerPreds = handlerPreds s.handlerPreds)
    (hblank : id < g.size ∨
      succs [] = [] ∧ preds [] = [] ∧ handlerSuccs [] = [] ∧ handlerPreds [] = []) :
    (g.modifySlot id f).normal =
        ⟨Function.update g.succs id (succs (g.succs id)),
          Function.update g.preds id (preds (g.preds id))⟩ ∧
      (g.modifySlot id f).exceptional =
        ⟨Function.update g.handlerSuccs id (handlerSuccs (g.handlerSuccs id)),
          Function.update g.handlerPreds id (handlerPreds (g.handlerPreds id))⟩ := by
  have hends {field : Slot → List NodeId} {change : List NodeId → List NodeId}
      (hsame : ∀ s, field (f s) = change (field s))
      (hblank : id < g.size ∨ change (field vacant) = field vacant) (n : NodeId) :
      field ((g.modifySlot id f).slotAt n) =
        Function.update (fun n => field (g.slotAt n)) id (change (field (g.slotAt id))) n := by
    rw [slotAt_modifySlot g field change hsame hblank, Function.update_apply]
    split
    · next here => rw [here]
    · rfl
  unfold normal exceptional
  rw [succs_eq, succs_eq, preds_eq, preds_eq, handlerSuccs_eq, handlerSuccs_eq, handlerPreds_eq,
    handlerPreds_eq]
  constructor <;> congr 1 <;> funext n
  · exact hends (fun s => (hsame s).1) (hblank.imp_right fun h => h.1) n
  · exact hends (fun s => (hsame s).2.1) (hblank.imp_right fun h => h.2.1) n
  · exact hends (fun s => (hsame s).2.2.1) (hblank.imp_right fun h => h.2.2.1) n
  · exact hends (fun s => (hsame s).2.2.2) (hblank.imp_right fun h => h.2.2.2) n

/-- An edit of a slot that leaves its edges alone. -/
theorem edges_modifySlot_same
    {f : Slot → Slot}
    (hsame : ∀ s, (f s).succs = s.succs ∧ (f s).preds = s.preds ∧
      (f s).handlerSuccs = s.handlerSuccs ∧ (f s).handlerPreds = s.handlerPreds) :
    (g.modifySlot id f).normal = g.normal ∧ (g.modifySlot id f).exceptional = g.exceptional := by
  have h := g.edges_modifySlot id (fun x => x) (fun x => x) (fun x => x) (fun x => x) hsame
    (.inr ⟨rfl, rfl, rfl, rfl⟩)
  simp only [Function.update_eq_self] at h
  exact h

variable (change : List NodeId → List NodeId) (hblank : id < g.size ∨ change [] = [])

include hblank

theorem rewires_succs :
    Rewires g (g.modifySlot id fun slot => { slot with succs := change slot.succs })
      (fun e => { e with targets := Function.update e.targets id (change (e.targets id)) })
        fun e => e := by
  have h := g.edges_modifySlot id (f := fun slot => { slot with succs := change slot.succs })
    change (fun x => x) (fun x => x) (fun x => x) (fun _ => ⟨rfl, rfl, rfl, rfl⟩)
    (hblank.imp_right fun h => ⟨h, rfl, rfl, rfl⟩)
  simp only [Function.update_eq_self] at h
  exact ⟨sameNodes_modifySlot g id fun _ => ⟨rfl, rfl⟩, h.1, h.2⟩

theorem rewires_preds :
    Rewires g (g.modifySlot id fun slot => { slot with preds := change slot.preds })
      (fun e => { e with sources := Function.update e.sources id (change (e.sources id)) })
        fun e => e := by
  have h := g.edges_modifySlot id (f := fun slot => { slot with preds := change slot.preds })
    (fun x => x) change (fun x => x) (fun x => x) (fun _ => ⟨rfl, rfl, rfl, rfl⟩)
    (hblank.imp_right fun h => ⟨rfl, h, rfl, rfl⟩)
  simp only [Function.update_eq_self] at h
  exact ⟨sameNodes_modifySlot g id fun _ => ⟨rfl, rfl⟩, h.1, h.2⟩

theorem rewires_handlerSuccs :
    Rewires g (g.modifySlot id fun slot => { slot with handlerSuccs := change slot.handlerSuccs })
      (fun e => e)
      fun e => { e with targets := Function.update e.targets id (change (e.targets id)) } := by
  have h := g.edges_modifySlot id
    (f := fun slot => { slot with handlerSuccs := change slot.handlerSuccs })
    (fun x => x) (fun x => x) change (fun x => x) (fun _ => ⟨rfl, rfl, rfl, rfl⟩)
    (hblank.imp_right fun h => ⟨rfl, rfl, h, rfl⟩)
  simp only [Function.update_eq_self] at h
  exact ⟨sameNodes_modifySlot g id fun _ => ⟨rfl, rfl⟩, h.1, h.2⟩

theorem rewires_handlerPreds :
    Rewires g (g.modifySlot id fun slot => { slot with handlerPreds := change slot.handlerPreds })
      (fun e => e)
      fun e => { e with sources := Function.update e.sources id (change (e.sources id)) } := by
  have h := g.edges_modifySlot id
    (f := fun slot => { slot with handlerPreds := change slot.handlerPreds })
    (fun x => x) (fun x => x) (fun x => x) change (fun _ => ⟨rfl, rfl, rfl, rfl⟩)
    (hblank.imp_right fun h => ⟨rfl, rfl, rfl, h⟩)
  simp only [Function.update_eq_self] at h
  exact ⟨sameNodes_modifySlot g id fun _ => ⟨rfl, rfl⟩, h.1, h.2⟩

end EdgeLists

section Edits

variable {g g' g'' : FlowGraph} {n e n' e' : Edges → Edges} {a b old new : NodeId}

theorem Rewires.refl
    (g : FlowGraph) :
    Rewires g g (fun e => e) fun e => e :=
  ⟨.refl g, rfl, rfl⟩

theorem Rewires.trans
    (h : Rewires g g' n e)
    (h' : Rewires g' g'' n' e') :
    Rewires g g'' (fun x => n' (n x)) fun x => e' (e x) where
  toSameNodes := h.toSameNodes.trans h'.toSameNodes
  normal_eq := h'.normal_eq.trans (congrArg n' h.normal_eq)
  exceptional_eq := h'.exceptional_eq.trans (congrArg e' h.exceptional_eq)

theorem Rewires.foldl
    {α : Type}
    {step : FlowGraph → α → FlowGraph}
    {n e : Edges → α → Edges}
    (xs : List α)
    (heach : ∀ g', SameNodes g g' → ∀ x ∈ xs, Rewires g' (step g' x) (n · x) (e · x)) :
    Rewires g (xs.foldl step g) (xs.foldl n ·) (xs.foldl e ·) := by
  induction xs generalizing g with
  | nil => exact .refl g
  | cons x xs ih =>
      have hfirst := heach g (.refl g) x List.mem_cons_self
      refine hfirst.trans (ih fun g' hsame y hy => ?_)
      exact heach g' (hfirst.toSameNodes.trans hsame) y (List.mem_cons_of_mem x hy)

theorem rewires_dropSucc
    (g : FlowGraph)
    (a b : NodeId) :
    Rewires g (g.dropSucc a b) (·.dropTarget a b) fun e => e :=
  g.rewires_succs a _ (.inr rfl)

theorem rewires_dropPred
    (g : FlowGraph)
    (a b : NodeId) :
    Rewires g (g.dropPred a b) (·.dropSource a b) fun e => e :=
  g.rewires_preds b _ (.inr rfl)

theorem rewires_dropHandlerSucc
    (g : FlowGraph)
    (a b : NodeId) :
    Rewires g (g.dropHandlerSucc a b) (fun e => e) (·.dropTarget a b) :=
  g.rewires_handlerSuccs a _ (.inr rfl)

theorem rewires_dropHandlerPred
    (g : FlowGraph)
    (a b : NodeId) :
    Rewires g (g.dropHandlerPred a b) (fun e => e) (·.dropSource a b) :=
  g.rewires_handlerPreds b _ (.inr rfl)

theorem rewires_addEdge
    (ha : a < g.size)
    (hb : b < g.size) :
    Rewires g (g.addEdge a b) (·.add a b) fun e => e := by
  unfold addEdge
  split
  · next hknown => exact ⟨.refl g, (if_pos hknown).symm, rfl⟩
  · next hnew =>
      have hfirst := g.rewires_succs a (· ++ [b]) (.inl ha)
      have hboth := hfirst.trans
        (rewires_preds _ b (· ++ [a]) (.inl (hfirst.size_eq ▸ hb)))
      exact ⟨hboth.toSameNodes, hboth.normal_eq.trans (if_neg hnew).symm, hboth.exceptional_eq⟩

theorem rewires_addHandlerEdge
    (ha : a < g.size)
    (hb : b < g.size) :
    Rewires g (g.addHandlerEdge a b) (fun e => e) (·.add a b) := by
  unfold addHandlerEdge
  split
  · next hknown => exact ⟨.refl g, rfl, (if_pos hknown).symm⟩
  · next hnew =>
      have hfirst := g.rewires_handlerSuccs a (· ++ [b]) (.inl ha)
      have hboth := hfirst.trans
        (rewires_handlerPreds _ b (· ++ [a]) (.inl (hfirst.size_eq ▸ hb)))
      exact ⟨hboth.toSameNodes, hboth.normal_eq, hboth.exceptional_eq.trans (if_neg hnew).symm⟩

theorem rewires_removeEdge
    (g : FlowGraph)
    (a b : NodeId) :
    Rewires g (g.removeEdge a b) (fun e => (e.dropTarget a b).dropSource a b) fun e => e :=
  (g.rewires_dropSucc a b).trans (rewires_dropPred _ a b)

theorem rewires_clearSuccs
    (g : FlowGraph)
    (id : NodeId) :
    Rewires g (g.clearSuccs id) (·.clearTargets id) fun e => e := by
  have hfirst := g.rewires_succs id (fun _ => []) (.inr rfl)
  have hboth := hfirst.trans (.foldl (g.succs id) fun g' _ x _ => g'.rewires_dropPred id x)
  exact ⟨hboth.toSameNodes, hboth.normal_eq, hboth.exceptional_eq.trans (List.foldl_fixed ..)⟩

theorem rewires_clearPreds
    (g : FlowGraph)
    (id : NodeId) :
    Rewires g (g.clearPreds id) (·.clearSources id) fun e => e := by
  have hfirst := g.rewires_preds id (fun _ => []) (.inr rfl)
  have hboth := hfirst.trans (.foldl (g.preds id) fun g' _ x _ => g'.rewires_dropSucc x id)
  exact ⟨hboth.toSameNodes, hboth.normal_eq, hboth.exceptional_eq.trans (List.foldl_fixed ..)⟩

theorem rewires_clearHandlerSuccs
    (g : FlowGraph)
    (id : NodeId) :
    Rewires g (g.clearHandlerSuccs id) (fun e => e) (·.clearTargets id) := by
  have hfirst := g.rewires_handlerSuccs id (fun _ => []) (.inr rfl)
  have hboth := hfirst.trans
    (.foldl (g.handlerSuccs id) fun g' _ x _ => g'.rewires_dropHandlerPred id x)
  exact ⟨hboth.toSameNodes, hboth.normal_eq.trans (List.foldl_fixed ..), hboth.exceptional_eq⟩

theorem rewires_clearHandlerPreds
    (g : FlowGraph)
    (id : NodeId) :
    Rewires g (g.clearHandlerPreds id) (fun e => e) (·.clearSources id) := by
  have hfirst := g.rewires_handlerPreds id (fun _ => []) (.inr rfl)
  have hboth := hfirst.trans
    (.foldl (g.handlerPreds id) fun g' _ x _ => g'.rewires_dropHandlerSucc x id)
  exact ⟨hboth.toSameNodes, hboth.normal_eq.trans (List.foldl_fixed ..), hboth.exceptional_eq⟩

/-- All edges at a node are cut. -/
theorem rewires_cut
    (g : FlowGraph)
    (id : NodeId) :
    Rewires g ((((g.clearSuccs id).clearPreds id).clearHandlerSuccs id).clearHandlerPreds id)
      (fun e => (e.clearTargets id).clearSources id)
      fun e => (e.clearTargets id).clearSources id :=
  (((g.rewires_clearSuccs id).trans (rewires_clearPreds _ id)).trans
    (rewires_clearHandlerSuccs _ id)).trans (rewires_clearHandlerPreds _ id)

/-- The first half of `moveIncoming`. -/
theorem rewires_moveIncoming_normal
    (old new : NodeId)
    (hknown : new < g.size) :
    Rewires g
      ((g.preds old).foldl (moveIncomingFrom old new)
        (g.modifySlot old fun slot => { slot with preds := [] }))
      (·.substitute old new) fun e => e := by
  have hboth := (g.rewires_preds old (fun _ => []) (.inr rfl)).trans
    (.foldl (g.preds old) fun g' hsame x _ =>
      (g'.rewires_succs x (substitute old new) (.inr rfl)).trans
        (rewires_preds _ new (OrderedSet.insert · x) (.inl (by simp [hsame.size_eq, hknown]))))
  exact ⟨hboth.toSameNodes, hboth.normal_eq, hboth.exceptional_eq.trans (List.foldl_fixed ..)⟩

/-- The second half of `moveIncoming`. -/
theorem rewires_moveIncoming_handlers
    (old new : NodeId)
    (hknown : new < g.size)
    (hsources : ∀ a ∈ g.handlerPreds old, a < g.size) :
    Rewires g
      ((g.handlerPreds old).foldl
        (fun g pred => (g.dropHandlerSucc pred old).addHandlerEdge pred new)
        (g.modifySlot old fun slot => { slot with handlerPreds := [] }))
      (fun e => e) (·.readdress old new) := by
  have hboth := (g.rewires_handlerPreds old (fun _ => []) (.inr rfl)).trans
    (.foldl (g.handlerPreds old) fun g' hsame x hmem =>
      (g'.rewires_dropHandlerSucc x old).trans (rewires_addHandlerEdge (a := x) (b := new)
        (by simpa [(g'.rewires_dropHandlerSucc x old).size_eq, hsame.size_eq] using hsources x hmem)
        (by simpa [(g'.rewires_dropHandlerSucc x old).size_eq, hsame.size_eq] using hknown)))
  exact ⟨hboth.toSameNodes, hboth.normal_eq.trans (List.foldl_fixed ..), hboth.exceptional_eq⟩

/-- The first half of `moveOutgoing`. -/
theorem rewires_moveOutgoing_normal
    (old new : NodeId)
    (hknown : new < g.size)
    (htargets : ∀ b ∈ g.succs old, b < g.size) :
    Rewires g
      ((g.succs old).foldl
        (fun g succ => (g.dropPred old succ).addEdge new (if succ = old then new else succ))
        (g.modifySlot old fun slot => { slot with succs := [] }))
      (·.transfer old new (Edges.replacing old new)) fun e => e := by
  have hboth := (g.rewires_succs old (fun _ => []) (.inr rfl)).trans
    (.foldl (g.succs old) fun g' hsame x hmem =>
      (g'.rewires_dropPred old x).trans (rewires_addEdge (a := new)
        (b := if x = old then new else x)
        (by simpa [(g'.rewires_dropPred old x).size_eq, hsame.size_eq] using hknown)
        (by
          rw [(g'.rewires_dropPred old x).size_eq, hsame.size_eq, size_modifySlot]
          split
          · exact hknown
          · exact htargets x hmem)))
  exact ⟨hboth.toSameNodes, hboth.normal_eq, hboth.exceptional_eq.trans (List.foldl_fixed ..)⟩

/-- The second half of `moveOutgoing`. -/
theorem rewires_moveOutgoing_handlers
    (old new : NodeId)
    (hknown : new < g.size)
    (htargets : ∀ b ∈ g.handlerSuccs old, b < g.size) :
    Rewires g
      ((g.handlerSuccs old).foldl
        (fun g handler => (g.dropHandlerPred old handler).addHandlerEdge new handler)
        (g.modifySlot old fun slot => { slot with handlerSuccs := [] }))
      (fun e => e) (·.transfer old new fun b => b) := by
  have hboth := (g.rewires_handlerSuccs old (fun _ => []) (.inr rfl)).trans
    (.foldl (g.handlerSuccs old) fun g' hsame x hmem =>
      (g'.rewires_dropHandlerPred old x).trans (rewires_addHandlerEdge (a := new) (b := x)
        (by simpa [(g'.rewires_dropHandlerPred old x).size_eq, hsame.size_eq] using hknown)
        (by simpa [(g'.rewires_dropHandlerPred old x).size_eq,
          hsame.size_eq] using htargets x hmem)))
  exact ⟨hboth.toSameNodes, hboth.normal_eq.trans (List.foldl_fixed ..), hboth.exceptional_eq⟩

theorem rewires_moveIncoming
    (old new : NodeId)
    (hknown : new < g.size)
    (hsources : ∀ a ∈ g.handlerPreds old, a < g.size) :
    Rewires g (g.moveIncoming old new) (·.substitute old new) (·.readdress old new) := by
  have hfirst := rewires_moveIncoming_normal old new hknown
  have hsame : handlerPreds _ = g.handlerPreds := congrArg Edges.sources hfirst.exceptional_eq
  exact hfirst.trans (rewires_moveIncoming_handlers old new (hfirst.size_eq ▸ hknown)
    (by rw [hsame, hfirst.size_eq]; exact hsources))

theorem rewires_moveOutgoing
    (old new : NodeId)
    (hknown : new < g.size)
    (htargets : ∀ b ∈ g.flowSuccs old, b < g.size) :
    Rewires g (g.moveOutgoing old new) (·.transfer old new (Edges.replacing old new))
      (·.transfer old new fun b => b) := by
  have hfirst := rewires_moveOutgoing_normal old new hknown
    fun b hmem => htargets b (List.mem_append_left _ hmem)
  have hsame : handlerSuccs _ = g.handlerSuccs := congrArg Edges.targets hfirst.exceptional_eq
  refine hfirst.trans
    (rewires_moveOutgoing_handlers old new (hfirst.size_eq ▸ hknown) fun b hmem => ?_)
  rw [hsame] at hmem
  exact hfirst.size_eq ▸ htargets b (List.mem_append_right _ hmem)

end Edits

section Contents

variable (g : FlowGraph) (id old new n : NodeId) (f : Node → Node) (added : Node)

@[simp] theorem normal_modifyNode :
    (g.modifyNode id f).normal = g.normal :=
  (g.edges_modifySlot_same id (f := fun slot => { slot with node := f slot.node })
    fun _ => ⟨rfl, rfl, rfl, rfl⟩).1

@[simp] theorem exceptional_modifyNode :
    (g.modifyNode id f).exceptional = g.exceptional :=
  (g.edges_modifySlot_same id (f := fun slot => { slot with node := f slot.node })
    fun _ => ⟨rfl, rfl, rfl, rfl⟩).2

@[simp] theorem isLive_modifyNode :
    (g.modifyNode id f).isLive n = g.isLive n := by
  rw [isLive_eq_slotAt, isLive_eq_slotAt]
  exact slotAt_modifySlot_same g Slot.live fun _ => rfl

@[simp] theorem size_retarget :
    (g.retarget old new).size = g.size :=
  Array.size_map ..

@[simp] theorem entry_retarget :
    (g.retarget old new).entry = Edges.replacing old new g.entry :=
  rfl

/-- A field of the slots of a graph in which references have been changed. -/
theorem slots_retarget
    {α : Type}
    (field : Slot → α)
    (hsame : ∀ s node, field { s with node := node } = field s) :
    (g.retarget old new).slots[n]?.map field = g.slots[n]?.map field := by
  unfold retarget
  rw [Array.getElem?_map, Option.map_map]
  refine congrArg (fun f => Option.map f _) (funext fun s => ?_)
  rw [Function.comp_apply]
  split
  · exact hsame s _
  · rfl

@[simp] theorem normal_retarget :
    (g.retarget old new).normal = g.normal := by
  unfold normal
  congr 1 <;> funext n
  · exact congrArg (·.getD []) (g.slots_retarget old new n Slot.succs fun _ _ => rfl)
  · exact congrArg (·.getD []) (g.slots_retarget old new n Slot.preds fun _ _ => rfl)

@[simp] theorem exceptional_retarget :
    (g.retarget old new).exceptional = g.exceptional := by
  unfold exceptional
  congr 1 <;> funext n
  · exact congrArg (·.getD []) (g.slots_retarget old new n Slot.handlerSuccs fun _ _ => rfl)
  · exact congrArg (·.getD []) (g.slots_retarget old new n Slot.handlerPreds fun _ _ => rfl)

@[simp] theorem isLive_retarget :
    (g.retarget old new).isLive n = g.isLive n := by
  have h := g.slots_retarget old new n Slot.live fun _ _ => rfl
  have hany (o : Option Slot) : o.any Slot.live = (o.map Slot.live).any fun b => b := by
    cases o <;> rfl
  rw [isLive, isLive, hany, hany, h]

theorem node_retarget
    (hlive : g.isLive n = true) :
    (g.retarget old new).node n = (g.node n).retarget old new := by
  unfold isLive at hlive
  unfold node retarget
  rw [Array.getElem?_map]
  cases hslot : g.slots[n]? with
  | none => simp [hslot] at hlive
  | some s =>
      rw [hslot] at hlive
      simp only [Option.map_some, Option.getD_some]
      rw [if_pos (by simpa using hlive)]

theorem node_retarget_of_not_live
    (hdead : g.isLive n = false) :
    (g.retarget old new).node n = g.node n := by
  unfold isLive at hdead
  unfold node retarget
  rw [Array.getElem?_map]
  cases hslot : g.slots[n]? with
  | none => rfl
  | some s =>
      rw [hslot] at hdead
      simp only [Option.map_some, Option.getD_some]
      rw [if_neg (by simpa using hdead)]

@[simp] theorem fst_addNode :
    (g.addNode added).1 = g.size :=
  rfl

@[simp] theorem size_addNode :
    (g.addNode added).2.size = g.size + 1 :=
  Array.size_push ..

theorem slots_addNode :
    (g.addNode added).2.slots[n]? =
      if n = g.size then
        some
          { node := added
            live := true
            succs := []
            preds := []
            handlerSuccs := []
            handlerPreds := [] }
      else
        g.slots[n]? :=
  Array.getElem?_push

theorem node_addNode :
    (g.addNode added).2.node n = if n = g.size then added else g.node n := by
  rw [node, slots_addNode]
  split <;> rfl

theorem isLive_addNode :
    (g.addNode added).2.isLive n = (n == g.size || g.isLive n) := by
  rw [isLive, slots_addNode]
  split
  · next here => simp [here]
  · next hother => simp [hother, isLive]

@[simp] theorem normal_addNode :
    (g.addNode added).2.normal = g.normal := by
  unfold normal succs preds
  congr 1 <;> funext n <;> rw [slots_addNode]
  all_goals
    split
    · next here => simp [here, size]
    · rfl

@[simp] theorem exceptional_addNode :
    (g.addNode added).2.exceptional = g.exceptional := by
  unfold exceptional handlerSuccs handlerPreds
  congr 1 <;> funext n <;> rw [slots_addNode]
  all_goals
    split
    · next here => simp [here, size]
    · rfl

/-- What removing a node does: it is not part of the graph, and no edge is. -/
structure Removes (g g' : FlowGraph) (id : NodeId) : Prop where
  size_eq : g'.size = g.size
  entry_eq : g'.entry = g.entry
  node_eq : ∀ n, g'.node n = g.node n
  isLive_eq : ∀ n, g'.isLive n = (n != id && g.isLive n)
  normal_eq : g'.normal = (g.normal.clearTargets id).clearSources id
  exceptional_eq : g'.exceptional = (g.exceptional.clearTargets id).clearSources id

@[simp] theorem succs_modifyNode :
    (g.modifyNode id f).succs n = g.succs n :=
  congrFun (congrArg Edges.targets (g.normal_modifyNode id f)) n

@[simp] theorem handlerSuccs_modifyNode :
    (g.modifyNode id f).handlerSuccs n = g.handlerSuccs n :=
  congrFun (congrArg Edges.targets (g.exceptional_modifyNode id f)) n

@[simp] theorem succs_retarget :
    (g.retarget old new).succs n = g.succs n :=
  congrFun (congrArg Edges.targets (g.normal_retarget old new)) n

@[simp] theorem handlerSuccs_retarget :
    (g.retarget old new).handlerSuccs n = g.handlerSuccs n :=
  congrFun (congrArg Edges.targets (g.exceptional_retarget old new)) n

@[simp] theorem succs_addNode :
    (g.addNode added).2.succs n = g.succs n :=
  congrFun (congrArg Edges.targets (g.normal_addNode added)) n

@[simp] theorem handlerSuccs_addNode :
    (g.addNode added).2.handlerSuccs n = g.handlerSuccs n :=
  congrFun (congrArg Edges.targets (g.exceptional_addNode added)) n

variable {g id}

/-- Order, index and exit follow a removed node, but nothing here reads them. -/
theorem Removes.of_slots
    {g' g'' : FlowGraph}
    (h : Removes g g' id)
    (hslots : g''.slots = g'.slots)
    (hentry : g''.entry = g'.entry) :
    Removes g g'' id := by
  obtain ⟨_, _, _, _, _⟩ := g'
  obtain ⟨_, _, _, _, _⟩ := g''
  obtain rfl : _ = _ := hslots
  obtain rfl : _ = _ := hentry
  exact ⟨h.size_eq, h.entry_eq, h.node_eq, h.isLive_eq, h.normal_eq, h.exceptional_eq⟩

/-- A node whose edges are cut and that is left vacant. -/
theorem Rewires.removes
    {g' : FlowGraph}
    (h : Rewires g g' (fun e => (e.clearTargets id).clearSources id)
      fun e => (e.clearTargets id).clearSources id) :
    Removes g (g'.modifySlot id fun slot => { slot with live := false }) id where
  size_eq := (size_modifySlot ..).trans h.size_eq
  entry_eq := h.entry_eq
  node_eq n := by
    rw [← h.node_eq n, node_eq_slotAt, node_eq_slotAt]
    exact slotAt_modifySlot_same g' Slot.node fun _ => rfl
  isLive_eq n := by
    rw [← h.isLive_eq n, isLive_eq_slotAt, isLive_eq_slotAt,
      slotAt_modifySlot g' Slot.live (fun _ => false) (fun _ => rfl) (.inr rfl)]
    split
    · next here => simp [here]
    · next hother => simp [hother]
  normal_eq := ((g'.edges_modifySlot_same id (f := fun slot => { slot with live := false })
    fun _ => ⟨rfl, rfl, rfl, rfl⟩).1).trans h.normal_eq
  exceptional_eq := ((g'.edges_modifySlot_same id (f := fun slot => { slot with live := false })
    fun _ => ⟨rfl, rfl, rfl, rfl⟩).2).trans h.exceptional_eq

theorem removes_removeNode
    (g : FlowGraph)
    (id : NodeId) :
    Removes g (g.removeNode id) id := by
  have hcut := g.rewires_cut id
  unfold removeNode
  generalize (((g.clearSuccs id).clearPreds id).clearHandlerSuccs id).clearHandlerPreds
    id = g' at hcut
  exact hcut.removes.of_slots rfl rfl

end Contents

section Wires

variable {g g' : FlowGraph} {a b id old new n : NodeId}

theorem Wired.nodup_succs
    (h : g.Wired)
    (a : NodeId) :
    (g.succs a).Nodup :=
  h.normal.nodup a

theorem Wired.nodup_handlerSuccs
    (h : g.Wired)
    (a : NodeId) :
    (g.handlerSuccs a).Nodup :=
  h.exceptional.nodup a

theorem Wired.mem_preds
    (h : g.Wired) :
    a ∈ g.preds b ↔ b ∈ g.succs a :=
  h.normal.mem_sources a b

theorem Wired.mem_handlerPreds
    (h : g.Wired) :
    a ∈ g.handlerPreds b ↔ b ∈ g.handlerSuccs a :=
  h.exceptional.mem_sources a b

theorem Wired.lt_of_succs
    (h : g.Wired)
    (hmem : b ∈ g.succs a) :
    a < g.size ∧ b < g.size :=
  (h.live a b (.inl hmem)).imp lt_size_of_isLive lt_size_of_isLive

theorem Wired.lt_of_handlerSuccs
    (h : g.Wired)
    (hmem : b ∈ g.handlerSuccs a) :
    a < g.size ∧ b < g.size :=
  (h.live a b (.inr hmem)).imp lt_size_of_isLive lt_size_of_isLive

theorem Wired.live_of_flow
    (h : g.Wired)
    (hmem : b ∈ g.flowSuccs a) :
    g.isLive a = true ∧ g.isLive b = true :=
  h.live a b (List.mem_append.1 hmem)

theorem Wired.live_of_reachable
    (h : g.Wired)
    (hentry : g.isLive g.entry = true)
    (hreached : g.toDigraph.Reachable g.entry a) :
    g.isLive a = true := by
  obtain ⟨nodes, w⟩ := hreached
  cases w with
  | here => exact hentry
  | step w hedge => exact (h.live_of_flow hedge).2

theorem Wired.succs_of_not_live
    (h : g.Wired)
    (hdead : g.isLive a = false) :
    g.succs a = [] :=
  List.eq_nil_iff_forall_not_mem.2 fun b hmem => by
    simp [(h.live a b (.inl hmem)).1] at hdead

theorem Wired.handlerSuccs_of_not_live
    (h : g.Wired)
    (hdead : g.isLive a = false) :
    g.handlerSuccs a = [] :=
  List.eq_nil_iff_forall_not_mem.2 fun b hmem => by
    simp [(h.live a b (.inr hmem)).1] at hdead

theorem lt_size_of_mem_flowSuccs
    (hedge : b ∈ g.flowSuccs a) :
    a < g.size := by
  by_contra hbeyond
  simp [flowSuccs, succs, handlerSuccs, Array.getElem?_eq_none (Nat.not_lt.1 hbeyond)] at hedge

/-- Ways lead through slots, so each node of the graph that can be reached is visited. -/
theorem mem_postOrder
    (hreached : g.toDigraph.Reachable g.entry a)
    (hlive : g.isLive a = true) :
    a ∈ g.postOrder := by
  obtain ⟨nodes, hwalk⟩ := hreached
  refine (Digraph.mem_postorder_iff_walk g.toDigraph g.entry a).2 ⟨nodes, hwalk, ?_⟩
  have hknown : a < g.size := lt_size_of_isLive hlive
  clear hlive
  induction hwalk with
  | here => exact fun n hmem => List.mem_singleton.1 hmem ▸ hknown
  | step _ hedge ih =>
      intro n hmem
      rcases List.mem_append.1 hmem with hbefore | hlast
      · exact ih (lt_size_of_mem_flowSuccs hedge) n hbefore
      · exact List.mem_singleton.1 hlast ▸ hknown

/-- The edges of both kinds taken together are known at both ends as well. -/
theorem Wired.wellFormed
    (h : g.Wired) :
    g.toDigraph.WellFormed where
  mem_preds a b := by
    simp only [toDigraph, flowPreds, flowSuccs, List.mem_append, h.mem_preds, h.mem_handlerPreds]
  source_lt a b hmem :=
    (List.mem_append.1 hmem).elim (fun hmem => (h.lt_of_succs hmem).1)
      fun hmem => (h.lt_of_handlerSuccs hmem).1
  target_lt a b hmem :=
    (List.mem_append.1 hmem).elim (fun hmem => (h.lt_of_succs hmem).2)
      fun hmem => (h.lt_of_handlerSuccs hmem).2

/-- The edges can be checked node by node. -/
theorem wired_iff :
    g.Wired ↔ ∀ n < g.size,
      (g.succs n).Nodup ∧ (g.handlerSuccs n).Nodup ∧
      (∀ b ∈ g.succs n, g.isLive n = true ∧ g.isLive b = true ∧ n ∈ g.preds b) ∧
      (∀ b ∈ g.handlerSuccs n, g.isLive n = true ∧ g.isLive b = true ∧ n ∈ g.handlerPreds b) ∧
      (∀ a ∈ g.preds n, n ∈ g.succs a) ∧ ∀ a ∈ g.handlerPreds n, n ∈ g.handlerSuccs a := by
  constructor
  · intro h n _
    refine ⟨h.nodup_succs n, h.nodup_handlerSuccs n, fun b hmem => ?_, fun b hmem => ?_,
      fun a hmem => h.mem_preds.1 hmem, fun a hmem => h.mem_handlerPreds.1 hmem⟩
    · exact ⟨(h.live n b (.inl hmem)).1, (h.live n b (.inl hmem)).2, h.mem_preds.2 hmem⟩
    · exact ⟨(h.live n b (.inr hmem)).1, (h.live n b (.inr hmem)).2, h.mem_handlerPreds.2 hmem⟩
  · intro hchecks
    have hblank (n : NodeId) (hunknown : ¬ n < g.size) : g.succs n = [] ∧ g.preds n = [] ∧
        g.handlerSuccs n = [] ∧ g.handlerPreds n = [] := by
      have hnone : g.slots[n]? = none := Array.getElem?_eq_none (Nat.le_of_not_lt hunknown)
      simp [succs, preds, handlerSuccs, handlerPreds, hnone]
    have hcheck (n : NodeId) :
        (g.succs n).Nodup ∧ (g.handlerSuccs n).Nodup ∧
        (∀ b ∈ g.succs n, g.isLive n = true ∧ g.isLive b = true ∧ n ∈ g.preds b) ∧
        (∀ b ∈ g.handlerSuccs n, g.isLive n = true ∧ g.isLive b = true ∧ n ∈ g.handlerPreds b) ∧
        (∀ a ∈ g.preds n, n ∈ g.succs a) ∧ ∀ a ∈ g.handlerPreds n, n ∈ g.handlerSuccs a := by
      by_cases hknown : n < g.size
      · exact hchecks n hknown
      · obtain ⟨h₁, h₂, h₃, h₄⟩ := hblank n hknown
        simp [h₁, h₂, h₃, h₄]
    refine ⟨⟨fun a b => ⟨fun hmem => ?_, fun hmem => ?_⟩, fun a => (hcheck a).1⟩,
      ⟨fun a b => ⟨fun hmem => ?_, fun hmem => ?_⟩, fun a => (hcheck a).2.1⟩, fun a b hmem => ?_⟩
    · exact (hcheck b).2.2.2.2.1 a hmem
    · exact ((hcheck a).2.2.1 b hmem).2.2
    · exact (hcheck b).2.2.2.2.2 a hmem
    · exact ((hcheck a).2.2.2.1 b hmem).2.2
    · obtain hmem | hmem := hmem
      · exact ⟨((hcheck a).2.2.1 b hmem).1, ((hcheck a).2.2.1 b hmem).2.1⟩
      · exact ⟨((hcheck a).2.2.2.1 b hmem).1, ((hcheck a).2.2.2.1 b hmem).2.1⟩

instance (g : FlowGraph) : Decidable g.Wired :=
  decidable_of_iff _ wired_iff.symm

/-- A graph with the same edges, whose nodes are still there. -/
theorem Wired.of_edges
    (h : g.Wired)
    (hnormal : g'.normal = g.normal)
    (hexceptional : g'.exceptional = g.exceptional)
    (hlive : ∀ n, g.isLive n = true → g'.isLive n = true) :
    g'.Wired where
  normal := hnormal ▸ h.normal
  exceptional := hexceptional ▸ h.exceptional
  live a b hmem := by
    have hsuccs : g'.succs = g.succs := congrArg Edges.targets hnormal
    have handlerSuccs : g'.handlerSuccs = g.handlerSuccs := congrArg Edges.targets hexceptional
    rw [hsuccs, handlerSuccs] at hmem
    exact (h.live a b hmem).imp (hlive a) (hlive b)

theorem Wired.reindex
    (h : g.Wired) :
    g.reindex.Wired :=
  h.of_edges rfl rfl fun _ hlive => hlive

theorem Wired.modifyNode
    (h : g.Wired)
    (id : NodeId)
    (f : Node → Node) :
    (g.modifyNode id f).Wired :=
  h.of_edges (by simp) (by simp) (by simp)

theorem Wired.retarget
    (h : g.Wired)
    (old new : NodeId) :
    (g.retarget old new).Wired :=
  h.of_edges (by simp) (by simp) (by simp)

theorem Wired.addNode
    (h : g.Wired)
    (added : Node) :
    (g.addNode added).2.Wired :=
  h.of_edges (by simp) (by simp) fun n hlive => by simp [isLive_addNode, hlive]

/-- The edges into a node lead to another one. -/
theorem Wired.moveIncoming
    (h : g.Wired)
    (hlive : g.isLive new = true)
    (hapart : new ≠ old) :
    (g.moveIncoming old new).Wired ∧ SameNodes g (g.moveIncoming old new) ∧
      (∀ n, (g.moveIncoming old new).succs n = substitute old new (g.succs n)) ∧
      ∀ n, (g.moveIncoming old new).handlerSuccs n =
        if old ∈ g.handlerSuccs n then OrderedSet.insert (erase (g.handlerSuccs n) old) new
        else g.handlerSuccs n := by
  have hmoves := rewires_moveIncoming old new (lt_size_of_isLive hlive) fun a hmem =>
    (h.lt_of_handlerSuccs (h.mem_handlerPreds.1 hmem)).1
  obtain ⟨hpaired, htargets⟩ := h.normal.substitute hapart
  obtain ⟨hpaired', htargets'⟩ := h.exceptional.readdress hapart
  have hsuccs (n : NodeId) : (g.moveIncoming old new).succs n = substitute old new (g.succs n) :=
    (congrFun (congrArg Edges.targets hmoves.normal_eq) n).trans (htargets n)
  have handlers (n : NodeId) : (g.moveIncoming old new).handlerSuccs n =
      if old ∈ g.handlerSuccs n then OrderedSet.insert (erase (g.handlerSuccs n) old) new
      else g.handlerSuccs n :=
    (congrFun (congrArg Edges.targets hmoves.exceptional_eq) n).trans (htargets' n)
  refine ⟨⟨hmoves.normal_eq ▸ hpaired, hmoves.exceptional_eq ▸ hpaired', fun a b hmem => ?_⟩,
    hmoves.toSameNodes, hsuccs, handlers⟩
  rw [hmoves.isLive_eq, hmoves.isLive_eq]
  rw [hsuccs, handlers, Edges.mem_substitute hapart (h.nodup_succs a)] at hmem
  rcases hmem with (⟨hmem, -⟩ | ⟨rfl, hmem⟩) | hmem
  · exact h.live a b (.inl hmem)
  · exact ⟨(h.live a old (.inl hmem)).1, hlive⟩
  · split at hmem
    · next hthere =>
        rw [OrderedSet.mem_insert, mem_erase] at hmem
        rcases hmem with ⟨hmem, -⟩ | rfl
        · exact h.live a b (.inr hmem)
        · exact ⟨(h.live a old (.inr hthere)).1, hlive⟩
    · exact h.live a b (.inr hmem)

/-- The edges out of a node start at another one. -/
theorem Wired.moveOutgoing
    (h : g.Wired)
    (hlive : g.isLive new = true)
    (hapart : new ≠ old) :
    (g.moveOutgoing old new).Wired ∧ SameNodes g (g.moveOutgoing old new) ∧
      (∀ n, (g.moveOutgoing old new).succs n =
        if n = old then []
        else if n = new then
          insertAll (g.succs n) ((g.succs old).map (Edges.replacing old new))
        else g.succs n) ∧
      ∀ n, (g.moveOutgoing old new).handlerSuccs n =
        if n = old then []
        else if n = new then insertAll (g.handlerSuccs n) (g.handlerSuccs old)
        else g.handlerSuccs n := by
  have hmoves := rewires_moveOutgoing old new (lt_size_of_isLive hlive) fun b hmem =>
    (List.mem_append.1 hmem).elim (fun hmem => (h.lt_of_succs hmem).2)
      fun hmem => (h.lt_of_handlerSuccs hmem).2
  obtain ⟨hpaired, htargets⟩ := h.normal.transfer hapart (Edges.replacing old new)
  obtain ⟨hpaired', htargets'⟩ := h.exceptional.transfer hapart fun b => b
  simp only [List.map_id'] at htargets'
  have hsuccs (n : NodeId) : (g.moveOutgoing old new).succs n =
      if n = old then []
      else if n = new then insertAll (g.succs n) ((g.succs old).map (Edges.replacing old new))
      else g.succs n :=
    (congrFun (congrArg Edges.targets hmoves.normal_eq) n).trans (htargets n)
  have handlers (n : NodeId) : (g.moveOutgoing old new).handlerSuccs n =
      if n = old then []
      else if n = new then insertAll (g.handlerSuccs n) (g.handlerSuccs old)
      else g.handlerSuccs n :=
    (congrFun (congrArg Edges.targets hmoves.exceptional_eq) n).trans (htargets' n)
  refine ⟨⟨hmoves.normal_eq ▸ hpaired, hmoves.exceptional_eq ▸ hpaired', fun a b hmem => ?_⟩,
    hmoves.toSameNodes, hsuccs, handlers⟩
  rw [hmoves.isLive_eq, hmoves.isLive_eq]
  rw [hsuccs, handlers] at hmem
  by_cases hsource : a = new
  · subst hsource
    rw [if_neg hapart, if_pos rfl, if_neg hapart, if_pos rfl, mem_insertAll, mem_insertAll] at hmem
    rcases hmem with (hmem | hmem) | hmem | hmem
    · exact h.live a b (.inl hmem)
    · obtain ⟨c, hedge, rfl⟩ := List.mem_map.1 hmem
      refine ⟨hlive, ?_⟩
      unfold Edges.replacing
      split
      · exact hlive
      · exact (h.live old c (.inl hedge)).2
    · exact h.live a b (.inr hmem)
    · exact ⟨hlive, (h.live old b (.inr hmem)).2⟩
  · simp only [if_neg hsource] at hmem
    split at hmem
    · simp at hmem
    · exact h.live a b hmem

/-- A node is taken out of the graph. -/
theorem Removes.wired
    (hremoves : Removes g g' id)
    (h : g.Wired) :
    g'.Wired ∧
      (∀ n, g'.succs n = if n = id then [] else erase (g.succs n) id) ∧
      ∀ n, g'.handlerSuccs n = if n = id then [] else erase (g.handlerSuccs n) id := by
  obtain ⟨hpaired, htargets⟩ := h.normal.cut id
  obtain ⟨hpaired', htargets'⟩ := h.exceptional.cut id
  have hsuccs (n : NodeId) : g'.succs n = if n = id then [] else erase (g.succs n) id :=
    (congrFun (congrArg Edges.targets hremoves.normal_eq) n).trans (htargets n)
  have handlers (n : NodeId) :
      g'.handlerSuccs n = if n = id then [] else erase (g.handlerSuccs n) id :=
    (congrFun (congrArg Edges.targets hremoves.exceptional_eq) n).trans (htargets' n)
  refine ⟨⟨hremoves.normal_eq ▸ hpaired, hremoves.exceptional_eq ▸ hpaired', fun a b hmem => ?_⟩,
    hsuccs, handlers⟩
  rw [hremoves.isLive_eq, hremoves.isLive_eq]
  rw [hsuccs, handlers] at hmem
  split at hmem
  · simp at hmem
  · next hsource =>
      rw [mem_erase, mem_erase, ← or_and_right] at hmem
      have hlive := h.live a b hmem.1
      simp [hsource, hmem.2, hlive]

/-- A normal edge is removed. -/
theorem Wired.removeEdge
    (h : g.Wired)
    (a b : NodeId) :
    (g.removeEdge a b).Wired ∧ SameNodes g (g.removeEdge a b) ∧
      (∀ n, (g.removeEdge a b).succs n = if n = a then erase (g.succs n) b else g.succs n) ∧
      ∀ n, (g.removeEdge a b).handlerSuccs n = g.handlerSuccs n := by
  have hdrops := g.rewires_removeEdge a b
  obtain ⟨hpaired, htargets⟩ := h.normal.drop a b
  have hsuccs (n : NodeId) : (g.removeEdge a b).succs n =
      if n = a then erase (g.succs n) b else g.succs n :=
    (congrFun (congrArg Edges.targets hdrops.normal_eq) n).trans (htargets n)
  have handlers (n : NodeId) : (g.removeEdge a b).handlerSuccs n = g.handlerSuccs n :=
    congrFun (congrArg Edges.targets hdrops.exceptional_eq) n
  refine ⟨⟨hdrops.normal_eq ▸ hpaired, hdrops.exceptional_eq ▸ h.exceptional, fun x y hmem => ?_⟩,
    hdrops.toSameNodes, hsuccs, handlers⟩
  have hlive := h.live x y
  rw [hdrops.isLive_eq, hdrops.isLive_eq]
  rw [hsuccs, handlers] at hmem
  grind [mem_erase]

/-- A normal edge between nodes of the graph is added. -/
theorem Wired.addEdge
    (h : g.Wired)
    (ha : g.isLive a = true)
    (hb : g.isLive b = true) :
    (g.addEdge a b).Wired ∧ SameNodes g (g.addEdge a b) ∧
      (∀ n, (g.addEdge a b).succs n =
        if n = a then OrderedSet.insert (g.succs n) b else g.succs n) ∧
      ∀ n, (g.addEdge a b).handlerSuccs n = g.handlerSuccs n := by
  have hadds := rewires_addEdge (lt_size_of_isLive ha) (lt_size_of_isLive hb)
  have hsuccs (n : NodeId) : (g.addEdge a b).succs n =
      if n = a then OrderedSet.insert (g.succs n) b else g.succs n :=
    (congrFun (congrArg Edges.targets hadds.normal_eq) n).trans Edges.targets_add
  have handlers (n : NodeId) : (g.addEdge a b).handlerSuccs n = g.handlerSuccs n :=
    congrFun (congrArg Edges.targets hadds.exceptional_eq) n
  refine ⟨⟨hadds.normal_eq ▸ h.normal.add a b, hadds.exceptional_eq ▸ h.exceptional,
    fun x y hmem => ?_⟩, hadds.toSameNodes, hsuccs, handlers⟩
  have hlive := h.live x y
  rw [hadds.isLive_eq, hadds.isLive_eq]
  rw [hsuccs, handlers] at hmem
  grind [OrderedSet.mem_insert]

/-- Exception edges from one node of the graph are added. -/
theorem Wired.addHandlerEdges
    {handlers : List NodeId}
    (h : g.Wired)
    (ha : g.isLive a = true)
    (hb : ∀ b ∈ handlers, g.isLive b = true) :
    (handlers.foldl (fun g b => g.addHandlerEdge a b) g).Wired ∧
      SameNodes g (handlers.foldl (fun g b => g.addHandlerEdge a b) g) ∧
      (∀ n, (handlers.foldl (fun g b => g.addHandlerEdge a b) g).succs n = g.succs n) ∧
      ∀ n, (handlers.foldl (fun g b => g.addHandlerEdge a b) g).handlerSuccs n =
        if n = a then insertAll (g.handlerSuccs n) handlers else g.handlerSuccs n := by
  induction handlers generalizing g with
  | nil => exact ⟨h, .refl g, fun _ => rfl, fun _ => (ite_self _).symm⟩
  | cons b handlers ih =>
      have hlive := hb b List.mem_cons_self
      have hadds := rewires_addHandlerEdge (lt_size_of_isLive ha) (lt_size_of_isLive hlive)
      have hsuccs (n : NodeId) : (g.addHandlerEdge a b).succs n = g.succs n :=
        congrFun (congrArg Edges.targets hadds.normal_eq) n
      have hfirst (n : NodeId) : (g.addHandlerEdge a b).handlerSuccs n =
          if n = a then OrderedSet.insert (g.handlerSuccs n) b else g.handlerSuccs n :=
        (congrFun (congrArg Edges.targets hadds.exceptional_eq) n).trans Edges.targets_add
      have hwired : (g.addHandlerEdge a b).Wired := by
        refine ⟨hadds.normal_eq ▸ h.normal, hadds.exceptional_eq ▸ h.exceptional.add a b,
          fun x y hmem => ?_⟩
        have hknown := h.live x y
        rw [hadds.isLive_eq, hadds.isLive_eq]
        rw [hsuccs, hfirst] at hmem
        grind [OrderedSet.mem_insert]
      obtain ⟨hwired, hsame, hrest, hlast⟩ := ih hwired (hadds.isLive_eq a ▸ ha) fun c hmem =>
        hadds.isLive_eq c ▸ hb c (List.mem_cons_of_mem b hmem)
      refine ⟨hwired, hadds.toSameNodes.trans hsame, fun n =>
        (hrest n).trans (hsuccs n), fun n => ?_⟩
      rw [List.foldl_cons, hlast, hfirst]
      split <;> rfl

end Wires

end FlowGraph
end DalvikDecompiler
