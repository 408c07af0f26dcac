import DalvikDecompiler.Proofs.FlowGraph.Wiring

/-!
# Branches that go along edges

**Input.** A flow graph that keeps each edge at both of its ends.

A branch names its two targets, and edges lead to its successors.  In a guided graph the targets are
among the successors.  Numbering nodes, changing their instructions and recording what structuring
has found leave edges and targets alone.

**Results.**
* `Guided`: both targets of a branch are successors of it.
* `Retouches`: only what nodes hold has changed, and each node as a given relation says.
* `Guided.retouch`: a graph stays guided if branches keep their targets.
-/

namespace DalvikDecompiler
namespace FlowGraph

/-- Edges are wired, and both targets of a branch are successors of it. -/
structure Guided (g : FlowGraph) : Prop where
  wired : g.Wired
  mem_succs : ∀ n b, g.isLive n = true → (g.node n).kind.targets? = some b →
    ∀ holds, b.toward holds ∈ g.succs n

/-- Nodes hold something else than before, as a relation says, and nothing else has changed. -/
structure Retouches (keeps : Node → Node → Prop) (g g' : FlowGraph) : Prop where
  entry_eq : g'.entry = g.entry
  slots_eq : ∀ n : NodeId,
    g'.slots[n]? = g.slots[n]?.map fun slot => { slot with node := g'.node n }
  kept : ∀ n, keeps (g.node n) (g'.node n)

section Retouching

variable {keeps keeps' : Node → Node → Prop} {g g' g'' : FlowGraph} {n : NodeId}

theorem node_eq_of_slots
    {slot : Slot}
    (hthere : g.slots[n]? = some slot) :
    g.node n = slot.node := by
  simp [node, hthere]

/-- The contents of all slots are changed. -/
theorem retouches_of_slots
    (f : NodeId → Node → Node)
    (hentry_eq : g'.entry = g.entry)
    (hslots_eq : ∀ n : NodeId,
      g'.slots[n]? = g.slots[n]?.map fun slot => { slot with node := f n slot.node })
    (hsame : ∀ node, keeps node node)
    (hkept : ∀ n node, keeps node (f n node)) :
    Retouches keeps g g' := by
  have hnode (n : NodeId) (slot : Slot) (hthere : g.slots[n]? = some slot) :
      g'.node n = f n slot.node :=
    node_eq_of_slots ((hslots_eq n).trans (by rw [hthere]; rfl))
  refine ⟨hentry_eq, fun n => ?_, fun n => ?_⟩
  · cases hthere : g.slots[n]? with
    | none => rw [hslots_eq, hthere]; rfl
    | some slot => rw [hnode n slot hthere, hslots_eq, hthere]; rfl
  · cases hthere : g.slots[n]? with
    | none =>
        have hblank : g.slots[n]?.map Slot.node = g'.slots[n]?.map Slot.node := by
          rw [hslots_eq, hthere]
          rfl
        rw [FlowGraph.node, FlowGraph.node, hblank]
        exact hsame _
    | some slot =>
        rw [hnode n slot hthere, node_eq_of_slots hthere]
        exact hkept n slot.node

theorem Retouches.refl
    (hsame : ∀ node, keeps node node)
    (g : FlowGraph) :
    Retouches keeps g g :=
  retouches_of_slots (fun _ node => node) rfl (fun n => by simp) hsame fun _ => hsame

theorem Retouches.trans
    (hthrough : ∀ a b c, keeps a b → keeps b c → keeps a c)
    (h : Retouches keeps g g')
    (h' : Retouches keeps g' g'') :
    Retouches keeps g g'' where
  entry_eq := h'.entry_eq.trans h.entry_eq
  slots_eq n := by
    rw [h'.slots_eq, h.slots_eq, Option.map_map]
    rfl
  kept n := hthrough _ _ _ (h.kept n) (h'.kept n)

theorem Retouches.mono
    (hweaker : ∀ a b, keeps a b → keeps' a b)
    (h : Retouches keeps g g') :
    Retouches keeps' g g' :=
  ⟨h.entry_eq, h.slots_eq, fun n => hweaker _ _ (h.kept n)⟩

theorem Retouches.toDigraph_eq
    (h : Retouches keeps g g') :
    g'.toDigraph = g.toDigraph :=
  toDigraph_eq_of_slots g (fun n _ => g'.node n) h.entry_eq h.slots_eq

/-- What is not held by nodes stays. -/
theorem Retouches.field_eq
    {α : Type}
    (h : Retouches keeps g g')
    (field : Slot → α)
    (hsame : ∀ slot node, field { slot with node := node } = field slot)
    (n : NodeId) :
    g'.slots[n]?.map field = g.slots[n]?.map field := by
  rw [h.slots_eq, Option.map_map]
  exact congrArg (Option.map · _) (funext fun slot => hsame slot _)

theorem Retouches.size_eq
    (h : Retouches keeps g g') :
    g'.size = g.size :=
  congrArg Digraph.size h.toDigraph_eq

theorem Retouches.isLive_eq
    (h : Retouches keeps g g')
    (n : NodeId) :
    g'.isLive n = g.isLive n := by
  have hany (o : Option Slot) : o.any Slot.live = (o.map Slot.live).any fun b => b := by
    cases o <;> rfl
  rw [isLive, isLive, hany, hany, h.field_eq Slot.live fun _ _ => rfl]

theorem Retouches.normal_eq
    (h : Retouches keeps g g') :
    g'.normal = g.normal := by
  unfold normal succs preds
  congr 1 <;> funext n
  · rw [h.field_eq Slot.succs fun _ _ => rfl]
  · rw [h.field_eq Slot.preds fun _ _ => rfl]

theorem Retouches.exceptional_eq
    (h : Retouches keeps g g') :
    g'.exceptional = g.exceptional := by
  unfold exceptional handlerSuccs handlerPreds
  congr 1 <;> funext n
  · rw [h.field_eq Slot.handlerSuccs fun _ _ => rfl]
  · rw [h.field_eq Slot.handlerPreds fun _ _ => rfl]

theorem Retouches.succs_eq
    (h : Retouches keeps g g')
    (n : NodeId) :
    g'.succs n = g.succs n :=
  congrFun (congrArg Edges.targets h.normal_eq) n

theorem Retouches.handlerSuccs_eq
    (h : Retouches keeps g g')
    (n : NodeId) :
    g'.handlerSuccs n = g.handlerSuccs n :=
  congrFun (congrArg Edges.targets h.exceptional_eq) n

theorem retouches_modifyNode
    (id : NodeId)
    {f : Node → Node}
    (hsame : ∀ node, keeps node node)
    (hkept : ∀ node, keeps node (f node)) :
    Retouches keeps g (g.modifyNode id f) := by
  refine retouches_of_slots (fun n node => if n = id then f node else node) rfl (fun n => ?_) hsame
    fun n node => ?_
  · rw [slots_modifyNode]
    congr 1
    funext slot
    split <;> rfl
  · split
    · exact hkept node
    · exact hsame node

/-- What every step keeps of the nodes of a graph, all of them keep. -/
theorem retouches_foldl
    {σ α : Type}
    (graph : σ → FlowGraph)
    {step : σ → α → σ}
    (hsame : ∀ node, keeps node node)
    (hthrough : ∀ a b c, keeps a b → keeps b c → keeps a c)
    (heach : ∀ s x, Retouches keeps (graph s) (graph (step s x)))
    (xs : List α)
    (s : σ) :
    Retouches keeps (graph s) (graph (xs.foldl step s)) := by
  induction xs generalizing s with
  | nil => exact .refl hsame _
  | cons x xs ih => exact (heach s x).trans hthrough (ih (step s x))

end Retouching

/-- Nodes that differ in their numbers only. -/
def Renumbered (n n' : Node) : Prop :=
  ∃ num, n' = { n with num }

/-- Nodes that end in the same way. -/
def SameKind (n n' : Node) : Prop :=
  n'.kind = n.kind

/-- Nodes that differ in their code and in what they declare only. -/
def Recoded (n n' : Node) : Prop :=
  n' = { n with ins := n'.ins, locs := n'.locs, declares := n'.declares }

/-- Nodes whose branches have the same targets. -/
def SameTargets (n n' : Node) : Prop :=
  n'.kind.targets? = n.kind.targets?

section Instructions

variable (g : FlowGraph) (loc : Loc)

theorem SameKind.refl
    (n : Node) :
    SameKind n n :=
  rfl

theorem Recoded.refl
    (n : Node) :
    Recoded n n :=
  rfl

theorem Recoded.trans
    (a b c : Node)
    (h : Recoded a b)
    (h' : Recoded b c) :
    Recoded a c := by
  unfold Recoded at *
  rw [h', h]

theorem Recoded.sameKind
    {n n' : Node}
    (h : Recoded n n') :
    SameKind n n' :=
  (congrArg Node.kind h :)

theorem retouches_modifyInstr
    (f : Symbolic.Instr → Symbolic.Instr) :
    Retouches Recoded g (g.modifyInstr loc f) := by
  unfold modifyInstr
  split
  · exact .refl Recoded.refl g
  · split
    · exact .refl Recoded.refl g
    · exact retouches_modifyNode _ Recoded.refl fun _ => rfl

/-- Index, order and exit say nothing about nodes. -/
theorem retouches_of_same
    {keeps : Node → Node → Prop}
    {g g' : FlowGraph}
    (hsame : ∀ node, keeps node node)
    (hslots : g'.slots = g.slots)
    (hentry : g'.entry = g.entry) :
    Retouches keeps g g' :=
  retouches_of_slots (fun _ node => node) hentry (fun n => by simp [hslots]) hsame fun _ => hsame

theorem retouches_removeInstr :
    Retouches Recoded g (g.removeInstr loc) := by
  have hindex : Retouches Recoded g { g with locIndex := OrderedMap.erase loc g.locIndex } :=
    retouches_of_same Recoded.refl rfl rfl
  unfold removeInstr
  split
  · exact .refl Recoded.refl g
  · dsimp only
    split
    · exact hindex
    · exact hindex.trans Recoded.trans (retouches_modifyNode _ Recoded.refl fun _ => rfl)

end Instructions

section Guided

variable {g g' : FlowGraph}

theorem Renumbered.refl
    (n : Node) :
    Renumbered n n :=
  ⟨n.num, rfl⟩

theorem Renumbered.trans
    (a b c : Node)
    (h : Renumbered a b)
    (h' : Renumbered b c) :
    Renumbered a c := by
  obtain ⟨num, rfl⟩ := h
  obtain ⟨num', rfl⟩ := h'
  exact ⟨num', rfl⟩

theorem Renumbered.kind_eq
    {n n' : Node}
    (h : Renumbered n n') :
    n'.kind = n.kind := by
  obtain ⟨num, rfl⟩ := h
  rfl

theorem retouches_reorder
    (g : FlowGraph) :
    Retouches Renumbered g g.reorder := by
  let cleared : FlowGraph :=
    { g with
      slots := g.slots.map fun slot => { slot with node := { slot.node with num := 0 } }
      order := g.toDigraph.reversePostorder g.entry }
  have hfirst : Retouches Renumbered g cleared :=
    retouches_of_slots (fun _ n => { n with num := 0 }) rfl (fun n => by simp [cleared])
      Renumbered.refl fun _ _ => ⟨0, rfl⟩
  exact hfirst.trans Renumbered.trans (retouches_foldl (fun g => g) Renumbered.refl Renumbered.trans
    (fun g (x : NodeId × Nat) =>
      retouches_modifyNode x.1 Renumbered.refl fun _ => ⟨x.2 + 1, rfl⟩) _ cleared)

theorem Wired.retouch
    {keeps : Node → Node → Prop}
    (h : g.Wired)
    (htouch : Retouches keeps g g') :
    g'.Wired :=
  h.of_edges htouch.normal_eq htouch.exceptional_eq fun n hlive => (htouch.isLive_eq n).trans hlive

/-- **A graph stays guided if branches keep their targets.** -/
theorem Guided.retouch
    (h : g.Guided)
    (htouch : Retouches SameTargets g g') :
    g'.Guided where
  wired := h.wired.retouch htouch
  mem_succs n b hlive htargets holds := by
    rw [htouch.isLive_eq] at hlive
    rw [htouch.succs_eq]
    exact h.mem_succs n b hlive ((htouch.kept n).symm.trans htargets) holds

theorem guided_iff :
    g.Guided ↔ g.Wired ∧ ∀ n < g.size, g.isLive n = true →
      ∀ b ∈ (g.node n).kind.targets?, ∀ holds, b.toward holds ∈ g.succs n :=
  ⟨fun h => ⟨h.wired, fun n _ hlive b htargets => h.mem_succs n b hlive htargets⟩,
    fun h => ⟨h.1, fun n b hlive htargets => h.2 n (lt_size_of_isLive hlive) hlive b htargets⟩⟩

instance (g : FlowGraph) : Decidable g.Guided :=
  decidable_of_iff _ guided_iff.symm

end Guided

end FlowGraph
end DalvikDecompiler
