import DalvikDecompiler.Region.Loop
import DalvikDecompiler.Proofs.Digraph.NaturalLoops
import DalvikDecompiler.Proofs.FlowGraph.Stranding

/-!
# Which nodes start a loop

**Input.** A flow graph all of whose nodes can be reached, and its derived sequence.

The loops of all levels are marked one after another.  A mark changes nothing that another one
depends on, and replaces what an earlier one at the same node has said.

**Results.**
* `startsLoop_recordLoops`: the nodes that are marked are those from which an
  interval of some level leads back.
* `recordLoops_heads`: in a reducible graph that can be contracted, these are
  the targets of edges to dominators; otherwise they lead to themselves.
-/

namespace DalvikDecompiler

open DalvikDecompiler.Digraph (Interval DerivedLevel DerivedSequence Derived)

/-- The nodes at which those nodes of a level end that lead back to the head of an interval. -/
def Digraph.DerivedLevel.latches (level : DerivedLevel) (k : Nat) (I : Interval) : List NodeId :=
  (level.backPreds k I).map level.lastOf

namespace FlowGraph

/-- Another graph has the same edges and the same numbers. -/
structure SameFlow (g g' : FlowGraph) : Prop where
  toDigraph_eq : g'.toDigraph = g.toDigraph
  num_eq : ∀ n, (g'.node n).num = (g.node n).num

/-- The mark that the loop of an interval leaves on its head. -/
def loopMark (g : FlowGraph) (level : DerivedLevel) (k : Nat) (I : Interval) (n : Node) : Node :=
  let members := level.intervalNodes I
  let body := OrderedSet.ofList
    ((level.latches k I).flatMap (g.loopBody members (level.headOf I.head)))
  { n with
    latch := (level.latches k I).getLast?
    startsLoop := true
    loopNodes := body.mergeSort fun a b => (g.node a).num ≤ (g.node b).num }

section Marks

variable {g g' g'' : FlowGraph} {level : DerivedLevel} {state : FlowGraph × Nat} {I : Interval}
variable {entries : List (Interval × Nat)} {k n : Nat}

theorem SameFlow.refl
    (g : FlowGraph) :
    SameFlow g g :=
  ⟨rfl, fun _ => rfl⟩

theorem SameFlow.trans
    (h : SameFlow g g')
    (h' : SameFlow g' g'') :
    SameFlow g g'' :=
  ⟨h'.toDigraph_eq.trans h.toDigraph_eq, fun n => (h'.num_eq n).trans (h.num_eq n)⟩

theorem SameFlow.size_eq
    (h : SameFlow g g') :
    g'.size = g.size :=
  congrArg Digraph.size h.toDigraph_eq

/-- A mark depends on edges and numbers only. -/
theorem SameFlow.loopMark_eq
    (h : SameFlow g g') :
    g'.loopMark level k I = g.loopMark level k I := by
  have hpreds : g'.flowPreds = g.flowPreds := congrArg Digraph.preds h.toDigraph_eq
  have hbody (members : List NodeId) (head : NodeId) :
      g'.loopBody members head = g.loopBody members head := by
    funext latch
    simp only [loopBody, hpreds, h.num_eq, h.size_eq]
  funext n
  simp only [loopMark, hbody, h.num_eq]

theorem sameFlow_modifyNode
    (id : NodeId)
    {f : Node → Node}
    (hnum_eq : ∀ n, (f n).num = n.num) :
    SameFlow g (g.modifyNode id f) := by
  refine ⟨toDigraph_modifyNode g id f, fun n => ?_⟩
  rw [node_eq_slotAt, node_eq_slotAt]
  exact slotAt_modifySlot_same g (fun slot => slot.node.num) fun slot => hnum_eq slot.node

theorem recordLoop_fst :
    (recordLoop level state (I, k)).1 =
      if level.backPreds k I = [] then state.1
      else state.1.modifyNode (level.headOf I.head) (state.1.loopMark level k I) := by
  obtain ⟨g, found⟩ := state
  unfold recordLoop
  dsimp only
  split
  · next hnone =>
      have hnothing : level.latches k I = [] := List.getLast?_eq_none_iff.1 hnone
      rw [if_pos (List.map_eq_nil_iff.1 hnothing)]
  · next latch hlast =>
      have hlast : (level.latches k I).getLast? = some latch := hlast
      have hback : level.backPreds k I ≠ [] := fun hnothing => by
        rw [DerivedLevel.latches, hnothing] at hlast
        cases hlast
      rw [if_neg hback]
      unfold loopMark
      rw [hlast]
      rfl

theorem sameFlow_recordLoop :
    SameFlow state.1 (recordLoop level state (I, k)).1 := by
  rw [recordLoop_fst]
  split
  · exact .refl _
  · exact sameFlow_modifyNode _ fun _ => rfl

theorem sameFlow_recordAll :
    SameFlow state.1 (entries.foldl (recordLoop level) state).1 := by
  induction entries generalizing state with
  | nil => exact .refl _
  | cons entry rest ih => exact sameFlow_recordLoop.trans ih

/-- An entry leads back to a given node of the first graph. -/
def LeadsBack (level : DerivedLevel) (n : NodeId) (entry : Interval × Nat) : Prop :=
  level.headOf entry.1.head = n ∧ level.backPreds entry.2 entry.1 ≠ []

theorem node_recordLoop_of_not
    (hother : ¬ LeadsBack level n (I, k)) :
    (recordLoop level state (I, k)).1.node n = state.1.node n := by
  rw [recordLoop_fst]
  split
  · rfl
  · next hsome =>
      have hdiffer : n ≠ level.headOf I.head := fun hsame => hother ⟨hsame.symm, hsome⟩
      rw [node, slots_modifyNode, node]
      simp [hdiffer]

theorem node_recordLoop
    (hknown : n < state.1.size)
    (hback : LeadsBack level n (I, k)) :
    (recordLoop level state (I, k)).1.node n = state.1.loopMark level k I (state.1.node n) := by
  obtain ⟨rfl, hsome⟩ := hback
  rw [recordLoop_fst, if_neg hsome, node_modifyNode _ _ _ hknown, if_pos rfl]

/-- Entries that lead back to other nodes leave a node as it is. -/
theorem node_recordAll_of_not
    (hother : ∀ entry ∈ entries, ¬ LeadsBack level n entry) :
    (entries.foldl (recordLoop level) state).1.node n = state.1.node n := by
  induction entries generalizing state with
  | nil => rfl
  | cons entry rest ih =>
      obtain ⟨here, hlater⟩ := List.forall_mem_cons.1 hother
      rw [List.foldl_cons, ih hlater, node_recordLoop_of_not here]

/-- The only entry that leads back to a node marks it. -/
theorem node_recordAll
    (hsame : SameFlow g state.1)
    (hknown : n < g.size)
    (hmem : (I, k) ∈ entries)
    (hback : LeadsBack level n (I, k))
    (honly : ∀ entry ∈ entries, LeadsBack level n entry → entry = (I, k)) :
    ∃ old, (entries.foldl (recordLoop level) state).1.node n = g.loopMark level k I old := by
  induction entries generalizing state with
  | nil => cases hmem
  | cons entry rest ih =>
      rw [List.foldl_cons]
      by_cases hlater : (I, k) ∈ rest
      · exact ih (hsame.trans sameFlow_recordLoop) hlater fun e hmem => honly e (.tail _ hmem)
      · obtain rfl := (List.mem_cons.1 hmem).resolve_right hlater
        rw [node_recordAll_of_not fun e hmem hleads =>
          hlater (honly e (.tail _ hmem) hleads ▸ hmem),
          node_recordLoop (hsame.size_eq ▸ hknown) hback, hsame.loopMark_eq]
        exact ⟨_, rfl⟩

/-- A node that is marked stays marked. -/
theorem startsLoop_recordAll
    (entries : List (Interval × Nat))
    (hknown : n < state.1.size) :
    ((entries.foldl (recordLoop level) state).1.node n).startsLoop = true ↔
      (state.1.node n).startsLoop = true ∨ ∃ entry ∈ entries, LeadsBack level n entry := by
  induction entries generalizing state with
  | nil => simp
  | cons entry rest ih =>
      obtain ⟨I, k⟩ := entry
      rw [List.foldl_cons, ih (by rwa [sameFlow_recordLoop.size_eq])]
      by_cases hback : LeadsBack level n (I, k)
      · simp [node_recordLoop hknown hback, loopMark, hback]
      · simp [node_recordLoop_of_not hback, hback]

theorem mem_intervalsByHead :
    (I, k) ∈ intervalsByHead level ↔ level.partition.intervals[k]? = some I := by
  simp [intervalsByHead, List.mem_zipIdx_iff_getElem?]

theorem closes_iff :
    level.Closes n ↔ ∃ entry ∈ intervalsByHead level, LeadsBack level n entry := by
  simp only [DerivedLevel.Closes, LeadsBack, Prod.exists, mem_intervalsByHead]
  exact exists_comm

/-- Mark the loops of some levels. -/
def recordLevels (levels : List DerivedLevel) (state : FlowGraph × Nat) : FlowGraph × Nat :=
  levels.foldl (fun state level => (intervalsByHead level).foldl (recordLoop level) state) state

variable {levels : List DerivedLevel}

theorem sameFlow_recordLevels
    (state : FlowGraph × Nat) :
    SameFlow state.1 (recordLevels levels state).1 := by
  induction levels generalizing state with
  | nil => exact .refl _
  | cons level rest ih => exact sameFlow_recordAll.trans (ih _)

theorem startsLoop_recordLevels
    (hknown : n < state.1.size) :
    ((recordLevels levels state).1.node n).startsLoop = true ↔
      (state.1.node n).startsLoop = true ∨ ∃ level ∈ levels, level.Closes n := by
  induction levels generalizing state with
  | nil => simp [recordLevels]
  | cons level rest ih =>
      rw [recordLevels, List.foldl_cons, ← recordLevels, ih (by rwa [sameFlow_recordAll.size_eq]),
        startsLoop_recordAll _ hknown, ← closes_iff]
      simp [or_assoc]

/-- Levels without a loop at a node leave it as it is. -/
theorem node_recordLevels_of_not
    (hother : ∀ level ∈ levels, ¬ level.Closes n) :
    (recordLevels levels state).1.node n = state.1.node n := by
  induction levels generalizing state with
  | nil => rfl
  | cons level rest ih =>
      obtain ⟨here, hlater⟩ := List.forall_mem_cons.1 hother
      rw [recordLevels, List.foldl_cons, ← recordLevels, ih hlater, node_recordAll_of_not]
      exact fun entry hmem hback => here (closes_iff.2 ⟨entry, hmem, hback⟩)

/-- The last level with a loop at a node marks it. -/
theorem node_recordLevels
    {d : Digraph}
    (before : List DerivedLevel)
    {after : List DerivedLevel}
    (hderived : Derived d level)
    (hknown : n < g.size)
    (hfound : level.partition.intervals[k]? = some I)
    (head : level.headOf I.head = n)
    (hback : level.backPreds k I ≠ [])
    (hlast : ∀ later ∈ after, ¬ later.Closes n) :
    ∃ old,
      (recordLevels (before ++ level :: after) (g, 0)).1.node n = g.loopMark level k I old := by
  rw [recordLevels, List.foldl_append, List.foldl_cons, ← recordLevels, ← recordLevels,
    node_recordLevels_of_not hlast]
  refine node_recordAll (sameFlow_recordLevels (g, 0)) hknown
    (mem_intervalsByHead.2 hfound) ⟨head, hback⟩ ?_
  rintro ⟨J, j⟩ hmem hleads
  have hfound' := mem_intervalsByHead.1 hmem
  obtain rfl := hderived.interval_eq hfound hfound' (head.trans hleads.1.symm)
  rw [hfound, Option.some_inj] at hfound'
  rw [hfound']

theorem recordLoops_eq
    {sequence : DerivedSequence} :
    g.recordLoops sequence = recordLevels sequence.levels (g, 0) :=
  rfl

/-- The nodes that are marked are those from which an interval of some level leads back. -/
theorem startsLoop_recordLoops
    (hfresh : ∀ n, (g.node n).startsLoop = false)
    {sequence : DerivedSequence}
    (hbound : ∀ level ∈ sequence.levels, level.Closes n → n < g.size) :
    ((g.recordLoops sequence).1.node n).startsLoop = true ↔
      ∃ level ∈ sequence.levels, level.Closes n := by
  rw [recordLoops_eq]
  by_cases hknown : n < g.size
  · rw [startsLoop_recordLevels hknown, hfresh]
    simp
  · have hnone : ∀ level ∈ sequence.levels, ¬ level.Closes n :=
      fun level hmem hcloses => hknown (hbound level hmem hcloses)
    rw [node_recordLevels_of_not hnone, hfresh]
    simpa using hnone

end Marks

section Heads

variable {g : FlowGraph}

/-- A flow graph all of whose nodes can be reached from the entry, which is one of them. -/
theorem Wired.rooted
    (h : g.Wired)
    (hconnected : g.Connected)
    (hlive : g.isLive g.entry = true) :
    g.toDigraph.Rooted := by
  have hends {a b : NodeId} (hsucc : b ∈ g.toDigraph.succs a) :
      g.isLive a = true ∧ g.isLive b = true := h.live a b (List.mem_append.1 hsucc)
  exact {
    wellFormed := h.wellFormed
    entry_lt := lt_size_of_isLive hlive
    mem_nodes := fun n hreached => by
      refine mem_liveIds_iff.2 ?_
      obtain ⟨nodes, w⟩ := hreached
      cases w with
      | here => exact hlive
      | step _ hsucc => exact (hends hsucc).2
    nodes_nodup := List.nodup_range.filter _
    pred_reachable := fun n p _ hpred =>
      hconnected p (hends ((h.wellFormed.mem_preds p n).1 hpred)).1 }

/-- **Which nodes start a loop.**  In a reducible graph a node is marked if it is the target of an
edge from a node that it dominates, as long as the graph can be contracted; if it cannot, only if it
leads to itself. -/
theorem recordLoops_heads
    (h : g.Wired)
    (hconnected : g.Connected)
    (hlive : g.isLive g.entry = true)
    (hfresh : ∀ n, (g.node n).startsLoop = false)
    (hreducible : g.toDigraph.RetreatsToDominators (g.toDigraph.reversePostorder g.entry)) :
    let order := g.toDigraph.reversePostorder g.entry
    let marked := (g.recordLoops (g.toDigraph.derivedSequence order)).1
    ∀ n, (marked.node n).startsLoop = true ↔
      ∃ u, n ∈ g.flowSuccs u ∧ g.toDigraph.Dominates n u ∧ (g.toDigraph.Contracts ∨ u = n) := by
  intro order marked n
  have hg := h.rooted hconnected hlive
  have ho : g.toDigraph.IsSweepOrder order :=
    Digraph.reversePostorder_isSweepOrder hg.wellFormed hg.entry_lt
  have hsurface := Digraph.derivedSequence_closes_iff (n := n) hg ho
    ((Digraph.reducible_iff hg.wellFormed hg.entry_lt).2 hreducible)
  rw [startsLoop_recordLoops hfresh fun level hmem hcloses => ?_, hsurface]
  · refine exists_congr fun u => and_congr_right fun hsucc => ?_
    have hreached := hconnected u (h.live u n (List.mem_append.1 hsucc)).1
    exact and_iff_right hreached
  · obtain ⟨u, hsucc, -⟩ := hsurface.1 ⟨level, hmem, hcloses⟩
    exact hg.wellFormed.target_lt u n hsucc

/-- A slot with a number and edges. -/
def loopSlot (num : Nat) (kind : NodeKind) (succs preds : List NodeId) : Slot :=
  { node := { Node.plain "" kind with num }
    live := true
    succs
    preds
    handlerSuccs := []
    handlerPreds := [] }

/-- A loop of two nodes between the entry and the exit. -/
def whileLoop : FlowGraph :=
  { FlowGraph.empty with
    slots := #[
      loopSlot 1 .statement [1] [],
      loopSlot 2 (.conditional { onTrue := 2, onFalse := 3 }) [2, 3] [0, 2],
      loopSlot 4 .statement [1] [1],
      loopSlot 3 .ret [] [1]] }

/-- Two loops around each other that nothing leads out of. -/
def nestedEndless : FlowGraph :=
  { FlowGraph.empty with
    slots := #[
      loopSlot 1 .statement [1] [],
      loopSlot 2 .statement [2] [0, 2],
      loopSlot 3 (.conditional { onTrue := 2, onFalse := 1 }) [2, 1] [1, 2]] }

theorem whileLoop_connected :
    whileLoop.Connected := by
  have hfirst : whileLoop.toDigraph.Reachable 0 1 := (Digraph.Reachable.refl _ 0).step (by decide)
  intro n hlive
  have hlt : n < 4 := lt_size_of_isLive hlive
  interval_cases n
  · exact .refl _ _
  · exact hfirst
  · exact hfirst.step (by decide)
  · exact hfirst.step (by decide)

theorem nestedEndless_connected :
    nestedEndless.Connected := by
  have hfirst : nestedEndless.toDigraph.Reachable 0 1 :=
    (Digraph.Reachable.refl _ 0).step (by decide)
  intro n hlive
  have hlt : n < 3 := lt_size_of_isLive hlive
  interval_cases n
  · exact .refl _ _
  · exact hfirst
  · exact hfirst.step (by decide)

theorem whileLoop_fresh
    (n : NodeId) :
    (whileLoop.node n).startsLoop = false := by
  by_cases hknown : n < 4
  · interval_cases n <;> rfl
  · rw [node_of_size_le (Nat.le_of_not_lt hknown)]
    rfl

theorem whileLoop_dominates :
    whileLoop.toDigraph.Dominates 1 2 := by
  have hwired : whileLoop.Wired := by decide
  exact Digraph.dominates_of_closed hwired.wellFormed [1, 2] (by decide) (by decide) (by decide)

theorem whileLoop_retreats :
    whileLoop.toDigraph.RetreatsToDominators (whileLoop.toDigraph.reversePostorder 0) := by
  have hwired : whileLoop.Wired := by decide
  have hg := hwired.rooted whileLoop_connected rfl
  refine (Digraph.reducible_iff hg.wellFormed hg.entry_lt).1
    (Digraph.reducible_of_increasing fun a b hsucc => ?_)
  have hback : ∀ a < 4, ∀ b ∈ whileLoop.flowSuccs a, a < b ∨ a = 2 ∧ b = 1 := by decide
  rcases hback a (hwired.wellFormed.source_lt a b hsucc) b hsucc with hlt | ⟨rfl, rfl⟩
  · exact .inl hlt
  · exact .inr whileLoop_dominates

theorem recordLoops_heads_whileLoop :
    ((whileLoop.recordLoops (whileLoop.toDigraph.derivedSequence
      (whileLoop.toDigraph.reversePostorder 0))).1.node 1).startsLoop = true := by
  have hcontracts : whileLoop.toDigraph.Contracts :=
    .inr ⟨1, 3, whileLoop_connected 3 rfl, by decide, by decide, by decide⟩
  exact (recordLoops_heads (by decide) whileLoop_connected rfl whileLoop_fresh whileLoop_retreats
    1).2 ⟨2, by decide, whileLoop_dominates, .inl hcontracts⟩

/-- The outer one of two loops around each other is not marked if nothing leads out of them. -/
theorem nestedEndless_unmarked :
    nestedEndless.Wired ∧ nestedEndless.Connected ∧
      nestedEndless.toDigraph.RetreatsToDominators (nestedEndless.toDigraph.reversePostorder 0) ∧
      1 ∈ nestedEndless.flowSuccs 2 ∧ nestedEndless.toDigraph.Dominates 1 2 ∧
      ((nestedEndless.recordLoops (nestedEndless.toDigraph.derivedSequence
        (nestedEndless.toDigraph.reversePostorder 0))).1.node 1).startsLoop = false := by
  have hwired : nestedEndless.Wired := by decide
  have hg := hwired.rooted nestedEndless_connected rfl
  have hdominates : nestedEndless.toDigraph.Dominates 1 2 :=
    Digraph.dominates_of_closed hwired.wellFormed [1, 2] (by decide) (by decide) (by decide)
  have hreducible : nestedEndless.toDigraph.Reducible := by
    refine Digraph.reducible_of_increasing fun a b hsucc => ?_
    have hback : ∀ a < 3, ∀ b ∈ nestedEndless.flowSuccs a, a < b ∨ a = 2 ∧ (b = 1 ∨ b = 2) := by
      decide
    rcases hback a (hwired.wellFormed.source_lt a b hsucc) b hsucc with hlt | ⟨rfl, rfl | rfl⟩
    · exact .inl hlt
    · exact .inr hdominates
    · exact .inr (Digraph.dominates_self _ 2)
  exact ⟨hwired, nestedEndless_connected,
    (Digraph.reducible_iff hg.wellFormed hg.entry_lt).1 hreducible, by decide, hdominates, by cbv⟩

end Heads

end FlowGraph
end DalvikDecompiler
