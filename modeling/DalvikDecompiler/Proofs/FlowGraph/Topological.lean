import DalvikDecompiler.Proofs.FlowGraph.Numbering
import Mathlib

/-!
# The order of a graph without cycles

In a graph without cycles a node is left behind all nodes it leads to: a node that has been entered
and not yet left leads to the node at hand, which cannot lead back.  The reverse postorder is then a
topological order, and the numbers that nodes get from it increase along all edges.

**Results.**
* `Digraph.reversePostorder_increasing`: every edge of a graph without cycles
  leads to a later node of the reverse postorder.
* `FlowGraph.reorder_numbersCurrent`: ordering a graph numbers its nodes by the
  reverse postorder, and those that cannot be reached by zero.
-/

namespace DalvikDecompiler
namespace Digraph

/-- An edge of a graph. -/
def Edge (g : Digraph) (a b : NodeId) : Prop :=
  b ∈ g.succs a

section Leaving

variable {succs : NodeId → List NodeId}

/-- The steps in front of a stack come to their end before the rest of it. -/
theorem leaveOrder_append
    (unseen : List NodeId)
    (front behind : List Visit) :
    ∃ rest,
      leaveOrder succs unseen (front ++ behind) =
        leaveOrder succs unseen front ++ leaveOrder succs rest behind := by
  induction unseen, front using leaveOrder.induct succs with
  | case1 unseen => exact ⟨unseen, by simp [leaveOrder]⟩
  | case2 unseen k front ih =>
      obtain ⟨rest, heq⟩ := ih
      exact ⟨rest, by simp [leaveOrder, heq]⟩
  | case3 unseen k front hk ih =>
      obtain ⟨rest, heq⟩ := ih
      exact ⟨rest, by simpa [leaveOrder, hk] using heq⟩
  | case4 unseen k front hk ih =>
      obtain ⟨rest, heq⟩ := ih
      exact ⟨rest, by simp [leaveOrder, hk, heq]⟩

/-- A node that has just been entered leads to all nodes that are left in front of it. -/
theorem leaveOrder_enter
    {unseen : List NodeId}
    {stack : List Visit}
    {m : NodeId}
    (hm : m ∈ unseen) :
    ∃ inside later,
      leaveOrder succs unseen (.enter m :: stack) = inside ++ m :: later ∧
      (∀ n, n ∈ inside → Relation.TransGen (fun a b => b ∈ succs a) m n) ∧
      ∀ n, n ∈ unseen → n ≠ m → n ∈ succs m → n ∈ inside := by
  obtain ⟨rest, heq⟩ :=
    @leaveOrder_append succs (unseen.erase m) ((succs m).map .enter) (.leave m :: stack)
  refine ⟨_, leaveOrder succs rest stack, by simpa [leaveOrder, hm] using heq, ?_, ?_⟩
  · refine leaveOrder_forall succs (fun a b ha hb => ha.tail hb) (fun n hn => ?_) (by simp)
    exact .single (by simpa using hn)
  · intro n hu hne hn
    exact mem_leaveOrder_of_enter succs ((List.mem_erase_of_ne hne).mpr hu) (by simpa using hn)

/-- Without cycles an unseen node is left behind its unseen successors. -/
theorem exists_succ_before
    (hacyclic : ∀ n, ¬ Relation.TransGen (fun a b => b ∈ succs a) n n)
    {unseen : List NodeId}
    {stack : List Visit}
    (hnodup : (leaves stack ++ unseen).Nodup)
    {n s : NodeId}
    (hu : n ∈ unseen)
    (hn : n ∈ leaveOrder succs unseen stack)
    (hs : s ∈ succs n)
    (hsu : s ∈ unseen) :
    ∃ before behind,
      leaveOrder succs unseen stack = before ++ n :: behind ∧ s ∈ before := by
  have hsn : s ≠ n := by
    rintro rfl
    exact hacyclic s (.single hs)
  fun_induction leaveOrder succs unseen stack with
  | case1 => simp at hn
  | case2 unseen m stack ih =>
      have hnodup : m ∉ leaves stack ++ unseen ∧ (leaves stack ++ unseen).Nodup := by
        simpa only [leaves, List.cons_append, List.nodup_cons] using hnodup
      have hnm : n ≠ m := by
        rintro rfl
        exact hnodup.1 (List.mem_append_right _ hu)
      obtain ⟨before, behind, heq, hb⟩ := ih hnodup.2 hu (List.mem_of_ne_of_mem hnm hn) hsu
      exact ⟨m :: before, behind, by simp [heq], by simp [hb]⟩
  | case3 unseen m stack hm ih =>
      obtain ⟨inside, later, heq, hinside, hsuccs⟩ := @leaveOrder_enter succs unseen stack m hm
      rw [leaveOrder, if_pos hm] at heq
      by_cases hnm : n = m
      · subst hnm
        exact ⟨inside, later, heq, hsuccs s hsu hsn hs⟩
      · by_cases hsm : s = m
        · subst hsm
          -- Nodes left in front of the successor are reached from it, and this one leads back.
          have hlater : n ∈ later := by
            rw [heq] at hn
            rcases List.mem_append.mp hn with hn | hn
            · exact absurd ((hinside n hn).tail hs) (hacyclic s)
            · exact List.mem_of_ne_of_mem hnm hn
          obtain ⟨before, behind, rfl⟩ := List.append_of_mem hlater
          exact ⟨inside ++ s :: before, behind, by simp [heq], by simp⟩
        · exact ih (nodup_of_enter succs hm hnodup) ((List.mem_erase_of_ne hnm).mpr hu) hn
            ((List.mem_erase_of_ne hsm).mpr hsu)
  | case4 unseen m stack hm ih => exact ih hnodup hu hn hsu

end Leaving

/-- **Topological order.**  Every edge of a graph without cycles leads to a later node of the
reverse postorder. -/
theorem reversePostorder_increasing
    {g : Digraph}
    (hwf : g.WellFormed)
    (hacyclic : ∀ n, ¬ Relation.TransGen g.Edge n n)
    {start a b : NodeId}
    (ha : a ∈ g.reversePostorder start)
    (hb : g.Edge a b) :
    (g.reversePostorder start).idxOf a < (g.reversePostorder start).idxOf b := by
  have hnodup : (g.reversePostorder start).Nodup :=
    List.nodup_reverse.mpr (postorder_nodup g start)
  obtain ⟨before, behind, heq, hmem⟩ :=
    exists_succ_before hacyclic (by simpa [leaves] using List.nodup_range)
      (List.mem_range.mpr (hwf.source_lt a b hb)) (List.mem_reverse.mp ha) hb
      (List.mem_range.mpr (hwf.target_lt a b hb))
  have horder : g.reversePostorder start = behind.reverse ++ a :: before.reverse := by
    simp [reversePostorder, postorder, heq]
  rw [horder] at hnodup ⊢
  exact idxOf_lt_of_nodup hnodup (by simpa using hmem)

end Digraph

namespace FlowGraph

/-- The number that a node gets from an order. -/
def numberIn (order : List NodeId) (id : NodeId) : Nat :=
  if id ∈ order then order.idxOf id + 1 else 0

/-- The nodes have the numbers of the reverse postorder. -/
def NumbersCurrent (g : FlowGraph) : Prop :=
  ∀ id, (g.node id).num = numberIn (g.toDigraph.reversePostorder g.entry) id

section Reorder

variable {g : FlowGraph}

/-- Numbering some nodes one after another. -/
theorem num_foldl_modifyNode
    {order : List NodeId}
    (hnodup : order.Nodup)
    (hsize : ∀ id, id ∈ order → id < g.size)
    (start : Nat)
    (id : NodeId) :
    (((order.zipIdx start).foldl
      (fun g (id, position) => g.modifyNode id fun n => { n with num := position + 1 }) g).node
        id).num =
      if id ∈ order then start + order.idxOf id + 1 else (g.node id).num := by
  induction order generalizing g start with
  | nil => simp
  | cons first rest ih =>
      have hfirst : first < g.size := hsize first (by simp)
      rw [List.nodup_cons] at hnodup
      have hrest (n : NodeId) (hn : n ∈ rest) :
          n < (g.modifyNode first fun n => { n with num := start + 1 }).size := by
        simpa using hsize n (List.mem_cons_of_mem first hn)
      rw [List.zipIdx_cons, List.foldl_cons, ih hnodup.2 hrest, node_modifyNode g _ _ hfirst]
      by_cases hid : id = first
      · subst hid
        simp [hnodup.1]
      · simp only [List.mem_cons, hid, false_or, if_false, List.idxOf_cons_ne rest (Ne.symm hid)]
        split <;> omega

theorem reorder_numbersCurrent
    (g : FlowGraph) :
    g.reorder.NumbersCurrent := by
  let order := g.toDigraph.reversePostorder g.entry
  let cleared : FlowGraph :=
    { g with
      slots := g.slots.map fun slot => { slot with node := { slot.node with num := 0 } }
      order }
  have hcleared (id : NodeId) : (cleared.node id).num = 0 := by
    cases hslot : g.slots[id]? <;> simp [cleared, node, hslot, Node.plain]
  have hnodup : order.Nodup := List.nodup_reverse.mpr (Digraph.postorder_nodup _ _)
  have hsize (id : NodeId) (hid : id ∈ order) : id < cleared.size := by
    have hid : id < g.toDigraph.size := by
      simpa using Digraph.mem_of_mem_leaveOrder _ (List.mem_reverse.mp hid)
    simpa [cleared, size, toDigraph] using hid
  have htoDigraph : g.reorder.toDigraph = g.toDigraph := (reorder_sameCode g).1.toDigraph_eq
  have hentry : g.reorder.entry = g.entry := congrArg Digraph.entry htoDigraph
  intro id
  rw [htoDigraph, hentry]
  calc
    (g.reorder.node id).num =
        if id ∈ order then 0 + order.idxOf id + 1 else (cleared.node id).num :=
      num_foldl_modifyNode hnodup hsize 0 id
    _ = numberIn order id := by rw [hcleared, Nat.zero_add, numberIn]

end Reorder

end FlowGraph
end DalvikDecompiler
