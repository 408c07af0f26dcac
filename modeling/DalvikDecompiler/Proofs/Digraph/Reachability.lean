import DalvikDecompiler.Digraph.Basic
import DalvikDecompiler.Proofs.OrderedSet
import Mathlib

/-!
# Walks and the reverse postorder

**Input.** A rooted graph whose edges are kept at both of their ends.

A walk is a list of nodes each of which leads to the next one.  A node can be
reached from another one if there is a walk between them.

**Results.**
* `leaveOrder_split`: what stands on the stack in front of leaving a node is
  finished before that node is left.
* `reversePostorder_isSweepOrder`: the reverse postorder from the entry lists
  the nodes that can be reached, each once, the entry first and every other
  node behind one of its predecessors.
-/

namespace DalvikDecompiler
namespace Digraph

/-- Every edge joins two slots and is known at both of its ends. -/
structure WellFormed (g : Digraph) : Prop where
  mem_preds : ∀ a b, a ∈ g.preds b ↔ b ∈ g.succs a
  source_lt : ∀ a b, b ∈ g.succs a → a < g.size
  target_lt : ∀ a b, b ∈ g.succs a → b < g.size

/-- A graph made from a list of edges is well-formed. -/
theorem ofEdges_wellFormed
    (size : Nat)
    (edges : List (NodeId × NodeId))
    (entry : NodeId) :
    (ofEdges size edges entry).WellFormed := by
  constructor
  · intro a b
    simp [ofEdges]
  · intro a b h
    simp [ofEdges] at h
    exact h.2.1
  · intro a b h
    simp [ofEdges] at h
    exact h.2.2

/-- A walk from one node to another, with the nodes on it in order. -/
inductive Walk (g : Digraph) (a : NodeId) : NodeId → List NodeId → Prop
  | here : Walk g a a [a]
  | step {b c : NodeId} {nodes : List NodeId} :
      Walk g a b nodes →
      c ∈ g.succs b →
      Walk g a c (nodes ++ [c])

/-- Whether there is a walk between two nodes. -/
def Reachable (g : Digraph) (a b : NodeId) : Prop :=
  ∃ nodes, g.Walk a b nodes

namespace Walk

variable {g : Digraph} {a b c : NodeId} {nodes more : List NodeId}

theorem source_mem
    (w : g.Walk a b nodes) :
    a ∈ nodes := by
  induction w with
  | here => simp
  | step _ _ ih => simp [ih]

theorem target_mem
    (w : g.Walk a b nodes) :
    b ∈ nodes := by
  cases w <;> simp

/-- Two walks that meet make one, with the node in the middle once. -/
theorem append
    (w : g.Walk a b nodes)
    (w' : g.Walk b c more) :
    g.Walk a c (nodes ++ more.tail) := by
  induction w' with
  | here => simpa using w
  | @step d e rest w' he ih =>
      have hne : rest ≠ [] := List.ne_nil_of_mem w'.source_mem
      have h := ih.step he
      rwa [List.append_assoc, ← List.tail_append_of_ne_nil hne] at h

/-- A walk can be cut at any node on it. -/
theorem split
    {front behind : List NodeId}
    {m : NodeId}
    (w : g.Walk a b nodes)
    (h : nodes = front ++ m :: behind) :
    g.Walk a m (front ++ [m]) ∧ g.Walk m b (m :: behind) := by
  induction w generalizing behind with
  | here =>
      obtain ⟨hfront, hrest⟩ := List.append_eq_singleton_iff.mp h.symm |>.resolve_right (by simp)
      obtain ⟨rfl, rfl⟩ := List.cons_eq_cons.mp hrest
      rw [hfront]
      exact ⟨.here, .here⟩
  | @step b c nodes w hc ih =>
      rcases List.eq_nil_or_concat behind with rfl | ⟨rest, e, rfl⟩
      · obtain ⟨hfront, hm⟩ := List.append_inj' h rfl
        obtain ⟨rfl, -⟩ := List.cons_eq_cons.mp hm
        rw [← hfront]
        exact ⟨w.step hc, .here⟩
      · have h' : nodes ++ [c] = (front ++ m :: rest) ++ [e] := by simpa using h
        obtain ⟨hnodes, he⟩ := List.append_inj' h' rfl
        obtain ⟨rfl, -⟩ := List.cons_eq_cons.mp he
        obtain ⟨w₁, w₂⟩ := ih hnodes
        refine ⟨w₁, ?_⟩
        simpa using w₂.step hc

theorem head_eq
    (w : g.Walk a b nodes) :
    nodes.head? = some a := by
  induction w with
  | here => rfl
  | step w _ ih => simp [ih]

/-- The last node of a walk is its end. -/
theorem exists_eq_append
    (w : g.Walk a b nodes) :
    ∃ front, nodes = front ++ [b] := by
  cases w with
  | here => exact ⟨[], rfl⟩
  | step _ _ => exact ⟨_, rfl⟩

end Walk

namespace Reachable

variable {g : Digraph} {a b c : NodeId}

theorem refl
    (g : Digraph)
    (a : NodeId) :
    g.Reachable a a :=
  ⟨[a], .here⟩

theorem step
    (h : g.Reachable a b)
    (hc : c ∈ g.succs b) :
    g.Reachable a c := by
  obtain ⟨nodes, w⟩ := h
  exact ⟨_, w.step hc⟩

theorem trans
    (h : g.Reachable a b)
    (h' : g.Reachable b c) :
    g.Reachable a c := by
  obtain ⟨nodes, w⟩ := h
  obtain ⟨more, w'⟩ := h'
  exact ⟨_, w.append w'⟩

end Reachable

section Leaving

variable (succs : NodeId → List NodeId)

/-- What is left was on the stack to be left or has not been seen before. -/
theorem mem_of_mem_leaveOrder
    {unseen : List NodeId}
    {stack : List Visit}
    {n : NodeId}
    (h : n ∈ leaveOrder succs unseen stack) :
    .leave n ∈ stack ∨ n ∈ unseen := by
  fun_induction leaveOrder succs unseen stack with
  | case1 => simp at h
  | case2 unseen m stack ih =>
      rcases List.mem_cons.mp h with rfl | h
      · simp
      · rcases ih h with h | h <;> simp [h]
  | case3 unseen m stack hm ih =>
      rcases ih h with h | h
      · have h : n = m ∨ .leave n ∈ stack := by simpa using h
        rcases h with rfl | h
        · exact Or.inr hm
        · simp [h]
      · exact Or.inr (List.mem_of_mem_erase h)
  | case4 unseen m stack hm ih =>
      rcases ih h with h | h <;> simp [h]

/-- The steps in front of leaving a node come to their end before the node is left: they list what
they were to leave and every unseen node that they were to enter. -/
theorem leaveOrder_split
    (unseen : List NodeId)
    (front : List Visit)
    (m : NodeId)
    (behind : List Visit) :
    ∃ before rest,
      leaveOrder succs unseen (front ++ .leave m :: behind) =
        before ++ m :: leaveOrder succs rest behind ∧
      (∀ n, .leave n ∈ front → n ∈ before) ∧
      (∀ n, n ∈ unseen → .enter n ∈ front → n ∈ before) := by
  -- the recursion of the traversal on the steps in front
  induction unseen, front using leaveOrder.induct succs with
  | case1 unseen => exact ⟨[], unseen, by simp [leaveOrder], by simp, by simp⟩
  | case2 unseen k front ih =>
      obtain ⟨before, rest, heq, hleave, henter⟩ := ih
      refine ⟨k :: before, rest, by simp [leaveOrder, heq], ?_, ?_⟩
      · intro n hn
        have hn : n = k ∨ .leave n ∈ front := by simpa using hn
        rcases hn with rfl | hn
        · simp
        · simp [hleave n hn]
      · intro n hu hn
        have hn : .enter n ∈ front := by simpa using hn
        simp [henter n hu hn]
  | case3 unseen k front hk ih =>
      obtain ⟨before, rest, heq, hleave, henter⟩ := ih
      refine ⟨before, rest, by simp [leaveOrder, hk, ← heq], ?_, ?_⟩
      · intro n hn
        exact hleave n (by simpa using Or.inr hn)
      · intro n hu hn
        have hn : n = k ∨ .enter n ∈ front := by simpa using hn
        by_cases hnk : n = k
        · exact hleave n (by simp [hnk])
        · have hu' : n ∈ unseen.erase k := (List.mem_erase_of_ne hnk).mpr hu
          exact henter n hu' (by simpa using Or.inr (hn.resolve_left hnk))
  | case4 unseen k front hk ih =>
      obtain ⟨before, rest, heq, hleave, henter⟩ := ih
      refine ⟨before, rest, by simp [leaveOrder, hk, heq], ?_, ?_⟩
      · intro n hn
        exact hleave n (by simpa using hn)
      · intro n hu hn
        have hn : n = k ∨ .enter n ∈ front := by simpa using hn
        rcases hn with rfl | hn
        · exact absurd hu hk
        · exact henter n hu hn

/-- The nodes that a stack is to leave. -/
def leaves : List Visit → List NodeId
  | [] => []
  | .enter _ :: stack => leaves stack
  | .leave n :: stack => n :: leaves stack

@[simp] theorem leaves_enter_append
    (nodes : List NodeId)
    (stack : List Visit) :
    leaves (nodes.map .enter ++ stack) = leaves stack := by
  induction nodes with
  | nil => rfl
  | cons n nodes ih => simpa [leaves] using ih

theorem mem_leaves
    {stack : List Visit}
    {n : NodeId} :
    n ∈ leaves stack ↔ .leave n ∈ stack := by
  induction stack with
  | nil => simp [leaves]
  | cons visit stack ih => cases visit <;> simp [leaves, ih]

/-- Entering a node moves it from the unseen ones to those that are to be left. -/
theorem nodup_of_enter
    {unseen : List NodeId}
    {stack : List Visit}
    {m : NodeId}
    (hm : m ∈ unseen)
    (h : (leaves stack ++ unseen).Nodup) :
    (leaves ((succs m).map .enter ++ .leave m :: stack) ++ unseen.erase m).Nodup := by
  rw [leaves_enter_append]
  have hfront : (m :: (leaves stack ++ unseen.erase m)).Perm
      (leaves stack ++ m :: unseen.erase m) :=
    List.perm_middle.symm
  have hback : (leaves stack ++ m :: unseen.erase m).Perm (leaves stack ++ unseen) :=
    (List.perm_cons_erase hm).symm.append_left _
  exact (hfront.trans hback).nodup_iff.mpr h

/-- No node is left twice. -/
theorem leaveOrder_nodup
    {unseen : List NodeId}
    {stack : List Visit}
    (h : (leaves stack ++ unseen).Nodup) :
    (leaveOrder succs unseen stack).Nodup := by
  fun_induction leaveOrder succs unseen stack with
  | case1 => simp
  | case2 unseen m stack ih =>
      have h : m ∉ leaves stack ++ unseen ∧ (leaves stack ++ unseen).Nodup := by
        simpa only [leaves, List.cons_append, List.nodup_cons] using h
      refine List.nodup_cons.mpr ⟨fun hm => h.1 ?_, ih h.2⟩
      rcases mem_of_mem_leaveOrder succs hm with hm | hm
      · exact List.mem_append_left _ (mem_leaves.mpr hm)
      · exact List.mem_append_right _ hm
  | case3 unseen m stack hm ih => exact ih (nodup_of_enter succs hm h)
  | case4 unseen m stack hm ih => exact ih h

/-- An unseen node that is to be entered is left in the end. -/
theorem mem_leaveOrder_of_enter
    {unseen : List NodeId}
    {stack : List Visit}
    {n : NodeId}
    (hu : n ∈ unseen)
    (hn : .enter n ∈ stack) :
    n ∈ leaveOrder succs unseen stack := by
  fun_induction leaveOrder succs unseen stack with
  | case1 => simp at hn
  | case2 unseen m stack ih =>
      have hn : .enter n ∈ stack := by simpa using hn
      simp [ih hu hn]
  | case3 unseen m stack hm ih =>
      by_cases hnm : n = m
      · obtain ⟨before, rest, heq, -, -⟩ :=
          leaveOrder_split succs (unseen.erase m) ((succs m).map .enter) m stack
        simp [heq, hnm]
      · have hn : .enter n ∈ stack := by simpa [hnm] using hn
        exact ih ((List.mem_erase_of_ne hnm).mpr hu) (by simp [hn])
  | case4 unseen m stack hm ih =>
      have hnm : n ≠ m := fun h => hm (h ▸ hu)
      exact ih hu (by simpa [hnm] using hn)

/-- With an unseen node, its unseen successors are left. -/
theorem succ_mem_leaveOrder
    {unseen : List NodeId}
    {stack : List Visit}
    (hnodup : (leaves stack ++ unseen).Nodup)
    {n s : NodeId}
    (hu : n ∈ unseen)
    (hn : n ∈ leaveOrder succs unseen stack)
    (hs : s ∈ succs n)
    (hsu : s ∈ unseen) :
    s ∈ leaveOrder succs unseen stack := by
  fun_induction leaveOrder succs unseen stack with
  | case1 => simp at hn
  | case2 unseen m stack ih =>
      have hnodup : m ∉ leaves stack ++ unseen ∧ (leaves stack ++ unseen).Nodup := by
        simpa only [leaves, List.cons_append, List.nodup_cons] using hnodup
      have hnm : n ≠ m := by
        rintro rfl
        exact hnodup.1 (List.mem_append_right _ hu)
      exact List.mem_cons_of_mem _ (ih hnodup.2 hu (List.mem_of_ne_of_mem hnm hn) hsu)
  | case3 unseen m stack hm ih =>
      by_cases hsm : s = m
      · obtain ⟨before, rest, heq, -, -⟩ :=
          leaveOrder_split succs (unseen.erase m) ((succs m).map .enter) m stack
        simp [heq, hsm]
      · have hsu' : s ∈ unseen.erase m := (List.mem_erase_of_ne hsm).mpr hsu
        by_cases hnm : n = m
        · exact mem_leaveOrder_of_enter succs hsu' (by simp [← hnm, hs])
        · exact ih (nodup_of_enter succs hm hnodup) ((List.mem_erase_of_ne hnm).mpr hu) hn hsu'
  | case4 unseen m stack hm ih => exact ih hnodup hu hn hsu

/-- An unseen node is left because it was to be entered, or else before a node that leads to it.
-/
theorem entered_or_before_pred
    {unseen : List NodeId}
    {stack : List Visit}
    {n : NodeId}
    (hu : n ∈ unseen)
    (hn : n ∈ leaveOrder succs unseen stack) :
    .enter n ∈ stack ∨ .leave n ∈ stack ∨
      ∃ p before behind,
        n ∈ succs p ∧
        leaveOrder succs unseen stack = before ++ p :: behind ∧
        n ∈ before := by
  fun_induction leaveOrder succs unseen stack with
  | case1 => simp at hn
  | case2 unseen m stack ih =>
      rcases List.mem_cons.mp hn with rfl | hn
      · simp
      · rcases ih hu hn with h | h | ⟨p, before, behind, hp, heq, hb⟩
        · simp [h]
        · simp [h]
        · exact Or.inr (Or.inr ⟨p, m :: before, behind, hp, by simp [heq], by simp [hb]⟩)
  | case3 unseen m stack hm ih =>
      by_cases hnm : n = m
      · simp [hnm]
      · have hu' : n ∈ unseen.erase m := (List.mem_erase_of_ne hnm).mpr hu
        rcases ih hu' hn with h | h | h
        · have h : n ∈ succs m ∨ .enter n ∈ stack := by simpa using h
          rcases h with h | h
          · obtain ⟨before, rest, heq, -, henter⟩ :=
              leaveOrder_split succs (unseen.erase m) ((succs m).map .enter) m stack
            exact Or.inr (Or.inr ⟨m, before, _, h, heq, henter n hu' (by simp [h])⟩)
          · simp [h]
        · have h : .leave n ∈ stack := by simpa [hnm] using h
          simp [h]
        · exact Or.inr (Or.inr h)
  | case4 unseen m stack hm ih =>
      rcases ih hu hn with h | h | h
      · simp [h]
      · simp [h]
      · exact Or.inr (Or.inr h)

end Leaving

/-- An order in which sweeps go over a graph: it lists the nodes that can be reached from the
entry, each once, the entry first and every other one behind one of its predecessors. -/
structure IsSweepOrder (g : Digraph) (order : List NodeId) : Prop where
  nodup : order.Nodup
  mem_iff : ∀ n, n ∈ order ↔ g.Reachable g.entry n
  head : order.head? = some g.entry
  earlier_pred : ∀ n, n ∈ order → n ≠ g.entry →
    ∃ p, p ∈ g.preds n ∧ p ∈ order ∧ order.idxOf p < order.idxOf n

theorem IsSweepOrder.lt_size
    {g : Digraph}
    {order : List NodeId}
    (ho : g.IsSweepOrder order)
    (hwf : g.WellFormed)
    (hentry : g.entry < g.size)
    {n : NodeId}
    (hn : n ∈ order) :
    n < g.size := by
  obtain ⟨nodes, w⟩ := (ho.mem_iff n).mp hn
  cases w with
  | here => exact hentry
  | step _ hs => exact hwf.target_lt _ _ hs

/-- Different nodes in slots are no more than there are slots. -/
theorem IsSweepOrder.length_le
    {g : Digraph}
    {order : List NodeId}
    (ho : g.IsSweepOrder order)
    (hwf : g.WellFormed)
    (hentry : g.entry < g.size) :
    order.length ≤ g.size := by
  have hsub : order ⊆ List.range g.size := fun n hn =>
    List.mem_range.mpr (ho.lt_size hwf hentry hn)
  have hlen := (List.subperm_of_subset ho.nodup hsub).length_le
  rwa [List.length_range] at hlen

/-- What holds of all nodes on the stack and is handed on along edges holds of all nodes left. -/
theorem leaveOrder_forall
    (succs : NodeId → List NodeId)
    {P : NodeId → Prop}
    (hstep : ∀ a b, P a → b ∈ succs a → P b)
    {unseen : List NodeId}
    {stack : List Visit}
    (henter : ∀ n, .enter n ∈ stack → P n)
    (hleave : ∀ n, .leave n ∈ stack → P n) :
    ∀ n, n ∈ leaveOrder succs unseen stack → P n := by
  fun_induction leaveOrder succs unseen stack with
  | case1 => simp
  | case2 unseen m stack ih =>
      intro n hn
      rcases List.mem_cons.mp hn with rfl | hn
      · exact hleave n (by simp)
      · exact ih (fun k hk => henter k (by simp [hk])) (fun k hk => hleave k (by simp [hk])) n hn
  | case3 unseen m stack hm ih =>
      have hPm : P m := henter m (by simp)
      apply ih
      · intro k hk
        have hk : k ∈ succs m ∨ .enter k ∈ stack := by simpa using hk
        rcases hk with hk | hk
        · exact hstep m k hPm hk
        · exact henter k (by simp [hk])
      · intro k hk
        have hk : k = m ∨ .leave k ∈ stack := by simpa using hk
        rcases hk with rfl | hk
        · exact hPm
        · exact hleave k (by simp [hk])
  | case4 unseen m stack hm ih =>
      exact ih (fun k hk => henter k (by simp [hk])) (fun k hk => hleave k (by simp [hk]))

section Postorder

variable {g : Digraph} {start : NodeId}

theorem postorder_nodup
    (g : Digraph)
    (start : NodeId) :
    (g.postorder start).Nodup :=
  leaveOrder_nodup g.succs (by simpa [leaves] using List.nodup_range)

/-- The start is left last. -/
theorem exists_postorder_eq
    (hstart : start < g.size) :
    ∃ before, g.postorder start = before ++ [start] := by
  have hmem : start ∈ List.range g.size := List.mem_range.mpr hstart
  obtain ⟨before, rest, heq, -, -⟩ :=
    leaveOrder_split g.succs ((List.range g.size).erase start) ((g.succs start).map .enter) start []
  refine ⟨before, ?_⟩
  simp [postorder, leaveOrder, hmem, heq]

/-- The postorder has the nodes that can be reached and no others. -/
theorem mem_postorder_iff
    (hwf : g.WellFormed)
    (hstart : start < g.size)
    (n : NodeId) :
    n ∈ g.postorder start ↔ g.Reachable start n := by
  constructor
  · refine leaveOrder_forall g.succs (fun a b ha hb => ha.step hb) ?_ (by simp) n
    intro k hk
    have hk : k = start := by simpa using hk
    exact hk ▸ Reachable.refl g start
  · rintro ⟨nodes, w⟩
    induction w with
    | here => exact mem_leaveOrder_of_enter g.succs (List.mem_range.mpr hstart) (by simp)
    | @step b c nodes w hc ih =>
        have hb : b ∈ List.range g.size := List.mem_range.mpr (hwf.source_lt b c hc)
        have hc' : c ∈ List.range g.size := List.mem_range.mpr (hwf.target_lt b c hc)
        exact succ_mem_leaveOrder g.succs (by simpa [leaves] using List.nodup_range) hb ih hc hc'

/-- A node other than the start is left before one of its predecessors. -/
theorem exists_pred_behind
    (hwf : g.WellFormed)
    {n : NodeId}
    (hn : n ∈ g.postorder start)
    (hne : n ≠ start) :
    ∃ p before behind,
      p ∈ g.preds n ∧ g.postorder start = before ++ p :: behind ∧ n ∈ before := by
  have hu : n ∈ List.range g.size := by
    rcases mem_of_mem_leaveOrder g.succs hn with h | h
    · simp at h
    · exact h
  rcases entered_or_before_pred g.succs hu hn with h | h | ⟨p, before, behind, hp, heq, hb⟩
  · exact absurd (by simpa using h) hne
  · simp at h
  · exact ⟨p, before, behind, (hwf.mem_preds p n).mpr hp, heq, hb⟩

end Postorder

/-- What stands behind a node of a list without repetitions has a larger index. -/
theorem idxOf_lt_of_nodup
    {before behind : List NodeId}
    {p n : NodeId}
    (hnodup : (before ++ p :: behind).Nodup)
    (hn : n ∈ behind) :
    (before ++ p :: behind).idxOf p < (before ++ p :: behind).idxOf n := by
  have hdisjoint := List.disjoint_of_nodup_append hnodup
  have hp : p ∉ before := fun h => hdisjoint h (by simp)
  have hn' : n ∉ before := fun h => hdisjoint h (by simp [hn])
  have hne : p ≠ n := by
    rintro rfl
    exact (List.nodup_cons.mp (List.nodup_append.mp hnodup).2.1).1 hn
  rw [List.idxOf_append_of_notMem hp, List.idxOf_append_of_notMem hn']
  simp [hne]

/-- The reverse postorder from the entry is an order for sweeps. -/
theorem reversePostorder_isSweepOrder
    {g : Digraph}
    (hwf : g.WellFormed)
    (hentry : g.entry < g.size) :
    g.IsSweepOrder (g.reversePostorder g.entry) := by
  refine ⟨?_, ?_, ?_, ?_⟩
  · exact List.nodup_reverse.mpr (postorder_nodup g g.entry)
  · intro n
    rw [reversePostorder, List.mem_reverse, mem_postorder_iff hwf hentry]
  · obtain ⟨before, heq⟩ := exists_postorder_eq hentry
    simp [reversePostorder, heq]
  · intro n hn hne
    obtain ⟨p, before, behind, hp, heq, hb⟩ :=
      exists_pred_behind hwf (List.mem_reverse.mp hn) hne
    have horder : g.reversePostorder g.entry = behind.reverse ++ p :: before.reverse := by
      simp [reversePostorder, heq]
    have hnodup : (behind.reverse ++ p :: before.reverse).Nodup := by
      rw [← horder]
      exact List.nodup_reverse.mpr (postorder_nodup g g.entry)
    refine ⟨p, hp, by simp [horder], ?_⟩
    rw [horder]
    exact idxOf_lt_of_nodup hnodup (by simpa using hb)

end Digraph
end DalvikDecompiler
