import DalvikDecompiler.Proofs.Digraph.Dominance
import DalvikDecompiler.Proofs.Digraph.Intervals
import DalvikDecompiler.Proofs.FlowGraph.Topological

/-!
# Reducible graphs

A graph is reducible when every cycle leads back to a node that dominates the source of the edge
that closes it.  A depth-first traversal shows this at its retreating edges already: the target of
such an edge has been entered and not yet left when the source is, so that the edge closes a cycle
of nodes that are all left before the target.

**Results.**
* `leaveOrder_retreat`: a node that is left behind its source leads to it, through nodes that are
  left before it.
* `reducible_iff`: a graph is reducible exactly when all retreating edges of the
  reverse postorder lead to dominators.
* `Reducible.contracts`: a reducible graph has a node with one predecessor, if no node leads to
  itself and there are any nodes but the entry.
-/

namespace DalvikDecompiler
namespace Digraph

section Dominators

variable {g : Digraph} {order : List NodeId} {a b d n : NodeId}

theorem dominates_self
    (g : Digraph)
    (n : NodeId) :
    g.Dominates n n :=
  fun _ w => w.target_mem

theorem dominates_entry
    (g : Digraph)
    (n : NodeId) :
    g.Dominates g.entry n :=
  fun _ w => w.source_mem

theorem Dominates.trans
    (h : g.Dominates a b)
    (h' : g.Dominates b n) :
    g.Dominates a n := by
  intro nodes w
  obtain ⟨front, behind, rfl⟩ := List.append_of_mem (h' nodes w)
  have hbefore := h _ (w.split rfl).1
  rw [List.mem_append, List.mem_singleton] at hbefore
  rcases hbefore with hbefore | rfl <;> simp [*]

/-- A node dominates all that is entered only through it. -/
theorem dominates_of_closed
    (hwellFormed : g.WellFormed)
    (region : List NodeId)
    (houtside : g.entry ∉ region.erase d)
    (hclosed : ∀ n ∈ region, n ≠ d → ∀ p ∈ g.preds n, p ∈ region)
    (hmem : n ∈ region) :
    g.Dominates d n := by
  intro nodes w
  induction w with
  | here =>
      by_contra hother
      have hdiffer : g.entry ≠ d := fun hsame => hother (List.mem_singleton.2 hsame.symm)
      exact houtside ((List.mem_erase_of_ne hdiffer).2 hmem)
  | @step p n nodes w hsucc ih =>
      by_cases here : n = d
      · exact List.mem_append_right _ (List.mem_singleton.2 here.symm)
      · exact List.mem_append_left _
          (ih (hclosed n hmem here p ((hwellFormed.mem_preds p n).2 hsucc)))

/-- Every node can be reached through nodes that do not stand behind it. -/
theorem IsSweepOrder.exists_walk
    (ho : g.IsSweepOrder order)
    (hwellFormed : g.WellFormed)
    (hmem : n ∈ order) :
    ∃ nodes, g.Walk g.entry n nodes ∧ ∀ m ∈ nodes, order.idxOf m ≤ order.idxOf n := by
  induction hplace : order.idxOf n using Nat.strong_induction_on generalizing n with
  | _ k ih =>
      subst hplace
      by_cases hstart : n = g.entry
      · subst hstart
        exact ⟨_, .here, fun m here => (List.mem_singleton.1 here) ▸ Nat.le_refl _⟩
      · obtain ⟨p, hpred, hlisted, hlt⟩ := ho.earlier_pred n hmem hstart
        obtain ⟨nodes, w, hle⟩ := ih _ hlt hlisted rfl
        refine ⟨_, w.step ((hwellFormed.mem_preds p n).1 hpred), fun m hon => ?_⟩
        rcases List.mem_append.1 hon with hon | here
        · exact (hle m hon).trans hlt.le
        · exact (List.mem_singleton.1 here) ▸ Nat.le_refl _

/-- A node does not stand behind one that it dominates. -/
theorem IsSweepOrder.idxOf_le_of_dominates
    (ho : g.IsSweepOrder order)
    (hwellFormed : g.WellFormed)
    (hmem : n ∈ order)
    (hdominates : g.Dominates d n) :
    order.idxOf d ≤ order.idxOf n := by
  obtain ⟨nodes, w, hle⟩ := ho.exists_walk hwellFormed hmem
  exact hle d (hdominates nodes w)

/-- What dominates a node that can be reached can be reached. -/
theorem Dominates.reachable
    (h : g.Dominates d n)
    (hreached : g.Reachable g.entry n) :
    g.Reachable g.entry d := by
  obtain ⟨nodes, w⟩ := hreached
  obtain ⟨front, behind, rfl⟩ := List.append_of_mem (h nodes w)
  exact ⟨_, (w.split rfl).1⟩

/-- A node that strictly dominates another one stands in front of it. -/
theorem IsSweepOrder.idxOf_lt_of_strictlyDominates
    (ho : g.IsSweepOrder order)
    (hwellFormed : g.WellFormed)
    (hmem : n ∈ order)
    (hdominates : g.StrictlyDominates d n) :
    order.idxOf d < order.idxOf n := by
  refine lt_of_le_of_ne (ho.idxOf_le_of_dominates hwellFormed hmem hdominates.2) fun hsame => ?_
  have hlisted := (ho.mem_iff d).2 (hdominates.2.reachable ((ho.mem_iff n).1 hmem))
  exact hdominates.1 ((List.idxOf_inj hlisted).1 hsame)

/-- Walks to two different nodes that dominate each other would get shorter for ever. -/
theorem Walk.absurd_of_dominates
    {nodes : List NodeId}
    (w : g.Walk g.entry b nodes)
    (hdiffer : a ≠ b)
    (h : g.Dominates a b)
    (h' : g.Dominates b a) :
    False := by
  induction hlength : nodes.length using Nat.strong_induction_on generalizing a b nodes with
  | _ k ih =>
      subst hlength
      obtain ⟨front, behind, rfl⟩ := List.append_of_mem (h nodes w)
      obtain ⟨hbefore, hafter⟩ := w.split rfl
      have hlater : behind ≠ [] := by
        rintro rfl
        obtain ⟨rest, hlast⟩ := hafter.exists_eq_append
        have hboth := congrArg List.getLast? hlast
        rw [List.getLast?_append, List.getLast?_singleton, List.getLast?_singleton] at hboth
        exact hdiffer (Option.some.inj hboth)
      have hshorter : (front ++ [a]).length < (front ++ a :: behind).length := by
        have := List.length_pos_iff.2 hlater
        simp only [List.length_append, List.length_cons, List.length_nil]
        omega
      exact ih _ hshorter hbefore hdiffer.symm h' h rfl

/-- Two nodes that dominate each other are the same. -/
theorem Dominates.antisymm
    (hreached : g.Reachable g.entry b)
    (h : g.Dominates a b)
    (h' : g.Dominates b a) :
    a = b := by
  obtain ⟨nodes, w⟩ := hreached
  by_contra hdiffer
  exact w.absurd_of_dominates hdiffer h h'

end Dominators

section Retreating

variable {g : Digraph} {unseen : List NodeId} {stack : List Visit} {m n s : NodeId}

/-- What is left between entering and leaving a node can be reached from it without leaving that
range. -/
theorem leaveOrder_inside
    (hentered : m ∈ unseen)
    (hnodup : unseen.Nodup) :
    ∃ inside later,
      leaveOrder g.succs unseen (.enter m :: stack) = inside ++ m :: later ∧
      (∀ n ∈ inside, ∃ nodes, g.Walk m n nodes ∧ ∀ k ∈ nodes, k ∈ inside ∨ k = m) ∧
      ∀ n, n ∈ unseen → n ≠ m → n ∈ g.succs m → n ∈ inside := by
  obtain ⟨rest, heq⟩ :=
    @leaveOrder_append g.succs (unseen.erase m) ((g.succs m).map .enter) (.leave m :: stack)
  have hdistinct : (leaveOrder g.succs (unseen.erase m) ((g.succs m).map .enter)).Nodup := by
    have hnone := leaves_enter_append (g.succs m) []
    rw [List.append_nil] at hnone
    refine leaveOrder_nodup g.succs ?_
    rw [hnone]
    simpa [leaves] using hnodup.erase m
  refine ⟨_, leaveOrder g.succs rest stack, by simpa [leaveOrder, hentered] using heq, ?_, ?_⟩
  · generalize hsame : leaveOrder g.succs (unseen.erase m) ((g.succs m).map .enter) = inside
      at hdistinct
    intro n hmem
    -- A node that was not entered from the start is left in front of one that leads to it.
    induction hplace : inside.length - inside.idxOf n using Nat.strong_induction_on
      generalizing n with
    | _ k ih =>
        subst hplace
        have hunseen : n ∈ unseen.erase m :=
          (mem_of_mem_leaveOrder g.succs (hsame ▸ hmem)).resolve_left (by simp)
        rcases entered_or_before_pred g.succs hunseen (hsame ▸ hmem) with
          hstart | hleaving | ⟨p, before, behind, hsucc, hshape, hfront⟩
        · exact ⟨_, Walk.here.step (by simpa using hstart), by simp [hmem]⟩
        · simp at hleaving
        · rw [hsame] at hshape
          have hlisted : p ∈ inside := by simp [hshape]
          have hlater : inside.idxOf n < inside.idxOf p := by
            have hfresh : p ∉ before := fun hagain =>
              List.disjoint_of_nodup_append (hshape ▸ hdistinct) hagain List.mem_cons_self
            rw [hshape, List.idxOf_append_of_mem hfront, List.idxOf_append_of_notMem hfresh]
            exact Nat.lt_add_right _ (List.idxOf_lt_length_of_mem hfront)
          obtain ⟨nodes, w, hwithin⟩ :=
            ih _ (by have := List.idxOf_lt_length_of_mem hlisted; omega) p hlisted rfl
          refine ⟨_, w.step hsucc, fun k hon => ?_⟩
          rcases List.mem_append.1 hon with hon | here
          · exact hwithin k hon
          · exact .inl ((List.mem_singleton.1 here) ▸ hmem)
  · intro n hknown hother hsucc
    exact mem_leaveOrder_of_enter g.succs ((List.mem_erase_of_ne hother).2 hknown)
      (by simpa using hsucc)

/-- A successor is left before its source, or it leads to its source through nodes that are left
before it. -/
theorem leaveOrder_retreat
    (hnodup : (leaves stack ++ unseen).Nodup)
    (hknown : n ∈ unseen)
    (hleft : n ∈ leaveOrder g.succs unseen stack)
    (hsucc : s ∈ g.succs n)
    (hfresh : s ∈ unseen) :
    (∃ before behind, leaveOrder g.succs unseen stack = before ++ n :: behind ∧ s ∈ before) ∨
      ∃ before behind nodes, leaveOrder g.succs unseen stack = before ++ s :: behind ∧
        g.Walk s n nodes ∧ ∀ k ∈ nodes, k ∈ before ∨ k = s := by
  fun_induction leaveOrder g.succs unseen stack with
  | case1 => simp at hleft
  | case2 unseen m stack ih =>
      have hnodup : m ∉ leaves stack ++ unseen ∧ (leaves stack ++ unseen).Nodup := by
        simpa only [leaves, List.cons_append, List.nodup_cons] using hnodup
      have hother : n ≠ m := by
        rintro rfl
        exact hnodup.1 (List.mem_append_right _ hknown)
      rcases ih hnodup.2 hknown (List.mem_of_ne_of_mem hother hleft) hfresh with
        ⟨before, behind, hshape, hmem⟩ | ⟨before, behind, nodes, hshape, w, hwithin⟩
      · exact .inl ⟨m :: before, behind, by simp [hshape], by simp [hmem]⟩
      · refine .inr ⟨m :: before, behind, nodes, by simp [hshape], w, fun k hon => ?_⟩
        exact (hwithin k hon).imp_left (List.mem_cons_of_mem m)
  | case3 unseen m stack hentered ih =>
      obtain ⟨inside, later, hshape, hinner, hsuccs⟩ :=
        @leaveOrder_inside g unseen stack m hentered (List.nodup_append.1 hnodup).2.1
      rw [leaveOrder, if_pos hentered] at hshape
      by_cases here : n = m
      · subst here
        by_cases hsame : s = n
        · subst hsame
          exact .inr ⟨inside, later, [s], hshape, .here, by simp⟩
        · exact .inl ⟨inside, later, hshape, hsuccs s hfresh hsame hsucc⟩
      · by_cases htarget : s = m
        · subst htarget
          rw [hshape] at hleft
          rcases List.mem_append.1 hleft with hmem | hmem
          · obtain ⟨nodes, w, hwithin⟩ := hinner n hmem
            exact .inr ⟨inside, later, nodes, hshape, w, hwithin⟩
          · obtain ⟨before, behind, rfl⟩ := List.append_of_mem (List.mem_of_ne_of_mem here hmem)
            exact .inl ⟨inside ++ s :: before, behind, by simp [hshape], by simp⟩
        · exact ih (nodup_of_enter g.succs hentered hnodup)
            ((List.mem_erase_of_ne here).2 hknown) hleft
            ((List.mem_erase_of_ne htarget).2 hfresh)
  | case4 unseen m stack hseen ih => exact ih hnodup hknown hleft hfresh

/-- **Retreating edges close cycles.**  The target of an edge that does not lead on in the reverse
postorder leads to the source through nodes that do not stand in front of it. -/
theorem reversePostorder_retreat
    (hwellFormed : g.WellFormed)
    {start u v : NodeId}
    (hmem : u ∈ g.reversePostorder start)
    (hsucc : v ∈ g.succs u)
    (hle : (g.reversePostorder start).idxOf v ≤ (g.reversePostorder start).idxOf u) :
    ∃ nodes, g.Walk v u nodes ∧
      ∀ k ∈ nodes, (g.reversePostorder start).idxOf v ≤ (g.reversePostorder start).idxOf k := by
  have hnodup : (g.reversePostorder start).Nodup := List.nodup_reverse.2 (postorder_nodup g start)
  have hcases := @leaveOrder_retreat g (List.range g.size) [.enter start] u v
    (by simpa [leaves] using List.nodup_range) (List.mem_range.2 (hwellFormed.source_lt u v hsucc))
    (List.mem_reverse.1 hmem) hsucc (List.mem_range.2 (hwellFormed.target_lt u v hsucc))
  rcases hcases with ⟨before, behind, hshape, hfront⟩ | ⟨before, behind, nodes, hshape, w, hwithin⟩
  · have horder : g.reversePostorder start = behind.reverse ++ u :: before.reverse := by
      simp [reversePostorder, postorder, hshape]
    have hlt := idxOf_lt_of_nodup (horder ▸ hnodup) (n := v) (by simpa using hfront)
    rw [horder] at hle
    omega
  · have horder : g.reversePostorder start = behind.reverse ++ v :: before.reverse := by
      simp [reversePostorder, postorder, hshape]
    refine ⟨nodes, w, fun k hon => ?_⟩
    rcases hwithin k hon with hfront | rfl
    · rw [horder]
      exact (idxOf_lt_of_nodup (horder ▸ hnodup) (by simpa using hfront)).le
    · exact Nat.le_refl _

end Retreating

/-- An edge that does not lead back to a node that dominates its source. -/
def ForwardEdge (g : Digraph) (a b : NodeId) : Prop :=
  b ∈ g.succs a ∧ ¬ g.Dominates b a

/-- Whether a graph has no cycles but through edges that lead back to dominators. -/
def Reducible (g : Digraph) : Prop :=
  ∀ n, ¬ Relation.TransGen g.ForwardEdge n n

/-- Whether all edges that do not lead on in an order lead to dominators. -/
def RetreatsToDominators (g : Digraph) (order : List NodeId) : Prop :=
  ∀ u v, g.Reachable g.entry u → v ∈ g.succs u → order.idxOf v ≤ order.idxOf u → g.Dominates v u

section Reducible

variable {g : Digraph} {order : List NodeId} {a b n v : NodeId}

theorem ForwardEdge.reachable
    (h : g.ForwardEdge a b) :
    g.Reachable g.entry a := by
  obtain ⟨nodes, hmissed⟩ := not_forall.1 h.2
  exact ⟨nodes, (Classical.not_imp.1 hmissed).1⟩

theorem RetreatsToDominators.idxOf_lt
    (h : g.RetreatsToDominators order)
    (hpath : Relation.TransGen g.ForwardEdge a b) :
    order.idxOf a < order.idxOf b := by
  have hstep {a b : NodeId} (hedge : g.ForwardEdge a b) : order.idxOf a < order.idxOf b :=
    Nat.lt_of_not_le fun hle => hedge.2 (h a b hedge.reachable hedge.1 hle)
  induction hpath with
  | single hedge => exact hstep hedge
  | tail _ hedge ih => exact ih.trans (hstep hedge)

/-- What dominates the end of a path of forward edges stands on it or dominates its start. -/
theorem dominates_or_forward
    (hpath : Relation.ReflTransGen g.ForwardEdge v a)
    (hdominates : g.Dominates b a) :
    g.Dominates b v ∨ Relation.ReflTransGen g.ForwardEdge v b := by
  induction hpath with
  | refl => exact .inl hdominates
  | @tail c a hpath hedge ih =>
      by_cases hsame : b = a
      · exact .inr (hsame ▸ hpath.tail hedge)
      · exact ih (hdominates.of_pred hsame hedge.1)

/-- A walk on which no node stands in front of its start can be made of forward edges. -/
theorem forward_of_walk
    (ho : g.IsSweepOrder order)
    (hwellFormed : g.WellFormed)
    (hmem : v ∈ order)
    {nodes : List NodeId}
    (w : g.Walk v n nodes)
    (hbehind : ∀ k ∈ nodes, order.idxOf v ≤ order.idxOf k) :
    Relation.ReflTransGen g.ForwardEdge v n := by
  induction w with
  | here => exact .refl
  | @step b c nodes w hsucc ih =>
      have hpath := ih fun k hon => hbehind k (List.mem_append_left _ hon)
      by_cases hdominates : g.Dominates c b
      · rcases dominates_or_forward hpath hdominates with habove | hthere
        · have hle := ho.idxOf_le_of_dominates hwellFormed hmem habove
          have hlisted := (ho.mem_iff c).2 (habove.reachable ((ho.mem_iff v).1 hmem))
          have hsame := (List.idxOf_inj hlisted).1
            (hle.antisymm (hbehind c (List.mem_append_right _ List.mem_cons_self)))
          exact hsame ▸ .refl
        · exact hthere
      · exact hpath.tail ⟨hsucc, hdominates⟩

/-- A graph is reducible if its edges lead to larger slots, or else to dominators. -/
theorem reducible_of_increasing
    (hincreasing : ∀ a b, b ∈ g.succs a → a < b ∨ g.Dominates b a) :
    g.Reducible := by
  intro n hcycle
  have hstep (a b : NodeId) (hedge : g.ForwardEdge a b) : a < b :=
    (hincreasing a b hedge.1).resolve_right hedge.2
  exact absurd (Relation.TransGen.lift id hstep n n hcycle)
    (by rw [Relation.transGen_eq_self]; exact Nat.lt_irrefl n)

/-- **Reducibility shows at the retreating edges of a depth-first traversal.** -/
theorem reducible_iff
    (hwellFormed : g.WellFormed)
    (hentry_lt : g.entry < g.size) :
    g.Reducible ↔ g.RetreatsToDominators (g.reversePostorder g.entry) := by
  have ho := reversePostorder_isSweepOrder hwellFormed hentry_lt
  refine ⟨fun hacyclic u v hreached hsucc hle => ?_, fun hretreats n hcycle =>
    absurd (hretreats.idxOf_lt hcycle) (Nat.lt_irrefl _)⟩
  by_contra hforward
  obtain ⟨nodes, w, hbehind⟩ :=
    reversePostorder_retreat hwellFormed ((ho.mem_iff u).2 hreached) hsucc hle
  have hmem := (ho.mem_iff v).2 (hreached.step hsucc)
  exact hacyclic u (.head' ⟨hsucc, hforward⟩ (forward_of_walk ho hwellFormed hmem w hbehind))

/-- Whether a node other than the entry is led to from one node only, which is another one. -/
structure SolePred (g : Digraph) (p n : NodeId) : Prop where
  reachable : g.Reachable g.entry n
  not_entry : n ≠ g.entry
  differ : p ≠ n
  only : ∀ q ∈ g.preds n, q = p

/-- Whether a graph has one node, or a node with only one predecessor. -/
def Contracts (g : Digraph) : Prop :=
  (∀ n, g.Reachable g.entry n → n = g.entry) ∨ ∃ p n, g.SolePred p n

/-- **A reducible graph without edges from nodes to themselves can be contracted.**  The last node
that dominates others is the only predecessor of the first one of these. -/
theorem Reducible.contracts
    (hg : g.Rooted)
    (hreducible : g.Reducible)
    (hloopless : ∀ n, g.Reachable g.entry n → n ∉ g.succs n) :
    g.Contracts := by
  have ho := reversePostorder_isSweepOrder hg.wellFormed hg.entry_lt
  have hretreats := (reducible_iff hg.wellFormed hg.entry_lt).1 hreducible
  generalize g.reversePostorder g.entry = order at ho hretreats
  rw [Contracts, or_iff_not_imp_left, not_forall]
  rintro ⟨other, hreached⟩
  obtain ⟨hreached, hdiffer⟩ := Classical.not_imp.1 hreached
  let below (d : NodeId) : Set NodeId := {n | n ∈ order ∧ g.StrictlyDominates d n}
  have hstart : (below g.entry).Nonempty :=
    ⟨other, (ho.mem_iff other).2 hreached, Ne.symm hdiffer, dominates_entry g other⟩
  obtain ⟨v, hnonempty, hlast⟩ :=
    (measure fun d => order.length - order.idxOf d).wf.has_min {d | (below d).Nonempty} ⟨_, hstart⟩
  obtain ⟨x, ⟨hmem, hdominates⟩, hfirst⟩ := (measure order.idxOf).wf.has_min (below v) hnonempty
  have hlt := ho.idxOf_lt_of_strictlyDominates hg.wellFormed hmem hdominates
  have hthere := (ho.mem_iff x).1 hmem
  refine ⟨v, x, hthere, fun hentry => ?_, hdominates.1, fun p hpred => ?_⟩
  · subst hentry
    have hzero : order.idxOf g.entry = 0 := by
      obtain ⟨rest, hshape⟩ := List.head?_eq_some_iff.1 ho.head
      rw [hshape, List.idxOf_cons_self]
    omega
  · by_contra hdifferent
    have hsucc := (hg.wellFormed.mem_preds p x).1 hpred
    have hcame := hg.pred_reachable x p hthere hpred
    have hlisted := (ho.mem_iff p).2 hcame
    have hle : order.idxOf x ≤ order.idxOf p := Nat.le_of_not_lt fun hearlier =>
      hfirst p ⟨hlisted, Ne.symm hdifferent, hdominates.2.of_pred hdominates.1 hsucc⟩ hearlier
    have habove : g.StrictlyDominates x p :=
      ⟨fun hsame => hloopless x hthere (hsame ▸ hsucc), hretreats p x hcame hsucc hle⟩
    have hbound := List.idxOf_lt_length_of_mem hmem
    exact hlast x ⟨p, hlisted, habove⟩ (show order.length - order.idxOf x <
      order.length - order.idxOf v by omega)

end Reducible

end Digraph
end DalvikDecompiler
