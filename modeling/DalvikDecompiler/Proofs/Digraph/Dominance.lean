import DalvikDecompiler.Proofs.Digraph.DominatorTree
import DalvikDecompiler.Proofs.Digraph.Reachability
import Mathlib

/-!
# Exactness of dominator trees

**Input.** A well-formed rooted graph and its reverse postorder.

A node dominates another one if every walk from the entry passes through it.
The trees on the way to the final one have too many nodes above each node,
never too few.  Three facts carry this through the sweeps over trees that are
only partly settled:

* every parent has a walk to its child along which numbers stay at least as
  large as its own, so that a node with a smaller number is not on it;
* what is above all predecessors of a node is above the node, so that a node
  only moves up, and sweeps come to an end;
* what is above a node is above its earlier predecessors, as far as the current
  sweep has not moved anything.

**Results.** `compute_exact`: the sweeps come to an end, and dominance,
immediate dominators and nearest common dominators are read off the final tree
exactly.
-/

namespace DalvikDecompiler
namespace Digraph

/-- Whether all walks from the entry to a node pass through another one. -/
def Dominates (g : Digraph) (d n : NodeId) : Prop :=
  ∀ nodes, g.Walk g.entry n nodes → d ∈ nodes

/-- Whether a node dominates another one than itself. -/
def StrictlyDominates (g : Digraph) (d n : NodeId) : Prop :=
  d ≠ n ∧ g.Dominates d n

namespace Dominates

variable {g : Digraph} {d n m : NodeId}

/-- What dominates a node and is not the node itself dominates its predecessors. -/
theorem of_pred
    (h : g.Dominates d n)
    (hne : d ≠ n)
    (hm : n ∈ g.succs m) :
    g.Dominates d m := by
  intro nodes w
  simpa [hne] using h _ (w.step hm)

/-- What dominates the end of a walk but is not on it dominates its start. -/
theorem of_walk
    {nodes : List NodeId}
    (h : g.Dominates d m)
    (w : g.Walk n m nodes)
    (hd : d ∉ nodes) :
    g.Dominates d n := by
  intro before w'
  rcases List.mem_append.mp (h _ (w'.append w)) with h | h
  · exact h
  · exact absurd (List.mem_of_mem_tail h) hd

end Dominates

end Digraph

open DalvikDecompiler.Digraph (IsSweepOrder)

namespace DominatorTree

/-- The number of a node is its position in the order, counted from one. -/
theorem number_foldl_setNumber
    (n : NodeId)
    (order : List NodeId)
    (k : Nat)
    (t : DominatorTree)
    (hnodup : order.Nodup) :
    ((order.zipIdx k).foldl
        (fun tree (entry : NodeId × Nat) => tree.setNumber entry.1 (entry.2 + 1)) t).number n =
      if n ∈ order then k + order.idxOf n + 1 else t.number n := by
  induction order generalizing k t with
  | nil => simp
  | cons m order ih =>
      have hnodup := List.nodup_cons.mp hnodup
      rw [List.zipIdx_cons, List.foldl_cons, ih (k + 1) _ hnodup.2]
      by_cases hnm : n = m
      · subst hnm
        simp [hnodup.1]
      · by_cases hn : n ∈ order
        · have hmn : m ≠ n := fun h => hnm h.symm
          rw [List.idxOf_cons_ne _ hmn]
          simp [hn]
          omega
        · simp [hn, hnm]

theorem numberAll_facts
    (order : List NodeId)
    (k : Nat)
    (t : DominatorTree)
    (hlt : ∀ n, n ∈ order → n < t.size) :
    let numbered := (order.zipIdx k).foldl
      (fun tree (entry : NodeId × Nat) => tree.setNumber entry.1 (entry.2 + 1)) t
    numbered.entry = t.entry ∧ numbered.size = t.size ∧
      ∀ n, numbered.immediateDominator n = t.immediateDominator n := by
  induction order generalizing k t with
  | nil => simp
  | cons m order ih =>
      have hsize := size_setNumber t m (k + 1) (hlt m (by simp))
      have h := ih (k + 1) (t.setNumber m (k + 1))
        (fun n hn => by rw [hsize]; exact hlt n (by simp [hn]))
      rw [hsize] at h
      simpa [List.zipIdx_cons] using h

/-- A tree over the nodes of an order: it has their numbers, parents have smaller numbers than
their children, and there is a walk from each parent to its child along which numbers never get
smaller than that of the parent. -/
structure Numbered (g : Digraph) (order : List NodeId) (t : DominatorTree) : Prop where
  entry : t.entry = g.entry
  size : t.size = g.size
  number : ∀ n, t.number n = if n ∈ order then order.idxOf n + 1 else 0
  parent_mem : ∀ b c, t.immediateDominator b = some c → c ∈ order
  lt : ∀ b c, t.immediateDominator b = some c → t.number c < t.number b
  walk : ∀ b c, t.immediateDominator b = some c →
    ∃ nodes, g.Walk c b nodes ∧ ∀ x, x ∈ nodes → t.number c ≤ t.number x

section Sweeps

variable {g : Digraph} {order : List NodeId} {t : DominatorTree}

namespace Numbered

theorem number_eq
    (h : Numbered g order t)
    {n : NodeId}
    (hn : n ∈ order) :
    t.number n = order.idxOf n + 1 := by
  rw [h.number, if_pos hn]

theorem mem_order
    (h : Numbered g order t)
    {n : NodeId}
    (hn : t.number n ≠ 0) :
    n ∈ order := by
  by_contra hno
  rw [h.number, if_neg hno] at hn
  exact hn rfl

theorem distinct
    (ho : g.IsSweepOrder order)
    (h : Numbered g order t) :
    t.Distinct := by
  constructor
  · intro a b ha hab
    have ha' := h.mem_order ha
    have hb' := h.mem_order (hab ▸ ha)
    rw [h.number_eq ha', h.number_eq hb'] at hab
    exact (List.idxOf_inj ha').mp (Nat.succ.inj hab)
  · rw [h.entry, h.number_eq ((ho.mem_iff _).mpr (.refl g g.entry))]
    exact Nat.succ_ne_zero _

theorem ranked
    (hwf : g.WellFormed)
    (hentry : g.entry < g.size)
    (ho : g.IsSweepOrder order)
    (h : Numbered g order t) :
    t.Ranked := by
  refine ⟨h.lt, fun n => ?_⟩
  rw [h.size]
  by_cases hn : n ∈ order
  · rw [h.number_eq hn]
    exact Nat.le_trans (Nat.succ_le_of_lt (List.idxOf_lt_length_of_mem hn))
      (ho.length_le hwf hentry)
  · rw [h.number, if_neg hn]
    exact Nat.zero_le _

/-- The nodes in front of a node are those with smaller numbers. -/
theorem mem_done_iff
    (ho : g.IsSweepOrder order)
    (h : Numbered g order t)
    {done rest : List NodeId}
    {n : NodeId}
    (horder : order = done ++ n :: rest)
    (m : NodeId) :
    m ∈ done ↔ t.number m ≠ 0 ∧ t.number m < t.number n := by
  have hnodup : (done ++ n :: rest).Nodup := horder ▸ ho.nodup
  have hnd : n ∉ done := fun h => List.disjoint_of_nodup_append hnodup h (by simp)
  have hn : t.number n = done.length + 1 := by
    rw [h.number_eq (by simp [horder]), horder, List.idxOf_append_of_notMem hnd]
    simp
  constructor
  · intro hm
    have hlt : done.idxOf m < done.length := List.idxOf_lt_length_of_mem hm
    rw [hn, h.number_eq (by simp [horder, hm]), horder, List.idxOf_append_of_mem hm]
    omega
  · rintro ⟨hm, hlt⟩
    rw [hn, h.number_eq (h.mem_order hm), horder] at hlt
    by_contra hmd
    rw [List.idxOf_append_of_notMem hmd] at hlt
    omega

/-- Between a node and one above it there is a walk with no number smaller than that of the
upper node. -/
theorem exists_walk
    (h : Numbered g order t)
    {a b : NodeId}
    (hab : t.Above a b) :
    ∃ nodes, g.Walk a b nodes ∧ ∀ x, x ∈ nodes → t.number a ≤ t.number x := by
  induction hab with
  | here => exact ⟨[a], .here, by simp⟩
  | @up b c hp hac ih =>
      obtain ⟨nodes, w, hw⟩ := ih
      obtain ⟨more, w', hw'⟩ := h.walk b c hp
      refine ⟨_, w.append w', fun x hx => ?_⟩
      rcases List.mem_append.mp hx with hx | hx
      · exact hw x hx
      · exact Nat.le_trans (hw c w.target_mem) (hw' x (List.mem_of_mem_tail hx))

theorem mem_of_above
    (h : Numbered g order t)
    {a b : NodeId}
    (hab : t.Above a b)
    (hb : b ∈ order) :
    a ∈ order := by
  induction hab with
  | here => exact hb
  | up hp _ ih => exact ih (h.parent_mem _ _ hp)

/-- Nothing else is above the entry. -/
theorem eq_entry_of_above
    (ho : g.IsSweepOrder order)
    (h : Numbered g order t)
    {d : NodeId}
    (hd : t.Above d g.entry) :
    d = g.entry := by
  by_contra hne
  obtain ⟨c, hc, -⟩ := hd.exists_parent hne
  obtain ⟨rest, hrest⟩ := List.head?_eq_some_iff.mp ho.head
  have hlt := h.lt g.entry c hc
  rw [h.number_eq (h.parent_mem _ _ hc), h.number_eq (by simp [hrest]), hrest] at hlt
  simp at hlt

/-- A node may get any parent that is above one of its earlier predecessors. -/
theorem setParent
    (h : Numbered g order t)
    (hr : t.Ranked)
    {n p c : NodeId}
    (hn : n < g.size)
    (hp : n ∈ g.succs p)
    (hpo : p ∈ order)
    (hlt : t.number p < t.number n)
    (hc : t.Above c p) :
    Numbered g order (t.setParent n (some c)) := by
  have hcn : t.number c < t.number n := Nat.lt_of_le_of_lt (hc.number_le hr) hlt
  refine ⟨by simp [h.entry], ?_, fun m => by simp [h.number], ?_, ?_, ?_⟩
  · rw [size_setParent _ _ _ (by rw [h.size]; exact hn), h.size]
  · intro b d hd
    rw [immediateDominator_setParent] at hd
    split at hd
    · cases hd
      exact h.mem_of_above hc hpo
    · exact h.parent_mem b d hd
  · intro b d hd
    rw [number_setParent, number_setParent]
    rw [immediateDominator_setParent] at hd
    split at hd
    · rename_i hb
      cases hd
      rw [hb]
      exact hcn
    · exact h.lt b d hd
  · intro b d hd
    simp only [number_setParent]
    rw [immediateDominator_setParent] at hd
    split at hd
    · rename_i hb
      cases hd
      obtain ⟨nodes, w, hw⟩ := h.exists_walk hc
      refine ⟨nodes ++ [b], w.step (hb ▸ hp), fun x hx => ?_⟩
      rcases List.mem_append.mp hx with hx | hx
      · exact hw x hx
      · rw [List.mem_singleton.mp hx, hb]
        exact Nat.le_of_lt hcn
    · exact h.walk b d hd

end Numbered

/-- Whether a predecessor of a node comes before it in the order. -/
def EarlierPred (g : Digraph) (t : DominatorTree) (p n : NodeId) : Prop :=
  p ∈ g.preds n ∧ t.number p ≠ 0 ∧ t.number p < t.number n

theorem exists_earlierPred
    (ho : g.IsSweepOrder order)
    (h : Numbered g order t)
    {n : NodeId}
    (hn : n ∈ order)
    (hne : n ≠ g.entry) :
    ∃ p, EarlierPred g t p n := by
  obtain ⟨p, hp, hpo, hlt⟩ := ho.earlier_pred n hn hne
  refine ⟨p, hp, ?_, ?_⟩
  · rw [h.number_eq hpo]
    exact Nat.succ_ne_zero _
  · rw [h.number_eq hpo, h.number_eq hn]
    exact Nat.succ_lt_succ hlt

/-- The state of the first sweep when some nodes are done: above a node that is done stand, except
for the node itself, exactly the nodes that are above all its earlier predecessors. -/
structure ForwardSettled (g : Digraph) (order done : List NodeId) (t : DominatorTree) : Prop where
  numbered : Numbered g order t
  settled : ∀ n, n ∈ done → t.Above g.entry n
  only_done : ∀ n c, t.immediateDominator n = some c → n ∈ done
  forward : ∀ n, n ∈ done → n ≠ g.entry → ∀ d,
    (d ≠ n ∧ t.Above d n) ↔ ∀ p, EarlierPred g t p n → t.Above d p

/-- One node of the first sweep. -/
theorem ForwardSettled.step
    (hwf : g.WellFormed)
    (hentry : g.entry < g.size)
    (ho : g.IsSweepOrder order)
    {done rest : List NodeId}
    {n : NodeId}
    (horder : order = done ++ n :: rest)
    (h : ForwardSettled g order done t) :
    ForwardSettled g order (done ++ [n]) (settleForward g t n) := by
  have hr := h.numbered.ranked hwf hentry ho
  have hdist := h.numbered.distinct ho
  have hn : n ∈ order := by simp [horder]
  have hdone := h.numbered.mem_done_iff ho horder
  have hbelow : ∀ m, m ∈ done → ¬ t.Above n m := by
    intro m hm ha
    exact absurd (ha.number_le hr) (Nat.not_le.mpr ((hdone m).mp hm).2)
  by_cases hne : n = g.entry
  · have hstep : settleForward g t n = t := by simp [settleForward, h.numbered.entry, hne]
    rw [hstep]
    refine ⟨h.numbered, ?_, fun m c hc => by simp [h.only_done m c hc], ?_⟩
    · intro m hm
      rcases List.mem_append.mp hm with hm | hm
      · exact h.settled m hm
      · rw [List.mem_singleton.mp hm, hne]
        exact .here
    · intro m hm hme d
      rcases List.mem_append.mp hm with hm | hm
      · exact h.forward m hm hme d
      · exact absurd ((List.mem_singleton.mp hm).trans hne) hme
  · obtain ⟨p₀, hp₀⟩ := exists_earlierPred ho h.numbered hn hne
    have hmem : ∀ p, p ∈ (g.preds n).filter
        (fun p => t.number p != 0 && t.number p < t.number n) ↔ EarlierPred g t p n := by
      intro p
      simp [EarlierPred]
    obtain ⟨c, hfound, hc⟩ := exists_commonDominatorOf hr hdist
      (List.ne_nil_of_mem ((hmem p₀).mpr hp₀))
      (fun p hp => by
        rw [h.numbered.entry]
        have hp := (hmem p).mp hp
        exact h.settled p ((hdone p).mpr hp.2))
    simp only [hmem] at hc
    have hstep : settleForward g t n = t.setParent n (some c) := by
      simp only [settleForward, h.numbered.entry, hne, if_false, hfound]
    have hcp := (hc c).mp .here
    have hnc : ¬ t.Above n c := fun ha =>
      hbelow p₀ ((hdone p₀).mpr hp₀.2) (ha.trans (hcp p₀ hp₀))
    have hnum := h.numbered.setParent hr (hwf.target_lt p₀ n ((hwf.mem_preds _ _).mp hp₀.1))
      ((hwf.mem_preds _ _).mp hp₀.1) (h.numbered.mem_order hp₀.2.1) hp₀.2.2 (hcp p₀ hp₀)
    have hearlier : ∀ p m, EarlierPred g (t.setParent n (some c)) p m ↔ EarlierPred g t p m := by
      intro p m
      simp [EarlierPred]
    rw [hstep]
    refine ⟨hnum, ?_, ?_, ?_⟩
    · intro m hm
      rcases List.mem_append.mp hm with hm | hm
      · exact (above_setParent_of_not_above _ (hbelow m hm)).mpr (h.settled m hm)
      · rw [List.mem_singleton.mp hm, above_setParent_self hnc]
        right
        rw [hc]
        exact fun p hp => h.settled p ((hdone p).mpr hp.2)
    · intro m e he
      rw [immediateDominator_setParent] at he
      split at he
      · rename_i hmn
        simp [hmn]
      · simp [h.only_done m e he]
    · intro m hm hme d
      simp only [hearlier]
      rcases List.mem_append.mp hm with hm | hm
      · have hpm : ∀ p, EarlierPred g t p m → ¬ t.Above n p := by
          intro p hp ha
          have h1 := ha.number_le hr
          have h2 := hp.2.2
          have h3 := ((hdone m).mp hm).2
          omega
        rw [above_setParent_of_not_above _ (hbelow m hm), h.forward m hm hme d]
        exact forall_congr' fun p => imp_congr_right fun hp =>
          (above_setParent_of_not_above _ (hpm p hp)).symm
      · have hmn : m = n := List.mem_singleton.mp hm
        subst hmn
        rw [above_setParent_self hnc, hc]
        have hdn : (∀ p, EarlierPred g t p m → t.Above d p) → d ≠ m := by
          rintro hall rfl
          exact hbelow p₀ ((hdone p₀).mpr hp₀.2) (hall p₀ hp₀)
        have hsame : (∀ p, EarlierPred g t p m → (t.setParent m (some c)).Above d p) ↔
            ∀ p, EarlierPred g t p m → t.Above d p :=
          forall_congr' fun p => imp_congr_right fun hp =>
            above_setParent_of_not_above _ (hbelow p ((hdone p).mpr hp.2))
        rw [hsame]
        constructor
        · rintro ⟨hdm, rfl | hall⟩
          · exact absurd rfl hdm
          · exact hall
        · exact fun hall => ⟨hdn hall, Or.inr hall⟩

/-- The whole first sweep. -/
theorem ForwardSettled.run
    (hwf : g.WellFormed)
    (hentry : g.entry < g.size)
    (ho : g.IsSweepOrder order)
    (rest : List NodeId)
    {done : List NodeId}
    (horder : order = done ++ rest)
    (h : ForwardSettled g order done t) :
    ForwardSettled g order order (rest.foldl (settleForward g) t) := by
  induction rest generalizing done t with
  | nil =>
      rw [List.append_nil] at horder
      exact horder ▸ h
  | cons n rest ih =>
      rw [List.foldl_cons]
      exact ih (by simp [horder]) (h.step hwf hentry ho horder)

/-- The state of a later sweep that has come to the nodes numbered `k` and more. -/
structure Sweeping (g : Digraph) (order : List NodeId) (k : Nat) (t : DominatorTree) : Prop where
  numbered : Numbered g order t
  settled : ∀ n, n ∈ order → t.Above g.entry n
  /-- No dominator is missing. -/
  complete : ∀ n d, n ∈ order → g.Dominates d n → t.Above d n
  /-- A node can only move up. -/
  bounded : ∀ n d, n ∈ order → n ≠ g.entry →
    (∀ p, p ∈ g.preds n → p ∈ order → t.Above d p) → t.Above d n
  /-- What the sweep has not moved yet, and what it has dealt with already, agrees with the earlier
  predecessors. -/
  forward : ∀ n d p, n ∈ order → n ≠ g.entry → d ≠ n → t.Above d n →
    t.number n < k ∨ k ≤ t.number d → EarlierPred g t p n → t.Above d p

/-- A node above which exactly the nodes above all its predecessors stand. -/
def Balanced (g : Digraph) (order : List NodeId) (t : DominatorTree) (n : NodeId) : Prop :=
  ∀ d p, d ≠ n → t.Above d n → p ∈ g.preds n → p ∈ order → t.Above d p

/-- After the first sweep no dominator is missing. -/
theorem ForwardSettled.above_of_dominates
    (hwf : g.WellFormed)
    (h : ForwardSettled g order order t)
    {n d : NodeId}
    (hn : n ∈ order)
    (hd : g.Dominates d n) :
    t.Above d n := by
  -- by induction on the number of the node
  induction hk : t.number n using Nat.strong_induction_on generalizing n with
  | _ k ih =>
      by_cases hdn : d = n
      · exact hdn ▸ .here
      · have hne : n ≠ g.entry := by
          rintro rfl
          exact hdn (List.mem_singleton.mp (hd _ .here))
        apply And.right
        rw [h.forward n hn hne d]
        intro p hp
        have hs := (hwf.mem_preds p n).mp hp.1
        exact ih _ (hk ▸ hp.2.2) (h.numbered.mem_order hp.2.1) (hd.of_pred hdn hs) rfl

/-- After the first sweep all later ones may begin. -/
theorem ForwardSettled.sweeping
    (hwf : g.WellFormed)
    (h : ForwardSettled g order order t)
    (k : Nat) :
    Sweeping g order k t := by
  refine ⟨h.numbered, h.settled, fun n d hn => h.above_of_dominates hwf hn, ?_, ?_⟩
  · intro n d hn hne hall
    apply And.right
    rw [h.forward n hn hne d]
    exact fun p hp => hall p hp.1 (h.numbered.mem_order hp.2.1)
  · intro n d p hn hne hdn hd _ hp
    exact (h.forward n hn hne d).mp ⟨hdn, hd⟩ p hp

/-- The numbers of all parents together. -/
def weight (order : List NodeId) (t : DominatorTree) : Nat :=
  (order.map fun n => (t.immediateDominator n).elim 0 t.number).sum

theorem weight_setParent_lt
    {n b c : NodeId}
    (hn : n ∈ order)
    (hb : t.immediateDominator n = some b)
    (hlt : t.number c < t.number b) :
    weight order (t.setParent n (some c)) < weight order t := by
  apply List.sum_lt_sum
  · intro m _
    rw [immediateDominator_setParent]
    split
    · rename_i hmn
      simpa [hmn, hb] using Nat.le_of_lt hlt
    · cases t.immediateDominator m <;> simp
  · exact ⟨n, hn, by simpa [hb] using hlt⟩

/-- The predecessors that stand in a settled tree are those in the order. -/
theorem Sweeping.mem_settledPreds
    {k : Nat}
    (h : Sweeping g order k t)
    {n p : NodeId} :
    p ∈ settledPreds g t n ↔ p ∈ g.preds n ∧ p ∈ order := by
  simp only [settledPreds, List.mem_filter, Bool.and_eq_true, bne_iff_ne, Bool.or_eq_true,
    beq_iff_eq]
  constructor
  · rintro ⟨hp, hnum, -⟩
    exact ⟨hp, h.numbered.mem_order hnum⟩
  · rintro ⟨hp, hpo⟩
    refine ⟨hp, ?_, ?_⟩
    · rw [h.numbered.number_eq hpo]
      exact Nat.succ_ne_zero _
    · by_cases hpe : p = t.entry
      · exact Or.inl hpe
      · have hne : g.entry ≠ p := fun e => hpe (by rw [h.numbered.entry, e])
        obtain ⟨c, hc, -⟩ := (h.settled p hpo).exists_parent hne
        exact Or.inr (by rw [hc]; rfl)

/-- What a step of a sweep finds for a node: the nodes above it are those above all its
predecessors. -/
theorem Sweeping.exists_found
    (hwf : g.WellFormed)
    (hentry : g.entry < g.size)
    (ho : g.IsSweepOrder order)
    {k : Nat}
    (h : Sweeping g order k t)
    {n : NodeId}
    (hn : n ∈ order)
    (hne : n ≠ g.entry) :
    ∃ c, t.commonDominatorOf (settledPreds g t n) = some c ∧
      ∀ d, t.Above d c ↔ ∀ p, p ∈ g.preds n → p ∈ order → t.Above d p := by
  have hr := h.numbered.ranked hwf hentry ho
  obtain ⟨p₀, hp₀⟩ := exists_earlierPred ho h.numbered hn hne
  obtain ⟨c, hfound, hc⟩ := exists_commonDominatorOf hr (h.numbered.distinct ho)
    (List.ne_nil_of_mem (h.mem_settledPreds.mpr ⟨hp₀.1, h.numbered.mem_order hp₀.2.1⟩))
    (fun p hp => by
      rw [h.numbered.entry]
      exact h.settled p (h.mem_settledPreds.mp hp).2)
  refine ⟨c, hfound, fun d => ?_⟩
  simp only [hc, h.mem_settledPreds, and_imp]

/-- Going on to the next node when the current one keeps its parent. -/
theorem Sweeping.keep
    (ho : g.IsSweepOrder order)
    {n : NodeId}
    (hn : n ∈ order)
    (h : Sweeping g order (t.number n) t)
    (hb : Balanced g order t n) :
    Sweeping g order (t.number n + 1) t := by
  refine ⟨h.numbered, h.settled, h.complete, h.bounded, ?_⟩
  intro m d p hm hme hdm hd hk hp
  by_cases hmn : m = n
  · subst hmn
    exact hb d p hdm hd hp.1 (h.numbered.mem_order hp.2.1)
  · apply h.forward m d p hm hme hdm hd _ hp
    rcases hk with hk | hk
    · have hdist := h.numbered.distinct ho
      have hm0 : t.number m ≠ 0 := by
        rw [h.numbered.number_eq hm]
        exact Nat.succ_ne_zero _
      have hne : t.number m ≠ t.number n := fun e => hmn (hdist.eq_of_number_eq m n hm0 e)
      omega
    · omega

/-- Going on to the next node when the current one has moved up to what is above all its
predecessors. -/
theorem Sweeping.move
    (hwf : g.WellFormed)
    (hentry : g.entry < g.size)
    (ho : g.IsSweepOrder order)
    {n c : NodeId}
    (hn : n ∈ order)
    (hne : n ≠ g.entry)
    (h : Sweeping g order (t.number n) t)
    (hc : ∀ d, t.Above d c ↔ ∀ p, p ∈ g.preds n → p ∈ order → t.Above d p) :
    Sweeping g order (t.number n + 1) (t.setParent n (some c)) := by
  have hr := h.numbered.ranked hwf hentry ho
  obtain ⟨p₀, hp₀⟩ := exists_earlierPred ho h.numbered hn hne
  have hp₀o := h.numbered.mem_order hp₀.2.1
  have hcp := (hc c).mp .here
  have hcn : t.Above c n := h.bounded n c hn hne hcp
  have hcne : c ≠ n := by
    rintro rfl
    exact absurd ((hcp p₀ hp₀.1 hp₀o).number_le hr) (Nat.not_le.mpr hp₀.2.2)
  have habove := above_setParent_iff hr hcn hcne
  have hs := (hwf.mem_preds _ _).mp hp₀.1
  have hnum :=
    h.numbered.setParent hr (hwf.target_lt p₀ n hs) hs hp₀o hp₀.2.2 (hcp p₀ hp₀.1 hp₀o)
  have hearlier : ∀ p m, EarlierPred g (t.setParent n (some c)) p m ↔ EarlierPred g t p m := by
    intro p m
    simp [EarlierPred]
  refine ⟨hnum, ?_, ?_, ?_, ?_⟩
  · intro m hm
    rw [habove]
    refine ⟨h.settled m hm, fun _ => Or.inr ?_⟩
    rw [hc]
    exact fun p _ hp => h.settled p hp
  · -- a dominator of a node below `n` with a smaller number than `n` dominates `n`
    intro m d hm hd
    rw [habove]
    refine ⟨h.complete m d hm hd, fun hnm => ?_⟩
    by_cases hle : t.number n ≤ t.number d
    · exact Or.inl hle
    · right
      obtain ⟨nodes, w, hw⟩ := h.numbered.exists_walk hnm
      have hdn : g.Dominates d n := hd.of_walk w fun hmem => hle (hw d hmem)
      have hdne : d ≠ n := by
        rintro rfl
        exact hle (Nat.le_refl _)
      rw [hc]
      intro p hp hpo
      exact h.complete p d hpo (hdn.of_pred hdne ((hwf.mem_preds _ _).mp hp))
  · intro m d hm hme hall
    have hold : ∀ p, p ∈ g.preds m → p ∈ order → t.Above d p := fun p hp hpo =>
      ((habove d p).mp (hall p hp hpo)).1
    rw [habove]
    refine ⟨h.bounded m d hm hme hold, fun hnm => ?_⟩
    by_cases hmn : m = n
    · subst hmn
      exact Or.inr ((hc d).mpr hold)
    · -- `n` is above an earlier predecessor of `m`, where nothing has moved yet
      obtain ⟨p, hp⟩ := exists_earlierPred ho h.numbered hm hme
      have hnp := h.forward m n p hm hme (Ne.symm hmn) hnm (Or.inr (Nat.le_refl _)) hp
      exact ((habove d p).mp (hall p hp.1 (h.numbered.mem_order hp.2.1))).2 hnp
  · intro m d p hm hme hdm hd hk hp
    rw [hearlier] at hp
    simp only [number_setParent] at hk
    obtain ⟨hold, hd'⟩ := (habove d m).mp hd
    rw [habove]
    by_cases hmn : m = n
    · subst hmn
      have hlt := hold.number_lt hr hdm
      have hdc := (hd' .here).resolve_left (Nat.not_le.mpr hlt)
      refine ⟨(hc d).mp hdc p hp.1 (h.numbered.mem_order hp.2.1), fun hnp => ?_⟩
      exact absurd (hnp.number_le hr) (Nat.not_le.mpr hp.2.2)
    · rcases hk with hk | hk
      · have hm0 : t.number m ≠ 0 := by
          rw [h.numbered.number_eq hm]
          exact Nat.succ_ne_zero _
        have hmne : t.number m ≠ t.number n := fun e =>
          hmn ((h.numbered.distinct ho).eq_of_number_eq m n hm0 e)
        have hlt : t.number m < t.number n := by omega
        refine ⟨h.forward m d p hm hme hdm hold (Or.inl hlt) hp, fun hnp => ?_⟩
        have h1 := hnp.number_le hr
        have h2 := hp.2.2
        omega
      · have hle : t.number n ≤ t.number d := by omega
        exact ⟨h.forward m d p hm hme hdm hold (Or.inr hle) hp, fun _ => Or.inl hle⟩

/-- One node of a later sweep: either it is balanced and nothing changes, or it moves up. -/
theorem Sweeping.step
    (hwf : g.WellFormed)
    (hentry : g.entry < g.size)
    (ho : g.IsSweepOrder order)
    {n : NodeId}
    (hn : n ∈ order)
    (hne : n ≠ g.entry)
    (changed : Bool)
    (h : Sweeping g order (t.number n) t) :
    (settle g (t, changed) n = (t, changed) ∧ Balanced g order t n ∧
        Sweeping g order (t.number n + 1) t) ∨
      ∃ t', settle g (t, changed) n = (t', true) ∧ weight order t' < weight order t ∧
        Sweeping g order (t.number n + 1) t' := by
  have hr := h.numbered.ranked hwf hentry ho
  obtain ⟨c, hfound, hc⟩ := h.exists_found hwf hentry ho hn hne
  obtain ⟨b, hb, -⟩ := (h.settled n hn).exists_parent (Ne.symm hne)
  by_cases hbc : b = c
  · subst hbc
    have hbal : Balanced g order t n := fun d p hdn hd hp hpo =>
      (hc d).mp (hd.of_parent hdn hb) p hp hpo
    exact Or.inl ⟨by simp [settle, hfound, hb], hbal, h.keep ho hn hbal⟩
  · right
    have hcb : t.Above c b := by
      have hcn : t.Above c n := h.bounded n c hn hne ((hc c).mp .here)
      refine hcn.of_parent ?_ hb
      rintro rfl
      obtain ⟨p, hp⟩ := exists_earlierPred ho h.numbered hn hne
      have hcp := (hc c).mp .here p hp.1 (h.numbered.mem_order hp.2.1)
      exact absurd (hcp.number_le hr) (Nat.not_le.mpr hp.2.2)
    have hlt := hcb.number_lt hr (Ne.symm hbc)
    refine ⟨t.setParent n (some c), ?_, weight_setParent_lt hn hb hlt,
      h.move hwf hentry ho hn hne hc⟩
    simp [settle, hfound, hb, Ne.symm hbc]

/-- A later sweep: either all nodes are balanced and nothing changes, or the weight falls. -/
theorem Sweeping.run
    (hwf : g.WellFormed)
    (hentry : g.entry < g.size)
    (ho : g.IsSweepOrder order)
    (rest : List NodeId)
    {done : List NodeId}
    (horder : order = g.entry :: done ++ rest)
    (changed : Bool)
    (h : Sweeping g order (done.length + 2) t) :
    ∃ t' changed', rest.foldl (settle g) (t, changed) = (t', changed') ∧
      Sweeping g order (order.length + 1) t' ∧
      (t' = t ∧ changed' = changed ∧ (∀ n, n ∈ rest → Balanced g order t n) ∨
        changed' = true ∧ weight order t' < weight order t) := by
  induction rest generalizing done t changed with
  | nil =>
      rw [horder]
      exact ⟨t, changed, rfl, by simpa [horder, Nat.add_assoc] using h, Or.inl (by simp)⟩
  | cons n rest ih =>
      have hn : n ∈ order := by simp [horder]
      have hnodup : (g.entry :: done ++ n :: rest).Nodup := horder ▸ ho.nodup
      have hnd : n ∉ g.entry :: done := fun h =>
        List.disjoint_of_nodup_append hnodup h (by simp)
      have hne : n ≠ g.entry := fun e => hnd (by simp [e])
      have hnum : t.number n = done.length + 2 := by
        rw [h.numbered.number_eq hn, horder, List.idxOf_append_of_notMem hnd]
        simp
      have horder' : order = g.entry :: (done ++ [n]) ++ rest := by simp [horder]
      have hlen : (done ++ [n]).length + 2 = t.number n + 1 := by
        rw [hnum, List.length_append, List.length_singleton]
      rw [List.foldl_cons]
      rw [← hnum] at h
      rcases h.step hwf hentry ho hn hne changed with
        ⟨heq, hbal, hnext⟩ | ⟨t₁, heq, hlt, hnext⟩
      · rw [← hlen] at hnext
        obtain ⟨t', changed', hrun, hlast, hcase⟩ := ih horder' changed hnext
        refine ⟨t', changed', by rw [heq, hrun], hlast, ?_⟩
        rcases hcase with ⟨h1, h2, h3⟩ | hcase
        · left
          refine ⟨h1, h2, fun m hm => ?_⟩
          rcases List.mem_cons.mp hm with rfl | hm
          · exact hbal
          · exact h3 m hm
        · exact Or.inr hcase
      · rw [← hlen] at hnext
        obtain ⟨t', changed', hrun, hlast, hcase⟩ := ih horder' true hnext
        refine ⟨t', changed', by rw [heq, hrun], hlast, Or.inr ?_⟩
        rcases hcase with ⟨h1, h2, -⟩ | ⟨h1, h2⟩
        · exact ⟨h2, h1 ▸ hlt⟩
        · exact ⟨h1, Nat.lt_trans h2 hlt⟩

/-- At the end of a sweep the next one may begin. -/
theorem Sweeping.restart
    (h : Sweeping g order (order.length + 1) t)
    (k : Nat) :
    Sweeping g order k t := by
  refine ⟨h.numbered, h.settled, h.complete, h.bounded, ?_⟩
  intro n d p hn hne hdn hd _ hp
  refine h.forward n d p hn hne hdn hd (Or.inl ?_) hp
  rw [h.numbered.number_eq hn]
  exact Nat.succ_lt_succ (List.idxOf_lt_length_of_mem hn)

/-- With more sweeps than the weight allows, the sweeps end because nothing changes. -/
theorem Sweeping.settleAll
    (hwf : g.WellFormed)
    (hentry : g.entry < g.size)
    (ho : g.IsSweepOrder order)
    {rest : List NodeId}
    (horder : order = g.entry :: rest)
    (sweeps : Nat)
    (h : Sweeping g order 2 t)
    (hlt : weight order t < sweeps) :
    Sweeping g order 2 (settleAll g rest sweeps t) ∧
      rest.foldl (settle g) (settleAll g rest sweeps t, false) =
        (settleAll g rest sweeps t, false) ∧
      ∀ n, n ∈ rest → Balanced g order (settleAll g rest sweeps t) n := by
  induction sweeps generalizing t with
  | zero => exact absurd hlt (Nat.not_lt_zero _)
  | succ sweeps ih =>
      obtain ⟨t', changed', hrun, hlast, hcase⟩ :=
        Sweeping.run hwf hentry ho rest (show order = g.entry :: [] ++ rest from horder) false h
      rcases hcase with ⟨rfl, rfl, hbal⟩ | ⟨rfl, hw⟩
      · have heq : DominatorTree.settleAll g rest (sweeps + 1) t' = t' := by
          simp [DominatorTree.settleAll, hrun]
        rw [heq]
        exact ⟨h, hrun, hbal⟩
      · have heq : DominatorTree.settleAll g rest (sweeps + 1) t =
            DominatorTree.settleAll g rest sweeps t' := by
          simp [DominatorTree.settleAll, hrun]
        rw [heq]
        exact ih (hlast.restart 2) (by omega)

/-- Any two bounds on the sweeps that the weight does not reach give the same tree. -/
theorem Sweeping.settleAll_eq_of_lt
    (hwf : g.WellFormed)
    (hentry : g.entry < g.size)
    (ho : g.IsSweepOrder order)
    {rest : List NodeId}
    (horder : order = g.entry :: rest)
    (sweeps sweeps' : Nat)
    (h : Sweeping g order 2 t)
    (hlt : weight order t < sweeps)
    (hlt' : weight order t < sweeps') :
    DominatorTree.settleAll g rest sweeps t = DominatorTree.settleAll g rest sweeps' t := by
  induction sweeps generalizing t sweeps' with
  | zero => exact absurd hlt (Nat.not_lt_zero _)
  | succ sweeps ih =>
      cases sweeps' with
      | zero => exact absurd hlt' (Nat.not_lt_zero _)
      | succ sweeps' =>
          obtain ⟨t', changed', hrun, hlast, hcase⟩ :=
            Sweeping.run hwf hentry ho rest (show order = g.entry :: [] ++ rest from horder) false h
          rcases hcase with ⟨rfl, rfl, -⟩ | ⟨rfl, hw⟩
          · simp [DominatorTree.settleAll, hrun]
          · have hnext := ih sweeps' (hlast.restart 2) (by omega) (by omega)
            simpa [DominatorTree.settleAll, hrun] using hnext

/-- When all nodes are balanced, the nodes above a node are its dominators. -/
theorem Sweeping.above_iff
    (ho : g.IsSweepOrder order)
    (hwf : g.WellFormed)
    {k : Nat}
    (h : Sweeping g order k t)
    (hbal : ∀ n, n ∈ order → n ≠ g.entry → Balanced g order t n)
    {n : NodeId}
    (hn : n ∈ order)
    (d : NodeId) :
    t.Above d n ↔ g.Dominates d n := by
  refine ⟨fun hd nodes w => ?_, h.complete n d hn⟩
  induction w with
  | here => exact List.mem_singleton.mpr (h.numbered.eq_entry_of_above ho hd)
  | @step b n nodes w hb ih =>
      by_cases hdn : d = n
      · simp [hdn]
      · have hbo : b ∈ order := (ho.mem_iff b).mpr ⟨nodes, w⟩
        have hne : n ≠ g.entry := by
          rintro rfl
          exact hdn (h.numbered.eq_entry_of_above ho hd)
        have hdb := hbal n hn hne d b hdn hd ((hwf.mem_preds b n).mpr hb) hbo
        simp [ih hbo hdb]

/-- In a balanced tree the parent of a node is its closest strict dominator. -/
theorem Sweeping.immediateDominator_eq_some_iff
    (hwf : g.WellFormed)
    (hentry : g.entry < g.size)
    (ho : g.IsSweepOrder order)
    {k : Nat}
    (h : Sweeping g order k t)
    (hbal : ∀ n, n ∈ order → n ≠ g.entry → Balanced g order t n)
    {n : NodeId}
    (hn : n ∈ order)
    (i : NodeId) :
    t.immediateDominator n = some i ↔
      g.StrictlyDominates i n ∧ ∀ d, g.StrictlyDominates d n → g.Dominates d i := by
  have hr := h.numbered.ranked hwf hentry ho
  have habove : ∀ {m}, m ∈ order → ∀ d, t.Above d m ↔ g.Dominates d m := fun hm =>
    h.above_iff ho hwf hbal hm
  have hne : ∀ c, t.immediateDominator n = some c → c ≠ n := by
    rintro c hc rfl
    exact absurd (hr.lt c c hc) (Nat.lt_irrefl _)
  constructor
  · intro hi
    refine ⟨⟨hne i hi, (habove hn i).mp (.up hi .here)⟩, fun d hd => ?_⟩
    have hdi : t.Above d i := ((habove hn d).mpr hd.2).of_parent hd.1 hi
    exact (habove (h.numbered.parent_mem n i hi) d).mp hdi
  · rintro ⟨hi, hall⟩
    have hin : t.Above i n := (habove hn i).mpr hi.2
    obtain ⟨c, hc, hic⟩ := hin.exists_parent hi.1
    have hcn : g.Dominates c n := (habove hn c).mp (.up hc .here)
    have hci : t.Above c i :=
      (habove (h.numbered.mem_of_above hin hn) c).mpr (hall c ⟨hne c hc, hcn⟩)
    by_cases heq : c = i
    · exact heq ▸ hc
    · have h1 := hci.number_lt hr heq
      have h2 := hic.number_le hr
      omega

end Sweeps

section Exactness

variable {g : Digraph}

theorem weight_le
    (order : List NodeId)
    {t : DominatorTree}
    (hr : t.Ranked) :
    weight order t ≤ order.length * t.size := by
  have h := List.sum_le_card_nsmul
    (order.map fun n => (t.immediateDominator n).elim 0 t.number) t.size (by
      intro x hx
      obtain ⟨n, -, rfl⟩ := List.mem_map.mp hx
      cases t.immediateDominator n with
      | none => exact Nat.zero_le _
      | some c => exact hr.le_size c)
  simpa [weight] using h

/-- Before the first sweep no node is done. -/
theorem forwardSettled_nil
    (hwf : g.WellFormed)
    (hentry : g.entry < g.size)
    {order : List NodeId}
    (ho : g.IsSweepOrder order) :
    ForwardSettled g order [] ((blank g.size g.entry).numberAll order) := by
  have hsize : (blank g.size g.entry).size = g.size := by simp [blank, size]
  have hlt : ∀ n, n ∈ order → n < (blank g.size g.entry).size := by
    intro n hn
    rw [hsize]
    exact ho.lt_size hwf hentry hn
  obtain ⟨hentry', hsize', hparent⟩ := numberAll_facts order 0 _ hlt
  have hnone : ∀ n, ((blank g.size g.entry).numberAll order).immediateDominator n = none := by
    intro n
    refine (hparent n).trans ?_
    by_cases hn : n < g.size <;> simp [immediateDominator, blank, hn]
  refine ⟨⟨hentry', hsize'.trans hsize, fun n => ?_, ?_, ?_, ?_⟩, by simp, ?_, by simp⟩
  · have hnum := number_foldl_setNumber n order 0 (blank g.size g.entry) ho.nodup
    have hzero : (blank g.size g.entry).number n = 0 := by
      by_cases hn : n < g.size <;> simp [DominatorTree.number, blank, hn]
    rw [hzero, Nat.zero_add] at hnum
    exact hnum
  all_goals
    intro b c hc
    rw [hnone b] at hc
    cases hc

/-- The final tree of a graph whose entry has a slot, as the sweeps leave it. -/
theorem compute_facts
    (hwf : g.WellFormed)
    (hentry : g.entry < g.size) :
    let order := g.reversePostorder g.entry
    let first := order.foldl (settleForward g) ((blank g.size g.entry).numberAll order)
    Sweeping g order 2 (compute g order) ∧
      (order.drop 1).foldl (settle g) (compute g order, false) = (compute g order, false) ∧
      (∀ n, n ∈ order → n ≠ g.entry → Balanced g order (compute g order) n) ∧
      ∀ sweeps, g.size * g.size < sweeps →
        settleAll g (order.drop 1) sweeps first = compute g order := by
  intro order first
  have ho : g.IsSweepOrder order := Digraph.reversePostorder_isSweepOrder hwf hentry
  obtain ⟨rest, hrest⟩ := List.head?_eq_some_iff.mp ho.head
  have hdrop : order.drop 1 = rest := by simp [hrest]
  have hfirst : ForwardSettled g order order first :=
    ForwardSettled.run hwf hentry ho order rfl (forwardSettled_nil hwf hentry ho)
  have hsweep := hfirst.sweeping hwf 2
  have hr := hsweep.numbered.ranked hwf hentry ho
  have hlen := ho.length_le hwf hentry
  have hweight : weight order first < g.size * g.size + 1 := by
    have h := weight_le order hr
    rw [hsweep.numbered.size] at h
    exact Nat.lt_succ_of_le (Nat.le_trans h (Nat.mul_le_mul_right _ hlen))
  have hcompute : compute g order = settleAll g rest (g.size * g.size + 1) first := by
    rw [← hdrop]
    rfl
  rw [hcompute, hdrop]
  obtain ⟨h1, h2, h3⟩ := hsweep.settleAll hwf hentry ho hrest _ hweight
  refine ⟨h1, h2, fun n hn hne => h3 n ?_, fun sweeps hs => ?_⟩
  · rw [hrest] at hn
    exact List.mem_of_ne_of_mem hne hn
  · exact hsweep.settleAll_eq_of_lt hwf hentry ho hrest _ _ (by omega) hweight

/-- The tree of a graph without a slot for its entry has no parents. -/
theorem compute_of_size_le
    (hentry : g.size ≤ g.entry) :
    g.reversePostorder g.entry = [] ∧ compute g [] = blank g.size g.entry := by
  have hnot : g.entry ∉ List.range g.size := by simpa using hentry
  constructor
  · simp [Digraph.reversePostorder, Digraph.postorder, Digraph.leaveOrder, hnot]
  · simp [compute, numberAll, settleAll]

/-- Whether a tree is right about all nodes that can be reached from the entry. -/
structure Exact (g : Digraph) (tree : DominatorTree) : Prop where
  dominates_iff : ∀ n d, g.Reachable g.entry n →
    (tree.dominates d n = true ↔ g.Dominates d n)
  immediateDominator_eq_none_iff : ∀ n, g.Reachable g.entry n →
    (tree.immediateDominator n = none ↔ n = g.entry)
  /-- The immediate dominator is the strict dominator that all strict dominators dominate. -/
  immediateDominator_eq_some_iff : ∀ n i, g.Reachable g.entry n →
    (tree.immediateDominator n = some i ↔
      g.StrictlyDominates i n ∧ ∀ d, g.StrictlyDominates d n → g.Dominates d i)
  /-- The common dominator of two nodes is the one that all their common dominators dominate. -/
  dominates_commonDominator_iff : ∀ n m d, g.Reachable g.entry n → g.Reachable g.entry m →
    (g.Dominates d (tree.commonDominator n m) ↔ g.Dominates d n ∧ g.Dominates d m)
  /-- The search for it ends on its own, whatever larger bound it has. -/
  meet_eq : ∀ n m steps, g.Reachable g.entry n → g.Reachable g.entry m →
    (tree.size + 2) * (tree.size + 2) ≤ steps → tree.meet steps n m = tree.commonDominator n m

theorem exact_of_entry_lt
    (hwf : g.WellFormed)
    (hentry : g.entry < g.size) :
    Exact g (compute g (g.reversePostorder g.entry)) := by
  have ho := Digraph.reversePostorder_isSweepOrder hwf hentry
  obtain ⟨h, -, hbal, -⟩ := compute_facts hwf hentry
  have hr := h.numbered.ranked hwf hentry ho
  have hmem : ∀ {n}, g.Reachable g.entry n → n ∈ g.reversePostorder g.entry := fun hn =>
    (ho.mem_iff _).mpr hn
  have habove := fun {n} hn => h.above_iff ho hwf hbal (hmem (n := n) hn)
  constructor
  · intro n d hn
    exact (dominates_iff_above hr d n).trans (habove hn d)
  · intro n hn
    constructor
    · intro hnone
      by_contra hne
      obtain ⟨c, hc, -⟩ := (h.settled n (hmem hn)).exists_parent (Ne.symm hne)
      rw [hnone] at hc
      cases hc
    · rintro rfl
      by_contra hsome
      obtain ⟨c, hc⟩ := Option.ne_none_iff_exists'.mp hsome
      have hce := h.numbered.eq_entry_of_above ho (.up hc .here)
      exact absurd (hr.lt _ _ hc) (by rw [hce]; exact Nat.lt_irrefl _)
  · intro n i hn
    exact h.immediateDominator_eq_some_iff hwf hentry ho hbal (hmem hn) i
  · intro n m d hn hm
    have hcommon := fun d => above_commonDominator_iff (d := d) hr (h.numbered.distinct ho)
      (by rw [h.numbered.entry]; exact h.settled n (hmem hn))
      (by rw [h.numbered.entry]; exact h.settled m (hmem hm))
    have hself := (hcommon _).mp .here
    have hc := (ho.mem_iff _).mp (h.numbered.mem_of_above hself.1 (hmem hn))
    rw [← habove hc, hcommon, habove hn, habove hm]
  · intro n m steps _ _ hsteps
    have hlt := number_add_number_lt hr n m
    exact meet_eq_of_lt hr _ _ (Nat.lt_of_lt_of_le hlt hsteps) hlt

/-- Without a slot for the entry, nothing but the entry itself can be reached. -/
theorem exact_of_size_le
    (hwf : g.WellFormed)
    (hentry : g.size ≤ g.entry) :
    Exact g (blank g.size g.entry) := by
  have honly : ∀ {n}, g.Reachable g.entry n → n = g.entry := by
    rintro n ⟨nodes, w⟩
    induction w with
    | here => rfl
    | step _ hs ih => exact absurd (ih ▸ hwf.source_lt _ _ hs) (Nat.not_lt.mpr hentry)
  have hdom : ∀ d, g.Dominates d g.entry ↔ d = g.entry := by
    intro d
    refine ⟨fun h => List.mem_singleton.mp (h _ .here), ?_⟩
    rintro rfl nodes w
    exact w.source_mem
  have hnone : ∀ n, (blank g.size g.entry).immediateDominator n = none := by
    intro n
    by_cases hn : n < g.size <;> simp [immediateDominator, blank, hn]
  have hmeet : ∀ steps, 0 < steps →
      (blank g.size g.entry).meet steps g.entry g.entry = g.entry := by
    intro steps hsteps
    cases steps with
    | zero => exact absurd hsteps (Nat.lt_irrefl _)
    | succ steps => simp [meet]
  have hcommon : (blank g.size g.entry).commonDominator g.entry g.entry = g.entry :=
    hmeet _ (Nat.mul_pos (Nat.succ_pos _) (Nat.succ_pos _))
  constructor
  · intro n d hn
    rw [honly hn, hdom, dominates, List.contains_iff_mem, dominators]
    simp [chain, hnone]
  · intro n hn
    simp [hnone, honly hn]
  · intro n i hn
    simp [hnone, Digraph.StrictlyDominates, honly hn, hdom]
  · intro n m d hn hm
    rw [honly hn, honly hm, hcommon, and_self]
  · intro n m steps hn hm hsteps
    rw [honly hn, honly hm, hcommon]
    exact hmeet steps (Nat.lt_of_lt_of_le (Nat.mul_pos (Nat.succ_pos _) (Nat.succ_pos _)) hsteps)

/-- **Exactness of dominator trees.**  The sweeps end because nothing changes any more, whatever
larger bound they have, and the tree they leave is exact. -/
theorem compute_exact
    (g : Digraph)
    (hwf : g.WellFormed) :
    let order := g.reversePostorder g.entry
    let first := order.foldl (settleForward g) ((blank g.size g.entry).numberAll order)
    let tree := compute g order
    (∀ sweeps, g.size * g.size < sweeps → settleAll g (order.drop 1) sweeps first = tree) ∧
      (order.drop 1).foldl (settle g) (tree, false) = (tree, false) ∧
      Exact g tree := by
  intro order first tree
  by_cases hentry : g.entry < g.size
  · obtain ⟨-, hstable, -, hbound⟩ := compute_facts hwf hentry
    exact ⟨hbound, hstable, exact_of_entry_lt hwf hentry⟩
  · have hentry := Nat.le_of_not_lt hentry
    have horder : order = [] := (compute_of_size_le hentry).1
    have htree : tree = blank g.size g.entry := by
      rw [← (compute_of_size_le hentry).2]
      exact congrArg (compute g) horder
    have hfirst : first = blank g.size g.entry := by
      simp [first, horder, numberAll]
    refine ⟨fun sweeps _ => ?_, by simp [horder], htree ▸ exact_of_size_le hwf hentry⟩
    rw [hfirst, htree, horder]
    cases sweeps <;> simp [settleAll]

/-- Two ways into a cycle, a loop at the entry, and an edge out of a node that cannot be reached.
-/
theorem compute_exact_irreducible :
    let g := Digraph.ofEdges 6 [(0, 1), (1, 2), (1, 3), (2, 3), (3, 2), (3, 4), (0, 0), (5, 4)] 0
    g.WellFormed ∧ Exact g (compute g (g.reversePostorder g.entry)) :=
  ⟨Digraph.ofEdges_wellFormed _ _ _, (compute_exact _ (Digraph.ofEdges_wellFormed _ _ _)).2.2⟩

end Exactness

end DominatorTree
end DalvikDecompiler
