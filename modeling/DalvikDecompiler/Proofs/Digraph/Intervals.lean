import DalvikDecompiler.Digraph.Interval
import DalvikDecompiler.Proofs.Digraph.Reachability

/-!
# How intervals divide a graph

**Input.** A rooted graph with an order in which its nodes are swept over.

An interval takes in a node when it has all predecessors of it.  In the end each node that can be
reached is in exactly one interval, and no interval could be larger: an edge from one interval to
another one leads to the head of that one, and the predecessors of a head are not all in one
interval.

**Results.**
* `grow_settled`: the sweeps end when nothing can be taken in any more.
* `Searching.run`: the search ends when no head is waiting.
* `partition_divides`: the intervals divide the graph.
-/

namespace DalvikDecompiler
namespace Digraph

/-- Every node that can be reached is listed, and only nodes that can be reached lead to it. -/
structure Rooted (g : Digraph) : Prop where
  wellFormed : g.WellFormed
  entry_lt : g.entry < g.size
  mem_nodes : ∀ n, g.Reachable g.entry n → n ∈ g.nodes
  nodes_nodup : g.nodes.Nodup
  pred_reachable : ∀ n p, g.Reachable g.entry n → p ∈ g.preds n → g.Reachable g.entry p

section Growth

variable {g : Digraph} {index : Nat} {nodes : List NodeId}
variable {intervalOf : Array (Option Nat)} {state : Array (Option Nat) × List NodeId}
variable {n m : NodeId}

theorem assigned_setIfInBounds
    (hknown : n < intervalOf.size)
    (v : Option Nat) :
    assigned (intervalOf.setIfInBounds n v) m = if m = n then v else assigned intervalOf m := by
  unfold assigned
  rw [Array.getElem?_setIfInBounds]
  by_cases hsame : n = m
  · subst hsame
    simp [hknown]
  · simp [hsame, Ne.symm hsame]

theorem lt_size_of_assigned
    {i : Nat}
    (h : assigned intervalOf n = some i) :
    n < intervalOf.size := by
  by_contra houtside
  simp [assigned, Array.getElem?_eq_none (Nat.le_of_not_lt houtside)] at h

/-- A node that is in no interval yet, and all of whose predecessors are in the given one. -/
structure Absorbable (g : Digraph) (index : Nat) (intervalOf : Array (Option Nat)) (n : NodeId) :
    Prop where
  free : assigned intervalOf n = none
  entered : g.preds n ≠ []
  inside : ∀ p ∈ g.preds n, assigned intervalOf p = some index

theorem absorb_cases
    (g : Digraph)
    (index : Nat)
    (state : Array (Option Nat) × List NodeId)
    (n : NodeId) :
    (Absorbable g index state.1 n ∧
        absorb g index state n = (state.1.setIfInBounds n (some index), state.2 ++ [n])) ∨
      (¬ Absorbable g index state.1 n ∧ absorb g index state n = state) := by
  unfold absorb
  simp only
  split
  · next h =>
      simp only [Bool.and_eq_true, Option.isNone_iff_eq_none, Bool.not_eq_true',
        List.isEmpty_eq_false_iff, List.all_eq_true, beq_iff_eq] at h
      exact .inl ⟨⟨h.1.1, h.1.2, h.2⟩, rfl⟩
  · next h =>
      refine .inr ⟨fun habsorbable => h ?_, rfl⟩
      simp only [Bool.and_eq_true, Option.isNone_iff_eq_none, Bool.not_eq_true',
        List.isEmpty_eq_false_iff, List.all_eq_true, beq_iff_eq]
      exact ⟨⟨habsorbable.free, habsorbable.entered⟩, habsorbable.inside⟩

/-- What taking in one node keeps, sweeping keeps. -/
theorem foldl_absorb_induction
    {P : Array (Option Nat) × List NodeId → Prop}
    (htake : ∀ state n, n ∈ nodes → P state → Absorbable g index state.1 n →
      P (state.1.setIfInBounds n (some index), state.2 ++ [n]))
    {some : List NodeId}
    (hsub : some ⊆ nodes)
    (hstart : P state) :
    P (some.foldl (absorb g index) state) := by
  induction some generalizing state with
  | nil => exact hstart
  | cons n rest ih =>
      obtain ⟨hmem, hsub⟩ := List.cons_subset.1 hsub
      refine ih hsub ?_
      rcases absorb_cases g index state n with ⟨habsorbable, htaken⟩ | ⟨-, hsame⟩
      · rw [htaken]
        exact htake state n hmem hstart habsorbable
      · rw [hsame]
        exact hstart

/-- What taking in one node keeps, building an interval keeps. -/
theorem grow_induction
    {P : Array (Option Nat) × List NodeId → Prop}
    (htake : ∀ state n, n ∈ nodes → P state → Absorbable g index state.1 n →
      P (state.1.setIfInBounds n (some index), state.2 ++ [n]))
    (sweeps : Nat)
    (hstart : P state) :
    P (grow g index nodes sweeps state) := by
  induction sweeps generalizing state with
  | zero => exact hstart
  | succ sweeps ih =>
      have hnext := foldl_absorb_induction htake (List.Subset.refl nodes) hstart
      rw [grow]
      split
      · exact hnext
      · exact ih hnext

theorem length_le_foldl_absorb
    (g : Digraph)
    (index : Nat)
    (nodes : List NodeId)
    (state : Array (Option Nat) × List NodeId) :
    state.2.length ≤ (nodes.foldl (absorb g index) state).2.length :=
  foldl_absorb_induction (P := fun state' => state.2.length ≤ state'.2.length)
    (fun _ _ _ hle _ => by simpa using Nat.le_succ_of_le hle) (List.Subset.refl nodes)
      (Nat.le_refl _)

/-- A sweep that takes in nothing finds nothing that could be taken in. -/
theorem foldl_absorb_eq
    (h : (nodes.foldl (absorb g index) state).2.length = state.2.length) :
    nodes.foldl (absorb g index) state = state ∧ ∀ n ∈ nodes, ¬ Absorbable g index state.1 n := by
  induction nodes with
  | nil => exact ⟨rfl, nofun⟩
  | cons n rest ih =>
      rw [List.foldl_cons] at h ⊢
      rcases absorb_cases g index state n with ⟨-, htaken⟩ | ⟨hnot, hsame⟩
      · have hmore := length_le_foldl_absorb g index rest (absorb g index state n)
        rw [h, htaken, List.length_append, List.length_singleton] at hmore
        exact absurd hmore (Nat.not_succ_le_self _)
      · rw [hsame] at h ⊢
        obtain ⟨hunchanged, hnone⟩ := ih h
        exact ⟨hunchanged, List.forall_mem_cons.2 ⟨hnot, hnone⟩⟩

/-- The members are the nodes that have been put into the interval, each once. -/
structure Gathers (g : Digraph) (index : Nat) (state : Array (Option Nat) × List NodeId) :
    Prop where
  size_eq : state.1.size = g.size
  nodup : state.2.Nodup
  mem_iff : ∀ n, n ∈ state.2 ↔ assigned state.1 n = some index

theorem Absorbable.lt_size
    (h : Absorbable g index intervalOf n)
    (hwellFormed : g.WellFormed) :
    n < g.size := by
  obtain ⟨p, hmem⟩ := List.exists_mem_of_ne_nil _ h.entered
  exact hwellFormed.target_lt p n ((hwellFormed.mem_preds p n).1 hmem)

theorem Gathers.take
    (h : Gathers g index state)
    (hwellFormed : g.WellFormed)
    (habsorbable : Absorbable g index state.1 n) :
    Gathers g index (state.1.setIfInBounds n (some index), state.2 ++ [n]) where
  size_eq := by simpa using h.size_eq
  nodup := by
    have hnew : n ∉ state.2 := fun hmem => by
      have hthere := (h.mem_iff n).1 hmem
      rw [habsorbable.free] at hthere
      cases hthere
    exact List.nodup_append.2 ⟨h.nodup, List.nodup_singleton n, fun m hmem k hsingle hsame =>
      hnew (List.mem_singleton.1 hsingle ▸ hsame ▸ hmem)⟩
  mem_iff m := by
    have hknown : n < state.1.size := h.size_eq ▸ habsorbable.lt_size hwellFormed
    rw [assigned_setIfInBounds hknown, List.mem_append, List.mem_singleton, h.mem_iff]
    by_cases hsame : m = n <;> simp [hsame]

theorem Gathers.length_le
    (h : Gathers g index state) :
    state.2.length ≤ g.size := by
  have hsub : state.2 ⊆ List.range g.size := fun n hmem =>
    List.mem_range.2 (h.size_eq ▸ lt_size_of_assigned ((h.mem_iff n).1 hmem))
  simpa using (List.subperm_of_subset h.nodup hsub).length_le

/-- **The sweeps come to an end.**  Nothing can be taken in any more. -/
theorem grow_settled
    (h : Gathers g index state)
    (hwellFormed : g.WellFormed)
    {sweeps : Nat}
    (henough : g.size < state.2.length + sweeps) :
    ∀ n ∈ nodes, ¬ Absorbable g index (grow g index nodes sweeps state).1 n := by
  induction sweeps generalizing state with
  | zero => exact absurd h.length_le (Nat.not_le_of_lt henough)
  | succ sweeps ih =>
      have hnext : Gathers g index (nodes.foldl (absorb g index) state) :=
        foldl_absorb_induction (fun _ _ _ hgathers => hgathers.take hwellFormed)
          (List.Subset.refl nodes) h
      have hmore := length_le_foldl_absorb g index nodes state
      rw [grow]
      split
      · next hsame =>
          obtain ⟨hunchanged, hnone⟩ := foldl_absorb_eq hsame
          rwa [hunchanged]
      · next hother => exact ih hnext (by omega)

/-- The members of an interval: the head first, and each other member behind all its predecessors,
of which it has some. -/
structure Tight (g : Digraph) (head : NodeId) (members : List NodeId) : Prop where
  nodup : members.Nodup
  head_mem : head ∈ members
  idxOf_head : members.idxOf head = 0
  entered : ∀ n ∈ members, n ≠ head → g.preds n ≠ []
  behind : ∀ n ∈ members, n ≠ head → ∀ p ∈ g.preds n,
    p ∈ members ∧ members.idxOf p < members.idxOf n

theorem Tight.singleton
    (g : Digraph)
    (head : NodeId) :
    g.Tight head [head] where
  nodup := List.nodup_singleton head
  head_mem := List.mem_singleton_self head
  idxOf_head := List.idxOf_cons_self
  entered _ hmem hother := absurd (List.mem_singleton.1 hmem) hother
  behind _ hmem hother := absurd (List.mem_singleton.1 hmem) hother

theorem Tight.take
    {head : NodeId}
    {members : List NodeId}
    (h : g.Tight head members)
    (hnew : n ∉ members)
    (hentered : g.preds n ≠ [])
    (hinside : ∀ p ∈ g.preds n, p ∈ members) :
    g.Tight head (members ++ [n]) where
  nodup := List.nodup_append.2 ⟨h.nodup, List.nodup_singleton n, fun m hmem k hsingle hsame =>
    hnew (List.mem_singleton.1 hsingle ▸ hsame ▸ hmem)⟩
  head_mem := List.mem_append_left _ h.head_mem
  idxOf_head := by rw [List.idxOf_append_of_mem h.head_mem, h.idxOf_head]
  entered m hmem hother := by
    rcases List.mem_append.1 hmem with hmem | hmem
    · exact h.entered m hmem hother
    · exact List.mem_singleton.1 hmem ▸ hentered
  behind m hmem hother p hpred := by
    rcases List.mem_append.1 hmem with hmem | hmem
    · obtain ⟨hthere, hlt⟩ := h.behind m hmem hother p hpred
      rw [List.idxOf_append_of_mem hthere, List.idxOf_append_of_mem hmem]
      exact ⟨List.mem_append_left _ hthere, hlt⟩
    · obtain rfl := List.mem_singleton.1 hmem
      have hthere := hinside p hpred
      rw [List.idxOf_append_of_mem hthere, List.idxOf_append_of_notMem hnew]
      exact ⟨List.mem_append_left _ hthere, Nat.lt_add_right _ (List.idxOf_lt_length_of_mem hthere)⟩

/-- An interval that is being built: it has taken in nodes that were free before. -/
structure Taking (g : Digraph) (nodes : List NodeId) (index : Nat) (head : NodeId)
    (before : Array (Option Nat)) (state : Array (Option Nat) × List NodeId) : Prop extends
    Gathers g index state where
  tight : g.Tight head state.2
  inner : ∀ n ∈ state.2, n ≠ head → n ∈ nodes
  free : ∀ n ∈ state.2, assigned before n = none
  assigned_eq : ∀ n, assigned state.1 n = if n ∈ state.2 then some index else assigned before n

/-- An interval for a free head. -/
theorem Taking.start
    {head : NodeId}
    (nodes : List NodeId)
    (hsize_eq : intervalOf.size = g.size)
    (hknown : head < g.size)
    (hfree : assigned intervalOf head = none)
    (hnew : ∀ n, assigned intervalOf n ≠ some index) :
    Taking g nodes index head intervalOf
      (intervalOf.setIfInBounds head (some index), [head]) where
  size_eq := by simpa using hsize_eq
  nodup := List.nodup_singleton head
  mem_iff n := by
    rw [assigned_setIfInBounds (hsize_eq ▸ hknown), List.mem_singleton]
    by_cases hsame : n = head <;> simp [hsame, hnew]
  tight := .singleton g head
  inner _ hmem hother := absurd (List.mem_singleton.1 hmem) hother
  free _ hmem := (List.mem_singleton.1 hmem).symm ▸ hfree
  assigned_eq n := by
    rw [assigned_setIfInBounds (hsize_eq ▸ hknown)]
    by_cases hsame : n = head <;> simp [hsame]

theorem Taking.take
    {head : NodeId}
    {before : Array (Option Nat)}
    (h : Taking g nodes index head before state)
    (hwellFormed : g.WellFormed)
    (hmem : n ∈ nodes)
    (habsorbable : Absorbable g index state.1 n) :
    Taking g nodes index head before
      (state.1.setIfInBounds n (some index), state.2 ++ [n]) := by
  have houtside : n ∉ state.2 := fun hthere => by
    have htaken := (h.mem_iff n).1 hthere
    rw [habsorbable.free] at htaken
    cases htaken
  have hunseen : assigned before n = none := by
    have hsame := h.assigned_eq n
    rwa [if_neg houtside, habsorbable.free, eq_comm] at hsame
  refine ⟨h.toGathers.take hwellFormed habsorbable,
    h.tight.take houtside habsorbable.entered fun p hpred =>
      (h.mem_iff p).2 (habsorbable.inside p hpred), fun m hthere hother => ?_, fun m hthere => ?_,
    fun m => ?_⟩
  · rcases List.mem_append.1 hthere with hthere | hthere
    · exact h.inner m hthere hother
    · exact List.mem_singleton.1 hthere ▸ hmem
  · rcases List.mem_append.1 hthere with hthere | hthere
    · exact h.free m hthere
    · exact List.mem_singleton.1 hthere ▸ hunseen
  · rw [assigned_setIfInBounds (h.size_eq ▸ habsorbable.lt_size hwellFormed), h.assigned_eq m]
    by_cases here : m = n <;> simp [here]

/-- The interval of a free head takes in all that it can. -/
theorem taking_grow
    {head : NodeId}
    (nodes : List NodeId)
    (hwellFormed : g.WellFormed)
    (hsize_eq : intervalOf.size = g.size)
    (hknown : head < g.size)
    (hfree : assigned intervalOf head = none)
    (hnew : ∀ n, assigned intervalOf n ≠ some index) :
    let state :=
      grow g index nodes (g.size + 1) (intervalOf.setIfInBounds head (some index), [head])
    Taking g nodes index head intervalOf state ∧ ∀ n ∈ nodes, ¬ Absorbable g index state.1 n := by
  have hstart := Taking.start nodes hsize_eq hknown hfree hnew
  refine ⟨grow_induction
    (fun _ _ hmem htaking habsorbable => htaking.take hwellFormed hmem habsorbable)
    (g.size + 1) hstart, grow_settled hstart.toGathers hwellFormed ?_⟩
  simp
  omega

end Growth

section Search

variable {g : Digraph} {order rest : List NodeId} {s : IntervalSearch} {head : NodeId}

theorem getElem?_concat_cases
    {α : Type}
    {xs : List α}
    {x y : α}
    {i : Nat}
    (h : (xs ++ [x])[i]? = some y) :
    (i < xs.length ∧ xs[i]? = some y) ∨ i = xs.length ∧ y = x := by
  rcases Nat.lt_trichotomy i xs.length with hlt | rfl | hgt
  · exact .inl ⟨hlt, by rwa [List.getElem?_append_left hlt] at h⟩
  · exact .inr ⟨rfl, by simpa using h.symm⟩
  · rw [List.getElem?_eq_none (by simp; omega)] at h
    cases h

theorem IsSweepOrder.mem_drop_iff
    (ho : g.IsSweepOrder order)
    {n : NodeId} :
    n ∈ order.drop 1 ↔ n ∈ order ∧ n ≠ g.entry := by
  have hfirst := ho.head
  have hnodup := ho.nodup
  cases order with
  | nil => cases hfirst
  | cons e behind =>
      obtain rfl : e = g.entry := by simpa using hfirst
      have hapart := (List.nodup_cons.1 hnodup).1
      rw [List.drop_one, List.tail_cons, List.mem_cons]
      exact ⟨fun hmem => ⟨.inr hmem, fun hsame => hapart (hsame ▸ hmem)⟩,
        fun ⟨hmem, hother⟩ => hmem.resolve_left hother⟩

/-- What the search for intervals has found so far. -/
structure Searching (g : Digraph) (order : List NodeId) (s : IntervalSearch) : Prop where
  size_eq : s.intervalOf.size = g.size
  lt : ∀ n i, assigned s.intervalOf n = some i → i < s.intervals.length
  mem_iff : ∀ i (I : Interval), s.intervals[i]? = some I →
    ∀ n, n ∈ I.members ↔ assigned s.intervalOf n = some i
  tight : ∀ I ∈ s.intervals, g.Tight I.head I.members
  inner : ∀ I ∈ s.intervals, ∀ n ∈ I.members, n ≠ I.head → n ∈ order.drop 1
  last : ∀ i (I : Interval), s.intervals[i]? = some I → I.last = (I.members.filter fun m =>
    (g.succs m).any fun n => !(assigned s.intervalOf n == some i)).getLast?
  first : ∀ (I : Interval), s.intervals[0]? = some I → I.head = g.entry
  /-- Each head but the first has a predecessor in an earlier interval. -/
  follows : ∀ i (I : Interval), s.intervals[i]? = some I → i ≠ 0 →
    ∃ p ∈ g.preds I.head, ∃ j < i, assigned s.intervalOf p = some j
  settled : ∀ n ∈ order.drop 1, ∀ i, ¬ Absorbable g i s.intervalOf n
  /-- The predecessors of such a head are not all in one interval. -/
  apart : ∀ i (I : Interval), s.intervals[i]? = some I → i ≠ 0 →
    ∀ j, ¬ ∀ p ∈ g.preds I.head, assigned s.intervalOf p = some j
  exits : ∀ i n, (i, n) ∈ s.exits ↔ n ∈ g.nodes ∧ assigned s.intervalOf n ≠ some i ∧
    ∃ p ∈ g.preds n, assigned s.intervalOf p = some i
  heads_nodup : s.heads.Nodup
  waiting : ∀ n ∈ s.heads, assigned s.intervalOf n = none ∧ n ∈ order ∧
    (n = g.entry ∨ ∃ p ∈ g.preds n, ∃ i, assigned s.intervalOf p = some i)
  frontier : ∀ u v i, assigned s.intervalOf u = some i → v ∈ g.succs u →
    (∃ j, assigned s.intervalOf v = some j) ∨ v ∈ s.heads
  mem_order : ∀ n i, assigned s.intervalOf n = some i → n ∈ order
  start : s.intervals = [] → s.heads = [g.entry]

theorem Searching.entry_assigned
    (h : Searching g order s)
    (hbegun : s.intervals ≠ []) :
    assigned s.intervalOf g.entry = some 0 := by
  obtain ⟨I, rest, hsame⟩ := List.exists_cons_of_ne_nil hbegun
  have hfound : s.intervals[0]? = some I := by rw [hsame]; rfl
  have hmem : I ∈ s.intervals := List.mem_of_getElem? hfound
  exact (h.mem_iff 0 I hfound g.entry).1 (h.first I hfound ▸ (h.tight I hmem).head_mem)

/-- The search at its beginning. -/
theorem searching_start
    (ho : g.IsSweepOrder order) :
    Searching g order
      { intervals := []
        intervalOf := Array.replicate g.size none
        exits := []
        heads := order.head?.toList } := by
  have hnone (n : NodeId) : assigned (Array.replicate g.size none) n = none := by
    by_cases hknown : n < g.size <;> simp [assigned, hknown]
  have hentry : g.entry ∈ order := List.mem_of_head? ho.head
  rw [ho.head]
  constructor
  all_goals simp [hnone, hentry]
  intro n hmem i habsorbable
  obtain ⟨p, hpred⟩ := List.exists_mem_of_ne_nil _ habsorbable.entered
  simpa [hnone] using habsorbable.inside p hpred

/-- What a new interval changes. -/
structure Adds (g : Digraph) (order : List NodeId) (s s' : IntervalSearch) (head : NodeId)
    (members : List NodeId) : Prop where
  taking : Taking g (order.drop 1) s.intervals.length head s.intervalOf (s'.intervalOf, members)
  settled : ∀ n ∈ order.drop 1, ¬ Absorbable g s.intervals.length s'.intervalOf n
  intervals_eq : s'.intervals = s.intervals ++ [{
    head
    members
    last := (members.filter fun m => (g.succs m).any fun n =>
      !(assigned s'.intervalOf n == some s.intervals.length)).getLast? }]
  mem_exits : ∀ i n, (i, n) ∈ s'.exits ↔ (i, n) ∈ s.exits ∨
    i = s.intervals.length ∧ n ∈ g.nodes ∧ assigned s'.intervalOf n ≠ some i ∧
      ∃ p ∈ g.preds n, assigned s'.intervalOf p = some i
  heads_nodup : s.heads.tail.Nodup → s'.heads.Nodup
  mem_heads : ∀ n, n ∈ s'.heads ↔ n ∈ s.heads.tail ∨
    assigned s'.intervalOf n = none ∧ n ∈ g.nodes ∧
      ∃ p ∈ g.preds n, assigned s'.intervalOf p = some s.intervals.length

theorem adds_addInterval
    (order : List NodeId)
    (hg : g.Rooted)
    (hsize_eq : s.intervalOf.size = g.size)
    (heads : s.heads = head :: rest)
    (hknown : head < g.size)
    (hfree : assigned s.intervalOf head = none)
    (hnew : ∀ n, assigned s.intervalOf n ≠ some s.intervals.length) :
    ∃ members,
      Adds g order s (IntervalSearch.addInterval g order { s with heads := rest } head) head
        members := by
  obtain ⟨htaking, hsettled⟩ :=
    taking_grow (order.drop 1) hg.wellFormed hsize_eq hknown hfree hnew
  refine ⟨_, htaking, hsettled, rfl, fun i n => ?_, fun hnodup => ?_, fun n => ?_⟩
  · simp only [IntervalSearch.addInterval, List.mem_append, List.mem_map, List.mem_filter,
      Bool.and_eq_true, Bool.not_eq_true', beq_eq_false_iff_ne, List.any_eq_true, beq_iff_eq,
      Prod.mk.injEq]
    refine or_congr_right ⟨?_, ?_⟩
    · rintro ⟨m, ⟨hmem, hout, p, hpred, hinside⟩, rfl, rfl⟩
      exact ⟨rfl, hmem, hout, p, hpred, hinside⟩
    · rintro ⟨rfl, hmem, hout, p, hpred, hinside⟩
      exact ⟨n, ⟨hmem, hout, p, hpred, hinside⟩, rfl, rfl⟩
  · rw [heads, List.tail_cons] at hnodup
    refine List.nodup_append.2 ⟨hnodup, (hg.nodes_nodup.filter _).filter _, ?_⟩
    rintro a hmem b hfresh rfl
    simp only [List.mem_filter, Bool.and_eq_true, Bool.not_eq_true', List.contains_eq_mem,
      decide_eq_false_iff_not] at hfresh
    exact hfresh.2.2 hmem
  · rw [heads, List.tail_cons]
    simp only [IntervalSearch.addInterval, List.mem_append, List.mem_filter, Bool.and_eq_true,
      Bool.not_eq_true', beq_eq_false_iff_ne, List.any_eq_true, beq_iff_eq, List.contains_eq_mem,
      decide_eq_false_iff_not, Option.isNone_iff_eq_none]
    by_cases hwaits : n ∈ rest
    · simp [hwaits]
    · simp only [hwaits, false_or, not_false_eq_true, and_true]
      refine ⟨fun ⟨⟨hmem, _, hpred⟩, hfree⟩ => ⟨hfree, hmem, hpred⟩, fun ⟨hfree, hmem, hpred⟩ =>
        ⟨⟨hmem, ?_, hpred⟩, hfree⟩⟩
      rw [hfree]
      simp

section Adding

variable {s' : IntervalSearch} {members : List NodeId} {n : NodeId} {i : Nat}

theorem Adds.assigned_eq
    (h : Adds g order s s' head members)
    (n : NodeId) :
    assigned s'.intervalOf n =
      if n ∈ members then some s.intervals.length else assigned s.intervalOf n :=
  h.taking.assigned_eq n

/-- What was in an interval stays there. -/
theorem Adds.stays
    (h : Adds g order s s' head members)
    (hthere : assigned s.intervalOf n = some i) :
    assigned s'.intervalOf n = some i := by
  rw [h.assigned_eq, if_neg fun hmem => ?_, hthere]
  rw [h.taking.free n hmem] at hthere
  cases hthere

/-- An earlier interval takes in nothing more. -/
theorem Adds.assigned_iff
    (h : Adds g order s s' head members)
    (hold : i ≠ s.intervals.length) :
    assigned s'.intervalOf n = some i ↔ assigned s.intervalOf n = some i := by
  refine ⟨fun hthere => ?_, h.stays⟩
  rw [h.assigned_eq] at hthere
  split at hthere
  · exact absurd (Option.some_inj.1 hthere).symm hold
  · exact hthere

theorem Adds.free
    (h : Adds g order s s' head members)
    (hfree : assigned s'.intervalOf n = none) :
    n ∉ members ∧ assigned s.intervalOf n = none := by
  rw [h.assigned_eq] at hfree
  split at hfree
  · cases hfree
  · next hout => exact ⟨hout, hfree⟩

theorem Adds.getElem?_cases
    (h : Adds g order s s' head members)
    {I : Interval}
    (hfound : s'.intervals[i]? = some I) :
    (i < s.intervals.length ∧ s.intervals[i]? = some I) ∨ i = s.intervals.length ∧
      I.head = head ∧ I.members = members ∧ I.last = (members.filter fun m =>
        (g.succs m).any fun n => !(assigned s'.intervalOf n == some i)).getLast? := by
  rw [h.intervals_eq] at hfound
  rcases getElem?_concat_cases hfound with hold | ⟨rfl, rfl⟩
  · exact .inl hold
  · exact .inr ⟨rfl, rfl, rfl, rfl⟩

/-- A later interval could have taken the node in before. -/
theorem Adds.absorbable
    (h : Adds g order s s' head members)
    (hold : i ≠ s.intervals.length)
    (habsorbable : Absorbable g i s'.intervalOf n) :
    Absorbable g i s.intervalOf n where
  free := (h.free habsorbable.free).2
  entered := habsorbable.entered
  inside p hpred := (h.assigned_iff hold).1 (habsorbable.inside p hpred)

/-- A head that waits while there are intervals has been led to from one of them. -/
theorem Searching.led
    (ho : g.IsSweepOrder order)
    (h : Searching g order s)
    (hwaits : n ∈ s.heads)
    (hlater : s.intervals.length ≠ 0) :
    n ∈ order.drop 1 ∧ ∃ p ∈ g.preds n, ∃ j, assigned s.intervalOf p = some j := by
  obtain ⟨hfree, hmem, hbegan⟩ := h.waiting n hwaits
  have hother : n ≠ g.entry := fun hsame => by
    rw [hsame, h.entry_assigned (List.length_pos_iff.1 (Nat.pos_of_ne_zero hlater))] at hfree
    cases hfree
  exact ⟨ho.mem_drop_iff.2 ⟨hmem, hother⟩, hbegan.resolve_left hother⟩

variable (hg : g.Rooted) (ho : g.IsSweepOrder order) (h : Searching g order s)
variable (hadds : Adds g order s s' head members) (heads : s.heads = head :: rest)

include ho h hadds heads in
theorem Searching.follows_add
    {I : Interval}
    (hfound : s'.intervals[i]? = some I)
    (hlater : i ≠ 0) :
    ∃ p ∈ g.preds I.head, ∃ j < i, assigned s'.intervalOf p = some j := by
  rcases hadds.getElem?_cases hfound with ⟨-, hold⟩ | ⟨rfl, hsame, -⟩
  · obtain ⟨p, hpred, j, hlt, hthere⟩ := h.follows i I hold hlater
    exact ⟨p, hpred, j, hlt, hadds.stays hthere⟩
  · obtain ⟨-, p, hpred, j, hthere⟩ := h.led ho (heads ▸ List.mem_cons_self) hlater
    exact ⟨p, hsame ▸ hpred, j, h.lt p j hthere, hadds.stays hthere⟩

include ho h hadds heads in
theorem Searching.apart_add
    {I : Interval}
    (hfound : s'.intervals[i]? = some I)
    (hlater : i ≠ 0)
    (j : Nat) :
    ¬ ∀ p ∈ g.preds I.head, assigned s'.intervalOf p = some j := by
  intro hall
  obtain ⟨p, hpred, j', hlt, hthere⟩ := h.follows_add ho hadds heads hfound hlater
  rcases hadds.getElem?_cases hfound with ⟨hbelow, hold⟩ | ⟨rfl, hsame, -⟩
  all_goals
    have hdifferent : j ≠ s.intervals.length := by
      have here := (hall p hpred).symm.trans hthere
      rw [Option.some_inj] at here
      omega
    have hall (p : NodeId) (hpred : p ∈ g.preds I.head) : assigned s.intervalOf p = some j :=
      (hadds.assigned_iff hdifferent).1 (hall p hpred)
  · exact h.apart i I hold hlater j hall
  · have hwaits : head ∈ s.heads := heads ▸ List.mem_cons_self
    exact h.settled head (h.led ho hwaits hlater).1 j
      ⟨(h.waiting head hwaits).1, List.ne_nil_of_mem (hsame ▸ hpred), hsame ▸ hall⟩

include ho h hadds heads in
/-- What waits has not been taken in: it can be reached from an earlier interval. -/
theorem Searching.waiting_rest
    (hmem : n ∈ rest) :
    assigned s'.intervalOf n = none := by
  obtain ⟨hfree, hlisted, hbegan⟩ := h.waiting n (heads ▸ List.mem_cons_of_mem head hmem)
  have hnodup := heads ▸ h.heads_nodup
  rw [hadds.assigned_eq, if_neg fun htaken => ?_, hfree]
  have hother : n ≠ head := fun hsame => (List.nodup_cons.1 hnodup).1 (hsame ▸ hmem)
  obtain ⟨-, hapart⟩ := ho.mem_drop_iff.1 (hadds.taking.inner n htaken hother)
  obtain ⟨p, hpred, j, hthere⟩ := hbegan.resolve_left hapart
  have hinside := (hadds.taking.tight.behind n htaken hother p hpred).1
  rw [hadds.taking.free p hinside] at hthere
  cases hthere

include ho h hadds heads in
theorem Searching.mem_order_add
    (hthere : assigned s'.intervalOf n = some i) :
    n ∈ order := by
  rw [hadds.assigned_eq] at hthere
  split at hthere
  · next htaken =>
      by_cases hsame : n = head
      · exact hsame ▸ (h.waiting head (heads ▸ List.mem_cons_self)).2.1
      · exact (ho.mem_drop_iff.1 (hadds.taking.inner n htaken hsame)).1
  · exact h.mem_order n i hthere

include hg ho h hadds heads in
/-- The search goes on when it has built the interval of the first head that is waiting. -/
theorem Searching.add :
    Searching g order s' where
  size_eq := hadds.taking.size_eq
  lt n i hthere := by
    rw [hadds.assigned_eq] at hthere
    rw [hadds.intervals_eq, List.length_append, List.length_singleton]
    split at hthere
    · exact Option.some_inj.1 hthere ▸ Nat.lt_succ_self _
    · exact Nat.lt_succ_of_lt (h.lt n i hthere)
  mem_iff i I hfound n := by
    rcases hadds.getElem?_cases hfound with ⟨hlt, hold⟩ | ⟨rfl, -, hsame, -⟩
    · rw [h.mem_iff i I hold n, hadds.assigned_iff hlt.ne]
    · rw [hsame]
      exact hadds.taking.mem_iff n
  tight I hmem := by
    rw [hadds.intervals_eq, List.mem_append, List.mem_singleton] at hmem
    rcases hmem with hmem | rfl
    · exact h.tight I hmem
    · exact hadds.taking.tight
  inner I hmem := by
    rw [hadds.intervals_eq, List.mem_append, List.mem_singleton] at hmem
    rcases hmem with hmem | rfl
    · exact h.inner I hmem
    · exact hadds.taking.inner
  last i I hfound := by
    rcases hadds.getElem?_cases hfound with ⟨hlt, hold⟩ | ⟨rfl, -, hsame, hlast⟩
    · have hsame (n : NodeId) :
          (assigned s'.intervalOf n == some i) = (assigned s.intervalOf n == some i) := by
        rw [Bool.eq_iff_iff, beq_iff_eq, beq_iff_eq, hadds.assigned_iff hlt.ne]
      rw [h.last i I hold]
      simp only [hsame]
    · rw [hlast, hsame]
  first I hfound := by
    rcases hadds.getElem?_cases hfound with ⟨-, hold⟩ | ⟨hnone, hsame, -⟩
    · exact h.first I hold
    · have honly := h.start (List.length_eq_zero_iff.1 hnone.symm)
      rw [heads] at honly
      rw [hsame]
      exact (List.cons.inj honly).1
  follows i I hfound hlater := h.follows_add ho hadds heads hfound hlater
  settled n hmem i habsorbable := by
    by_cases here : i = s.intervals.length
    · exact hadds.settled n hmem (here ▸ habsorbable)
    · exact h.settled n hmem i (hadds.absorbable here habsorbable)
  apart i I hfound hlater j := h.apart_add ho hadds heads hfound hlater j
  exits i n := by
    rw [hadds.mem_exits, h.exits]
    by_cases here : i = s.intervals.length
    · subst here
      refine ⟨?_, fun hnew => .inr ⟨rfl, hnew⟩⟩
      rintro (⟨-, -, p, -, hthere⟩ | ⟨-, hnew⟩)
      · exact absurd (h.lt p _ hthere) (Nat.lt_irrefl _)
      · exact hnew
    · simp [here, hadds.assigned_iff here]
  heads_nodup := hadds.heads_nodup (h.heads_nodup.sublist (List.tail_sublist _))
  waiting n hmem := by
    rcases (hadds.mem_heads n).1 hmem with hmem | ⟨hfree, -, p, hpred, hthere⟩
    · rw [heads, List.tail_cons] at hmem
      obtain ⟨-, hlisted, hbegan⟩ := h.waiting n (heads ▸ List.mem_cons_of_mem head hmem)
      exact ⟨h.waiting_rest ho hadds heads hmem, hlisted, hbegan.imp_right
        fun ⟨p, hpred, j, hthere⟩ => ⟨p, hpred, j, hadds.stays hthere⟩⟩
    · have hlisted := h.mem_order_add ho hadds heads hthere
      exact ⟨hfree, (ho.mem_iff n).2 (((ho.mem_iff p).1 hlisted).step
        ((hg.wellFormed.mem_preds p n).1 hpred)), .inr ⟨p, hpred, _, hthere⟩⟩
  frontier u v i hthere hsucc := by
    have hlisted := h.mem_order_add ho hadds heads hthere
    rw [hadds.mem_heads, heads, List.tail_cons]
    cases hfree : assigned s'.intervalOf v with
    | some j => exact .inl ⟨j, rfl⟩
    | none =>
        rw [hadds.assigned_eq] at hthere
        split at hthere
        · next htaken =>
            exact .inr (.inr ⟨rfl, hg.mem_nodes v (((ho.mem_iff u).1 hlisted).step hsucc), u,
              (hg.wellFormed.mem_preds u v).2 hsucc, (hadds.taking.mem_iff u).1 htaken⟩)
        · rcases h.frontier u v i hthere hsucc with ⟨j, hold⟩ | hwaits
          · rw [hadds.stays hold] at hfree
            cases hfree
          · rw [heads] at hwaits
            rcases List.mem_cons.1 hwaits with rfl | hwaits
            · exact absurd hadds.taking.tight.head_mem (hadds.free hfree).1
            · exact .inr (.inl hwaits)
  mem_order n i hthere := h.mem_order_add ho hadds heads hthere
  start hnone := by simp [hadds.intervals_eq] at hnone

end Adding

/-- The nodes of an order that are in no interval yet. -/
def freeNodes (order : List NodeId) (s : IntervalSearch) : List NodeId :=
  order.filter fun n => (assigned s.intervalOf n).isNone

theorem mem_freeNodes
    {n : NodeId} :
    n ∈ freeNodes order s ↔ n ∈ order ∧ assigned s.intervalOf n = none := by
  simp [freeNodes]

/-- **The search ends with no head waiting.** -/
theorem Searching.run
    (hg : g.Rooted)
    (ho : g.IsSweepOrder order)
    (h : Searching g order s)
    {steps : Nat}
    (henough : (freeNodes order s).length ≤ steps) :
    Searching g order (IntervalSearch.run g order steps s) ∧
      (IntervalSearch.run g order steps s).heads = [] := by
  induction steps generalizing s with
  | zero =>
      refine ⟨h, List.eq_nil_iff_forall_not_mem.2 fun n hwaits => ?_⟩
      obtain ⟨hfree, hmem, -⟩ := h.waiting n hwaits
      exact List.ne_nil_of_mem (mem_freeNodes.2 ⟨hmem, hfree⟩)
        (List.length_eq_zero_iff.1 (Nat.le_zero.1 henough))
  | succ steps ih =>
      rw [IntervalSearch.run]
      split
      · next hnone => exact ⟨h, hnone⟩
      · next head rest heads =>
          obtain ⟨hfree, hmem, -⟩ := h.waiting head (heads ▸ List.mem_cons_self)
          have hnew (n : NodeId) : assigned s.intervalOf n ≠
            some s.intervals.length := fun hthere =>
            absurd (h.lt n _ hthere) (Nat.lt_irrefl _)
          obtain ⟨members, hadds⟩ := adds_addInterval order hg h.size_eq heads
            (ho.lt_size hg.wellFormed hg.entry_lt hmem) hfree hnew
          rw [if_neg (by simp [hfree])]
          refine ih (h.add hg ho hadds heads) (Nat.le_of_lt_succ (Nat.lt_of_lt_of_le ?_ henough))
          have hsub : head :: freeNodes order _ ⊆ freeNodes order s :=
            List.cons_subset.2 ⟨mem_freeNodes.2 ⟨hmem, hfree⟩, fun n hleft =>
              have hstill := mem_freeNodes.1 hleft
              mem_freeNodes.2 ⟨hstill.1, (hadds.free hstill.2).2⟩⟩
          refine (List.subperm_of_subset (List.nodup_cons.2 ⟨fun hleft => ?_, ho.nodup.filter _⟩)
            hsub).length_le
          exact (hadds.free (mem_freeNodes.1 hleft).2).1 hadds.taking.tight.head_mem

/-- How the intervals of a graph divide it. -/
structure Divides (g : Digraph) (P : Partition) : Prop where
  assigned_iff : ∀ n, (∃ i, assigned P.intervalOf n = some i) ↔ g.Reachable g.entry n
  lt : ∀ n i, assigned P.intervalOf n = some i → i < P.intervals.length
  mem_iff : ∀ i (I : Interval), P.intervals[i]? = some I →
    ∀ n, n ∈ I.members ↔ assigned P.intervalOf n = some i
  tight : ∀ I ∈ P.intervals, g.Tight I.head I.members
  last : ∀ i (I : Interval), P.intervals[i]? = some I → I.last = (I.members.filter fun m =>
    (g.succs m).any fun n => !(assigned P.intervalOf n == some i)).getLast?
  first : ∃ I, P.intervals[0]? = some I ∧ I.head = g.entry
  inner : ∀ I ∈ P.intervals, ∀ n ∈ I.members, n ≠ I.head → n ≠ g.entry
  follows : ∀ i (I : Interval), P.intervals[i]? = some I → i ≠ 0 →
    ∃ p ∈ g.preds I.head, ∃ j < i, assigned P.intervalOf p = some j
  apart : ∀ i (I : Interval), P.intervals[i]? = some I → i ≠ 0 →
    ∀ j, ¬ ∀ p ∈ g.preds I.head, assigned P.intervalOf p = some j
  reduced_size : P.reduced.size = P.intervals.length
  reduced_nodes : P.reduced.nodes = List.range P.intervals.length
  reduced_entry : P.reduced.entry = 0
  reduced_wellFormed : P.reduced.WellFormed
  mem_succs : ∀ i j, j ∈ P.reduced.succs i ↔ i ≠ j ∧ ∃ u v,
    assigned P.intervalOf u = some i ∧ assigned P.intervalOf v = some j ∧ v ∈ g.succs u

/-- **The intervals divide the graph.** -/
theorem partition_divides
    (hg : g.Rooted)
    (ho : g.IsSweepOrder order) :
    g.Divides (g.partition order) := by
  have hshort : (freeNodes order
      { intervals := []
        intervalOf := Array.replicate g.size none
        exits := []
        heads := order.head?.toList }).length ≤ g.size + 1 :=
    (List.length_filter_le _ _).trans
      ((ho.length_le hg.wellFormed hg.entry_lt).trans (Nat.le_succ _))
  obtain ⟨h, hdone⟩ := (searching_start ho).run hg ho hshort
  generalize hsame : IntervalSearch.run g order (g.size + 1) _ = s at h hdone
  have hbegun : s.intervals ≠ [] := fun hnone => by
    rw [h.start hnone] at hdone
    cases hdone
  have hreached (n : NodeId) :
      (∃ i, assigned s.intervalOf n = some i) ↔ g.Reachable g.entry n := by
    refine ⟨fun ⟨i, hthere⟩ => (ho.mem_iff n).1 (h.mem_order n i hthere), fun ⟨nodes, w⟩ => ?_⟩
    induction w with
    | here => exact ⟨0, h.entry_assigned hbegun⟩
    | step w hsucc ih =>
        obtain ⟨i, hthere⟩ := ih ⟨_, w⟩
        exact (h.frontier _ _ i hthere hsucc).resolve_right (by simp [hdone])
  have hinside (I : Interval) (hmem : I ∈ s.intervals) (n : NodeId) (hmember : n ∈ I.members)
      (hother : n ≠ I.head) : n ≠ g.entry :=
    (ho.mem_drop_iff.1 (h.inner I hmem n hmember hother)).2
  have hlinked (i j : Nat) : j ∈ (g.partition order).reduced.succs i ↔ i ≠ j ∧ ∃ u v,
      assigned s.intervalOf u = some i ∧ assigned s.intervalOf v = some j ∧ v ∈ g.succs u := by
    simp only [partition, hsame, ofEdges, List.mem_filterMap, OrderedSet.mem_ofList,
      List.mem_filter, Prod.exists, Option.ite_none_right_eq_some, Option.some_inj,
      Bool.and_eq_true, decide_eq_true_eq, Option.map_eq_some_iff, h.exits,
      Prod.mk.injEq]
    constructor
    · rintro ⟨_, _, ⟨⟨i, v, ⟨-, hout, u, hpred, hsource⟩, j, htarget, rfl, rfl⟩, -⟩, rfl, rfl⟩
      exact ⟨fun halike => hout (halike ▸ htarget), u, v, hsource, htarget,
        (hg.wellFormed.mem_preds u v).1 hpred⟩
    · rintro ⟨hdiffer, u, v, hsource, htarget, hsucc⟩
      refine ⟨i, j, ⟨⟨i, v, ⟨hg.mem_nodes v ((hreached v).1 ⟨j, htarget⟩), ?_, u,
        (hg.wellFormed.mem_preds u v).2 hsucc, hsource⟩, j, htarget, rfl, rfl⟩, h.lt u i hsource,
        h.lt v j htarget⟩, rfl, rfl⟩
      rw [htarget, Ne, Option.some_inj]
      exact hdiffer.symm
  unfold partition at hlinked ⊢
  simp only [hsame] at hlinked ⊢
  exact {
    assigned_iff := hreached
    lt := h.lt
    mem_iff := h.mem_iff
    tight := h.tight
    last := h.last
    first := by
      obtain ⟨I, rest, hwhole⟩ := List.exists_cons_of_ne_nil hbegun
      exact ⟨I, by rw [hwhole]; rfl, h.first I (by rw [hwhole]; rfl)⟩
    inner := hinside
    follows := h.follows
    apart := h.apart
    reduced_size := rfl
    reduced_nodes := rfl
    reduced_entry := rfl
    reduced_wellFormed := ofEdges_wellFormed _ _ _
    mem_succs := hlinked }

end Search

end Digraph
end DalvikDecompiler
