import DalvikDecompiler.Proofs.Digraph.Collapse

/-!
# What a derived sequence says

**Input.** A rooted graph and an order in which its nodes are swept over.

The nodes of each level stand for parts of the first graph.  Intervals keep reducibility, and the
graph of the intervals has no edges from nodes to themselves, so that a reducible graph of this kind
goes on shrinking until one interval is left.  The first graph may have such edges: where every
node but the entry has one, or has several predecessors, the sequence stops there.

Heads and members of intervals are nodes of the graph or of the order, whether or not they can be
reached.  So what holds of all of these in the first graph holds of the nodes at which the nodes of
later graphs end.

**Results.**
* `Derived.sequence`: the nodes of every level stand for parts of the first
  graph.
* `DerivedLevel.Swept.irreducible_iff`: the verdict on any level.
* `derivedSequence_reducible`: the verdict, and what the last level stands for.
* `within_of_mem_partition`: intervals hold nodes of the graph and of the order.
* `DerivedLevel.Ends.sequence`: where the nodes of all levels end.
-/

namespace DalvikDecompiler
namespace Digraph

/-- A level that has been made from its graph and an order of it. -/
structure DerivedLevel.Swept (level : DerivedLevel) (order : List NodeId) : Prop where
  rooted : level.graph.Rooted
  sweeps : level.graph.IsSweepOrder order
  number_eq : ∀ n, level.number n = if n ∈ order then order.idxOf n + 1 else 0
  partition_eq : level.partition = level.graph.partition order

/-- Whether a node of a level can be reached and stands for a node of the first graph. -/
def DerivedLevel.Holds (level : DerivedLevel) (i x : NodeId) : Prop :=
  level.graph.Reachable level.graph.entry i ∧ x ∈ level.nodesOf i

/-- A level whose nodes stand for parts of a graph. -/
structure Derived (g : Digraph) (level : DerivedLevel) : Prop where
  swept : ∃ order, level.Swept order
  collapse : Collapse g level.graph level.Holds level.headOf
  last_mem : ∀ i, level.graph.Reachable level.graph.entry i → level.Holds i (level.lastOf i)

section Numbers

variable {order : List NodeId} {numbers : Array Nat} {n : NodeId}

/-- Numbering nodes one after another. -/
theorem getElem?_foldl_number
    (hnodup : order.Nodup)
    (hknown : ∀ n ∈ order, n < numbers.size)
    (start : Nat) :
    ((order.zipIdx start).foldl
      (fun numbers (node, position) => numbers.setIfInBounds node (position + 1)) numbers)[n]?.getD
        0 = if n ∈ order then start + order.idxOf n + 1 else numbers[n]?.getD 0 := by
  induction order generalizing numbers start with
  | nil => simp
  | cons first rest ih =>
      rw [List.nodup_cons] at hnodup
      rw [List.zipIdx_cons, List.foldl_cons, ih hnodup.2 fun n hmem => by
        simpa using hknown n (List.mem_cons_of_mem first hmem)]
      by_cases hsame : n = first
      · subst hsame
        simp [hnodup.1, hknown n List.mem_cons_self]
      · simp only [List.mem_cons, hsame, false_or, List.idxOf_cons_ne rest (Ne.symm hsame)]
        rw [Array.getElem?_setIfInBounds_ne (Ne.symm hsame)]
        split <;> omega

end Numbers

namespace DerivedLevel

variable {graph : Digraph} {level : DerivedLevel} {order : List NodeId} {I : Interval}
variable {i k x : NodeId}

theorem swept_of
    (hrooted : graph.Rooted)
    (hsweeps : graph.IsSweepOrder order)
    (baseHead baseLast : Array NodeId)
    (baseNodes : Array (List NodeId)) :
    (DerivedLevel.of graph order baseHead baseLast baseNodes).Swept order where
  rooted := hrooted
  sweeps := hsweeps
  number_eq n := by
    have hknown (n : NodeId) (hmem : n ∈ order) : n < (Array.replicate graph.size 0).size := by
      simpa using hsweeps.lt_size hrooted.wellFormed hrooted.entry_lt hmem
    have hzero : ((Array.replicate graph.size 0)[n]?.getD 0 : Nat) = 0 := by
      rw [Array.getElem?_replicate]
      split <;> rfl
    have hnumbered := getElem?_foldl_number (n := n) hsweeps.nodup hknown 0
    rw [Nat.zero_add, hzero] at hnumbered
    exact hnumbered
  partition_eq := rfl

theorem Swept.divides
    (h : level.Swept order) :
    level.graph.Divides level.partition :=
  h.partition_eq ▸ partition_divides h.rooted h.sweeps

theorem Swept.reachable_eq
    (h : level.Swept order) :
    level.reachable = order.length := by
  refine List.Perm.length_eq ((List.perm_ext_iff_of_nodup
    (List.nodup_range.filter _) h.sweeps.nodup).2 fun n => ?_)
  rw [List.mem_filter, List.mem_range, bne_iff_ne, h.number_eq]
  by_cases hmem : n ∈ order
  · simp [hmem, h.sweeps.lt_size h.rooted.wellFormed h.rooted.entry_lt hmem]
  · simp [hmem]

/-- The next level is made from the graph of the intervals. -/
theorem Swept.next
    (h : level.Swept order) :
    level.next.Swept (level.partition.reduced.reversePostorder 0) := by
  have hrooted := h.divides.reduced_rooted h.rooted.wellFormed
  have hsweeps := reversePostorder_isSweepOrder hrooted.wellFormed hrooted.entry_lt
  rw [h.divides.reduced_entry] at hsweeps
  exact swept_of hrooted hsweeps _ _ _

theorem mem_intervalNodes :
    x ∈ level.intervalNodes I ↔ ∃ i ∈ I.members, x ∈ level.nodesOf i := by
  simp [intervalNodes]

theorem next_nodesOf
    (hfound : level.partition.intervals[k]? = some I) :
    level.next.nodesOf k = level.intervalNodes I := by
  simp [nodesOf, next, of, hfound]

theorem next_headOf
    (hfound : level.partition.intervals[k]? = some I) :
    level.next.headOf k = level.headOf I.head := by
  simp [headOf, next, of, hfound]

theorem next_lastOf
    (hfound : level.partition.intervals[k]? = some I) :
    level.next.lastOf k = level.lastOf ((I.last.or I.members.getLast?).getD I.head) := by
  simp [lastOf, next, of, hfound]

/-- The verdict on a level: it is reducible, and something in it can be contracted. -/
theorem Swept.irreducible_iff
    (h : level.Swept order) :
    level.sequence.irreducible = false ↔ level.graph.Reducible ∧ level.graph.Contracts := by
  induction level using DerivedLevel.sequence.induct generalizing order with
  | case1 level hsingle =>
      rw [sequence, if_pos hsingle]
      have hcontracts := (h.divides.contracts_iff h.sweeps).2 (.inl hsingle)
      have hreducible : level.partition.reduced.Reducible := by
        intro i hcycle
        obtain ⟨j, hedge, -⟩ := Relation.TransGen.head'_iff.1 hcycle
        have hlt := h.divides.reduced_wellFormed.source_lt i j hedge.1
        have hlt' := h.divides.reduced_wellFormed.target_lt i j hedge.1
        have hdiffer := ((h.divides.mem_succs i j).1 hedge.1).1
        rw [h.divides.reduced_size] at hlt hlt'
        have hfirst : i = 0 := Nat.lt_one_iff.1 (hlt.trans_le hsingle)
        exact hdiffer (hfirst.trans (Nat.lt_one_iff.1 (hlt'.trans_le hsingle)).symm)
      simp [hcontracts, (h.divides.reducible_iff h.rooted).1 hreducible]
  | case2 level hseveral hall =>
      rw [sequence, if_neg hseveral, if_pos hall]
      rw [h.reachable_eq, h.divides.reduced_size] at hall
      have hstuck : ¬ level.graph.Contracts := fun hcontracts => by
        have hfewer := (h.divides.contracts_iff h.sweeps).1 hcontracts
        omega
      simp [hstuck]
  | case3 level hseveral hfewer ih =>
      rw [sequence, if_neg hseveral, if_neg hfewer]
      rw [h.reachable_eq, h.divides.reduced_size] at hfewer
      have hcontracts := (h.divides.contracts_iff h.sweeps).2 (.inr (Nat.lt_of_not_le hfewer))
      have hnext_contracts (hreducible : level.partition.reduced.Reducible) :
          level.partition.reduced.Contracts :=
        hreducible.contracts h.next.rooted fun n _ => h.divides.reduced_loopless n
      calc
        level.next.sequence.irreducible = false ↔
            level.partition.reduced.Reducible ∧ level.partition.reduced.Contracts := ih h.next
        _ ↔ level.partition.reduced.Reducible :=
            ⟨And.left, fun hreducible => ⟨hreducible, hnext_contracts hreducible⟩⟩
        _ ↔ level.graph.Reducible := h.divides.reducible_iff h.rooted
        _ ↔ level.graph.Reducible ∧ level.graph.Contracts := by simp [hcontracts]

/-- A sequence that has not got stuck ends with one interval. -/
theorem exists_last_of_reducible
    (hdone : level.sequence.irreducible = false) :
    ∃ last, level.sequence.levels.getLast? = some last ∧
      last.partition.intervals.length ≤ 1 := by
  fun_induction DerivedLevel.sequence level with
  | case1 level hsingle => exact ⟨level, rfl, hsingle⟩
  | case2 => cases hdone
  | case3 level hseveral hfewer rest ih =>
      obtain ⟨last, hfound, hsingle⟩ := ih hdone
      refine ⟨last, ?_, hsingle⟩
      rw [List.getLast?_cons, hfound]
      rfl

end DerivedLevel

section Regions

variable {g : Digraph} {level : DerivedLevel} {order : List NodeId} {i x : NodeId}

/-- The first level of the derived sequence of a graph. -/
def DerivedLevel.base (g : Digraph) (order : List NodeId) : DerivedLevel :=
  let slots := List.range g.size
  .of g order slots.toArray slots.toArray (slots.map fun n => [n]).toArray

@[simp] theorem DerivedLevel.base_headOf
    (g : Digraph)
    (order : List NodeId)
    (i : NodeId) :
    (DerivedLevel.base g order).headOf i = i := by
  by_cases hknown : i < g.size <;> simp [headOf, base, DerivedLevel.of, hknown]

@[simp] theorem DerivedLevel.base_lastOf
    (g : Digraph)
    (order : List NodeId)
    (i : NodeId) :
    (DerivedLevel.base g order).lastOf i = i := by
  by_cases hknown : i < g.size <;> simp [lastOf, base, DerivedLevel.of, hknown]

theorem DerivedLevel.base_holds
    (hg : g.Rooted)
    (ho : g.IsSweepOrder order) :
    (DerivedLevel.base g order).Holds i x ↔ g.Reachable g.entry i ∧ x = i := by
  refine and_congr_right fun hreached => ?_
  have hknown := ho.lt_size hg.wellFormed hg.entry_lt ((ho.mem_iff i).2 hreached)
  simp [nodesOf, base, DerivedLevel.of, hknown]

theorem derived_base
    (hg : g.Rooted)
    (ho : g.IsSweepOrder order) :
    Derived g (DerivedLevel.base g order) where
  swept := ⟨order, DerivedLevel.swept_of hg ho _ _ _⟩
  collapse := (Collapse.refl g).congr (fun _ _ => DerivedLevel.base_holds hg ho)
    fun i _ => DerivedLevel.base_headOf g order i
  last_mem i hreached :=
    (DerivedLevel.base_holds hg ho).2 ⟨hreached, DerivedLevel.base_lastOf g order i⟩

/-- A node of the next level stands for what the members of an interval stand for. -/
theorem Derived.holds_next
    (h : Derived g level)
    {k : NodeId} :
    level.next.Holds k x ↔
      ∃ i, assigned level.partition.intervalOf i = some k ∧ level.Holds i x := by
  obtain ⟨order, hswept⟩ := h.swept
  have hdivides := hswept.divides
  have hparts := hdivides.collapse hswept.rooted.wellFormed
  constructor
  · rintro ⟨hreached, hmem⟩
    obtain ⟨I, hfound, -⟩ := hdivides.exists_interval (hparts.head_mem k hreached)
    rw [DerivedLevel.next_nodesOf hfound] at hmem
    obtain ⟨i, hmember, hmem⟩ := DerivedLevel.mem_intervalNodes.1 hmem
    have hthere := (hdivides.mem_iff k I hfound i).1 hmember
    exact ⟨i, hthere, (hdivides.assigned_iff i).1 ⟨k, hthere⟩, hmem⟩
  · rintro ⟨i, hthere, -, hmem⟩
    obtain ⟨I, hfound, hmember, -⟩ := hdivides.exists_interval hthere
    refine ⟨hparts.reached hthere, ?_⟩
    rw [DerivedLevel.next_nodesOf hfound]
    exact DerivedLevel.mem_intervalNodes.2 ⟨i, hmember, hmem⟩

/-- The nodes of the next level are intervals of this one. -/
theorem Derived.next
    (h : Derived g level) :
    Derived g level.next := by
  obtain ⟨order, hswept⟩ := h.swept
  have hdivides := hswept.divides
  have hparts := hdivides.collapse hswept.rooted.wellFormed
  have heads (k : NodeId)
      (hreached : level.partition.reduced.Reachable level.partition.reduced.entry k) :
      level.next.headOf k = level.headOf (level.partition.headOf k) := by
    obtain ⟨I, hfound, -, hsame⟩ := hdivides.exists_interval (hparts.head_mem k hreached)
    rw [DerivedLevel.next_headOf hfound, hsame]
  refine ⟨⟨_, hswept.next⟩, (h.collapse.trans hparts).congr (fun _ _ => h.holds_next) heads,
    fun k hreached => ?_⟩
  obtain ⟨I, hfound, hmem, -⟩ := hdivides.exists_interval (hparts.head_mem k hreached)
  have hmember : (I.last.or I.members.getLast?).getD I.head ∈ I.members := by
    cases hlast : I.last.or I.members.getLast? with
    | none => exact (hdivides.tight I (List.mem_of_getElem? hfound)).head_mem
    | some m =>
        rcases Option.or_eq_some_iff.1 hlast with hleaving | ⟨-, hfinal⟩
        · rw [hdivides.last k I hfound] at hleaving
          exact List.mem_of_mem_filter (List.mem_of_getLast? hleaving)
        · exact List.mem_of_getLast? hfinal
  have hthere := (hdivides.mem_iff k I hfound _).1 hmember
  rw [DerivedLevel.next_lastOf hfound]
  exact h.holds_next.2 ⟨_, hthere, h.last_mem _ ((hdivides.assigned_iff _).1 ⟨k, hthere⟩)⟩

/-- **The nodes of every level stand for parts of the first graph.** -/
theorem Derived.sequence
    (h : Derived g level)
    {later : DerivedLevel}
    (hmem : later ∈ level.sequence.levels) :
    Derived g later := by
  fun_induction DerivedLevel.sequence level with
  | case1 | case2 => exact List.mem_singleton.1 hmem ▸ h
  | case3 level hseveral hfewer rest ih =>
      rcases List.mem_cons.1 hmem with rfl | hmem
      · exact h
      · exact ih h.next hmem

/-- An interval stands for all that can be reached if it is the only one. -/
theorem Derived.mem_intervalNodes_iff
    (h : Derived g level)
    (hsingle : level.partition.intervals.length ≤ 1) :
    ∃ I, level.partition.intervals = [I] ∧
      ∀ x, x ∈ level.intervalNodes I ↔ g.Reachable g.entry x := by
  obtain ⟨order, hswept⟩ := h.swept
  have hdivides := hswept.divides
  obtain ⟨I, hfound, -⟩ := hdivides.first
  have honly : level.partition.intervals = [I] := by
    obtain ⟨J, hsame⟩ := List.length_eq_one_iff.1
      (le_antisymm hsingle (List.length_pos_of_mem (List.mem_of_getElem? hfound)))
    rw [hsame] at hfound ⊢
    rw [Option.some_inj.1 hfound]
  refine ⟨I, honly, fun x => ?_⟩
  rw [DerivedLevel.mem_intervalNodes, ← h.collapse.reachable_iff]
  refine exists_congr fun i => and_congr_left fun hmem => ?_
  rw [hdivides.mem_iff 0 I hfound]
  refine ⟨fun hthere => (hdivides.assigned_iff i).1 ⟨0, hthere⟩, fun hreached => ?_⟩
  obtain ⟨k, hthere⟩ := (hdivides.assigned_iff i).2 hreached
  have hlt := hdivides.lt i k hthere
  rw [honly] at hlt
  exact Nat.lt_one_iff.1 hlt ▸ hthere

end Regions

/-- **The verdict on a graph.**  A derived sequence calls a graph reducible when all retreating
edges lead to dominators, unless it cannot contract anything to begin with; its last level then
stands for all that can be reached, as one interval. -/
theorem derivedSequence_reducible
    (g : Digraph)
    (hg : g.Rooted) :
    let order := g.reversePostorder g.entry
    let sequence := g.derivedSequence order
    (sequence.irreducible = false ↔ g.RetreatsToDominators order ∧ g.Contracts) ∧
      ((∀ n, g.Reachable g.entry n → n ∉ g.succs n) →
        (sequence.irreducible = false ↔ g.RetreatsToDominators order)) ∧
      (sequence.irreducible = false → ∃ last I, sequence.levels.getLast? = some last ∧
        last.partition.intervals = [I] ∧
        ∀ x, x ∈ last.intervalNodes I ↔ g.Reachable g.entry x) := by
  intro order sequence
  have ho : g.IsSweepOrder order := reversePostorder_isSweepOrder hg.wellFormed hg.entry_lt
  have hbase := derived_base hg ho
  have hverdict : sequence.irreducible = false ↔ g.RetreatsToDominators order ∧ g.Contracts := by
    rw [← reducible_iff hg.wellFormed hg.entry_lt]
    exact (DerivedLevel.swept_of hg ho _ _ _).irreducible_iff
  refine ⟨hverdict, fun hloopless => ?_, fun hdone => ?_⟩
  · rw [hverdict, ← reducible_iff hg.wellFormed hg.entry_lt]
    exact and_iff_left_of_imp fun hreducible => hreducible.contracts hg hloopless
  · obtain ⟨last, hfound, hsingle⟩ := DerivedLevel.exists_last_of_reducible hdone
    obtain ⟨I, honly, hnodes⟩ :=
      (hbase.sequence (List.mem_of_getLast? hfound)).mem_intervalNodes_iff hsingle
    exact ⟨last, I, hfound, honly, hnodes⟩

section Members

variable {g : Digraph} {order : List NodeId} {s : IntervalSearch} {I : Interval}

/-- Head, members and last member of an interval are where they should be. -/
structure Interval.Within (I : Interval) (nodes : List NodeId) : Prop where
  head_mem : I.head ∈ nodes
  members_subset : I.members ⊆ nodes
  last_mem : ∀ m, I.last = some m → m ∈ I.members

/-- What has been found so far lies within a list of nodes, and so do the heads that wait. -/
structure IntervalSearch.Within (s : IntervalSearch) (nodes : List NodeId) : Prop where
  intervals : ∀ I ∈ s.intervals, I.Within nodes
  heads_subset : s.heads ⊆ nodes

theorem IntervalSearch.Within.addInterval
    (h : s.Within (order ++ g.nodes))
    {head : NodeId}
    (hknown : head ∈ order ++ g.nodes) :
    (s.addInterval g order head).Within (order ++ g.nodes) := by
  have hgrown : (grow g s.intervals.length (order.drop 1) (g.size + 1)
      (s.intervalOf.setIfInBounds head (some s.intervals.length), [head])).2 ⊆
        order ++ g.nodes := by
    refine grow_induction (P := fun state => state.2 ⊆ order ++ g.nodes)
      (fun state n hmem hsub _ => List.append_subset.2 ⟨hsub, fun m hnew => ?_⟩) _ fun m hnew => ?_
    · exact List.mem_append_left _ (List.mem_of_mem_drop (List.mem_singleton.1 hnew ▸ hmem))
    · exact List.mem_singleton.1 hnew ▸ hknown
  unfold IntervalSearch.addInterval
  refine ⟨fun I hmem => ?_, List.append_subset.2 ⟨h.heads_subset, fun n hmem => ?_⟩⟩
  · rcases List.mem_append.1 hmem with hmem | hmem
    · exact h.intervals I hmem
    · obtain rfl := List.mem_singleton.1 hmem
      exact ⟨hknown, hgrown, fun m hlast => List.mem_of_mem_filter (List.mem_of_getLast? hlast)⟩
  · exact List.mem_append_right _ (List.mem_of_mem_filter (List.mem_of_mem_filter hmem))

theorem IntervalSearch.Within.run
    (h : s.Within (order ++ g.nodes))
    (steps : Nat) :
    (IntervalSearch.run g order steps s).Within (order ++ g.nodes) := by
  induction steps generalizing s with
  | zero => exact h
  | succ steps ih =>
      rw [IntervalSearch.run]
      split
      · exact h
      · next head rest heads =>
          obtain ⟨hknown, hsub⟩ := List.cons_subset.1 (heads ▸ h.heads_subset)
          have hleft : IntervalSearch.Within { s with heads := rest } (order ++ g.nodes) :=
            ⟨h.intervals, hsub⟩
          dsimp only
          split
          · exact ih hleft
          · exact ih (hleft.addInterval hknown)

/-- **Intervals hold nodes of the graph and of the order.** -/
theorem within_of_mem_partition
    (g : Digraph)
    (order : List NodeId)
    (hmem : I ∈ (g.partition order).intervals) :
    I.Within (order ++ g.nodes) := by
  have hstart : IntervalSearch.Within
      { intervals := []
        intervalOf := Array.replicate g.size none
        exits := []
        heads := order.head?.toList } (order ++ g.nodes) :=
    ⟨nofun, fun n hmem => List.mem_append_left _ (List.mem_of_head? (Option.mem_toList.1 hmem))⟩
  exact (hstart.run (g.size + 1)).intervals I hmem

end Members

section Levels

variable {level : DerivedLevel} {P : NodeId → Prop}

/-- The nodes of a level that are in an interval, or that an edge leads from, end at nodes of a
given kind. -/
structure DerivedLevel.Ends (level : DerivedLevel) (P : NodeId → Prop) : Prop where
  reduced : ∃ edges,
    level.partition.reduced = ofEdges level.partition.intervals.length edges 0
  preds : ∀ n, ∀ p ∈ level.graph.preds n, P (level.lastOf p)
  head : ∀ I ∈ level.partition.intervals, P (level.lastOf I.head)
  members : ∀ I ∈ level.partition.intervals, ∀ m ∈ I.members, P (level.lastOf m)
  last : ∀ I ∈ level.partition.intervals, ∀ m, I.last = some m → m ∈ I.members

/-- A level ends well if the nodes of its graph do, and those that edges lead from. -/
theorem DerivedLevel.ends_of
    (graph : Digraph)
    (order : List NodeId)
    (baseHead baseLast : Array NodeId)
    (baseNodes : Array (List NodeId))
    (hnodes : ∀ n ∈ order ++ graph.nodes, P (baseLast[n]?.getD n))
    (hpreds : ∀ n, ∀ p ∈ graph.preds n, P (baseLast[p]?.getD p)) :
    (DerivedLevel.of graph order baseHead baseLast baseNodes).Ends P where
  reduced := ⟨_, rfl⟩
  preds := hpreds
  head _ hmem := hnodes _ (within_of_mem_partition graph order hmem).head_mem
  members _ hmem m hinside :=
    hnodes m ((within_of_mem_partition graph order hmem).members_subset hinside)
  last _ hmem := (within_of_mem_partition graph order hmem).last_mem

/-- An interval ends where one of its members ends. -/
theorem DerivedLevel.Ends.next
    (h : level.Ends P) :
    level.next.Ends P := by
  obtain ⟨edges, hreduced⟩ := h.reduced
  have hends (k : NodeId) (hknown : k < level.partition.intervals.length) :
      P (level.next.lastOf k) := by
    have hfound := List.getElem?_eq_getElem hknown
    rw [next_lastOf hfound]
    have hmem := List.getElem_mem hknown
    cases hlast : level.partition.intervals[k].last.or
        level.partition.intervals[k].members.getLast? with
    | none => exact h.head _ hmem
    | some m =>
        rcases Option.or_eq_some_iff.1 hlast with hleaving | ⟨-, hfinal⟩
        · exact h.members _ hmem m (h.last _ hmem m hleaving)
        · exact h.members _ hmem m (List.mem_of_getLast? hfinal)
  have hsize : level.partition.reduced.size = level.partition.intervals.length := by
    rw [hreduced]
    rfl
  refine ends_of _ _ _ _ _ (fun n hmem => hends n ?_) fun n p hmem => hends p ?_
  · rcases List.mem_append.1 hmem with hmem | hmem
    · rw [reversePostorder, List.mem_reverse] at hmem
      rcases mem_of_mem_leaveOrder _ hmem with hwaits | hknown
      · simp at hwaits
      · exact hsize ▸ List.mem_range.1 hknown
    · rw [hreduced] at hmem
      exact List.mem_range.1 hmem
  · rw [hreduced] at hmem
    obtain ⟨⟨p', n'⟩, hkept, hfound⟩ := List.mem_filterMap.1 hmem
    split at hfound
    · next here =>
        obtain rfl := Option.some.inj hfound
        have hinside := (List.mem_filter.1 ((OrderedSet.mem_ofList).1 hkept)).2
        simp only [Bool.and_eq_true, decide_eq_true_eq] at hinside
        exact hinside.1
    · cases hfound

/-- **What holds of the ends of the nodes of one level holds of those of all later ones.** -/
theorem DerivedLevel.Ends.sequence
    (h : level.Ends P)
    {later : DerivedLevel}
    (hmem : later ∈ level.sequence.levels) :
    later.Ends P := by
  fun_induction DerivedLevel.sequence level with
  | case1 | case2 => exact List.mem_singleton.1 hmem ▸ h
  | case3 level hseveral hfewer rest ih =>
      rcases List.mem_cons.1 hmem with rfl | hmem
      · exact h
      · exact ih h.next hmem

end Levels

section Examples

/-- A graph all of whose slots can be reached from the entry. -/
theorem ofEdges_rooted
    {size : Nat}
    {edges : List (NodeId × NodeId)}
    {entry : NodeId}
    (hlt : entry < size)
    (hall : ∀ n < size, (ofEdges size edges entry).Reachable entry n) :
    (ofEdges size edges entry).Rooted where
  wellFormed := ofEdges_wellFormed size edges entry
  entry_lt := hlt
  mem_nodes n hreached := by
    obtain ⟨nodes, w⟩ := hreached
    cases w with
    | here => exact List.mem_range.2 hlt
    | step _ hsucc => exact List.mem_range.2 ((ofEdges_wellFormed _ _ _).target_lt _ _ hsucc)
  nodes_nodup := List.nodup_range
  pred_reachable n p _ hpred := by
    have hwellFormed := ofEdges_wellFormed size edges entry
    exact hall p (hwellFormed.source_lt p n ((hwellFormed.mem_preds p n).1 hpred))

/-- A loop of two nodes behind the entry. -/
def loopOfTwo : Digraph :=
  ofEdges 3 [(0, 1), (1, 2), (2, 1)] 0

/-- A node that leads to itself only. -/
def endlessLoop : Digraph :=
  ofEdges 2 [(0, 1), (1, 1)] 0

theorem loopOfTwo_rooted :
    loopOfTwo.Rooted := by
  have hfirst : loopOfTwo.Reachable 0 1 := (Reachable.refl _ 0).step (by decide)
  refine ofEdges_rooted (by decide) fun n hlt => ?_
  interval_cases n
  · exact .refl _ 0
  · exact hfirst
  · exact hfirst.step (by decide)

theorem endlessLoop_rooted :
    endlessLoop.Rooted := by
  refine ofEdges_rooted (by decide) fun n hlt => ?_
  interval_cases n
  · exact .refl _ 0
  · exact (Reachable.refl _ 0).step (by decide)

theorem mem_succs_ofEdges
    {size : Nat}
    {edges : List (NodeId × NodeId)}
    {entry a b : NodeId} :
    b ∈ (ofEdges size edges entry).succs a ↔ (a, b) ∈ edges ∧ a < size ∧ b < size := by
  simp [ofEdges]

theorem derivedSequence_reducible_loopOfTwo :
    (loopOfTwo.derivedSequence (loopOfTwo.reversePostorder 0)).irreducible = false := by
  have hreducible : loopOfTwo.Reducible := by
    refine reducible_of_increasing fun a b hsucc => ?_
    have hedge : (a = 0 ∧ b = 1) ∨ (a = 1 ∧ b = 2) ∨ a = 2 ∧ b = 1 := by
      simpa using (mem_succs_ofEdges.1 hsucc).1
    rcases hedge with ⟨rfl, rfl⟩ | ⟨rfl, rfl⟩ | ⟨rfl, rfl⟩
    · exact .inl (by decide)
    · exact .inl (by decide)
    · exact .inr (dominates_of_closed loopOfTwo_rooted.wellFormed [1, 2] (by decide)
        (by decide) (by decide))
  have hloopless (n : NodeId) : n ∉ loopOfTwo.succs n := by
    intro hsucc
    have hedge : (n = 0 ∧ n = 1) ∨ (n = 1 ∧ n = 2) ∨ n = 2 ∧ n = 1 := by
      simpa using (mem_succs_ofEdges.1 hsucc).1
    rcases hedge with ⟨rfl, hsame⟩ | ⟨rfl, hsame⟩ | ⟨rfl, hsame⟩ <;> cases hsame
  exact ((derivedSequence_reducible loopOfTwo loopOfTwo_rooted).2.1 fun n _ => hloopless n).2
    ((reducible_iff loopOfTwo_rooted.wellFormed loopOfTwo_rooted.entry_lt).1 hreducible)

/-- A loop that nothing leads out of is reducible, but the sequence gets stuck on it. -/
theorem endlessLoop_stuck :
    endlessLoop.Rooted ∧ endlessLoop.RetreatsToDominators (endlessLoop.reversePostorder 0) ∧
      (endlessLoop.derivedSequence (endlessLoop.reversePostorder 0)).irreducible = true := by
  have hg := endlessLoop_rooted
  have hreducible : endlessLoop.Reducible := by
    refine reducible_of_increasing fun a b hsucc => ?_
    have hedge : (a = 0 ∧ b = 1) ∨ a = 1 ∧ b = 1 := by
      simpa using (mem_succs_ofEdges.1 hsucc).1
    rcases hedge with ⟨rfl, rfl⟩ | ⟨rfl, rfl⟩
    · exact .inl (by decide)
    · exact .inr (dominates_self _ _)
  exact ⟨hg, (reducible_iff hg.wellFormed hg.entry_lt).1 hreducible, by cbv⟩

end Examples

end Digraph
end DalvikDecompiler
