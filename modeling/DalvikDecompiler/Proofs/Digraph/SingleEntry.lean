import DalvikDecompiler.Proofs.Digraph.DerivedSequence

/-!
# Intervals have a single entry

**Input.** A rooted graph and the intervals that its reverse postorder gives.

The members of an interval stand behind all their predecessors, apart from its
head.  So no walk gets into the interval but through the head, and a walk inside
of it that does not pass the head only goes on to later members.  A node outside
that has all its predecessors in one interval would have been taken in, or would
not have become the head of another one.

**Results.**
* `Walk.idxOf_lt_of_tight`: along a walk that avoids the head members come later
  and later.
* `Divides.isInterval`: each interval is a largest part with a single entry.
* `partition_singleEntry`: the intervals are a partition into such parts, and the
  graph of the intervals joins those that an edge joins.
-/

namespace DalvikDecompiler
namespace Digraph

variable {g : Digraph} {P : Partition} {I : Interval} {a b i j n : NodeId} {nodes : List NodeId}

/-- A walk among the members of an interval that avoids the head goes on to later members. -/
theorem Walk.idxOf_lt_of_tight
    {head : NodeId}
    {members : List NodeId}
    (w : g.Walk a b nodes)
    (hwf : g.WellFormed)
    (htight : g.Tight head members)
    (hinside : ∀ m, m ∈ nodes → m ∈ members)
    (havoids : head ∉ nodes) :
    nodes = [a] ∨ members.idxOf a < members.idxOf b := by
  induction w with
  | here => exact .inl rfl
  | @step p c nodes w hc ih =>
      have hne : c ≠ head := fun h => havoids (by simp [h])
      have hlater := (htight.behind c (hinside c (by simp)) hne p ((hwf.mem_preds p c).mpr hc)).2
      rcases ih (fun m hm => hinside m (by simp [hm])) fun h =>
        havoids (by simp [h]) with hone | hlt
      · have hpa : p = a := by simpa [hone] using w.target_mem
        exact .inr (hpa ▸ hlater)
      · exact .inr (Nat.lt_trans hlt hlater)

/-- A largest part of a graph with a single entry, its head, that all its cycles go through. -/
structure IsInterval (g : Digraph) (I : Interval) : Prop where
  entered : ∀ a b, b ∈ g.succs a → a ∉ I.members → b ∈ I.members → b = I.head
  dominated : ∀ n, n ∈ I.members → g.Dominates I.head n
  cyclic : ∀ n nodes, g.Walk n n nodes → nodes ≠ [n] → (∀ m, m ∈ nodes → m ∈ I.members) →
    I.head ∈ nodes
  maximal : ∀ n, g.Reachable g.entry n → n ∉ I.members → n ≠ g.entry →
    ∃ p, p ∈ g.preds n ∧ p ∉ I.members
  last_leads_out : ∀ m, I.last = some m → m ∈ I.members ∧ ∃ s, s ∈ g.succs m ∧ s ∉ I.members
  last_exists : ∀ m s, m ∈ I.members → s ∈ g.succs m → s ∉ I.members → I.last.isSome = true

/-- The predecessors of a node in another interval are not all in the given one. -/
theorem Divides.exists_pred_outside
    (h : g.Divides P)
    (hfound : P.intervals[i]? = some I)
    (hreached : g.Reachable g.entry n)
    (hout : n ∉ I.members)
    (hne : n ≠ g.entry) :
    ∃ p, p ∈ g.preds n ∧ p ∉ I.members := by
  obtain ⟨j, hj⟩ := (h.assigned_iff n).mpr hreached
  obtain ⟨J, hJ, hmem, -⟩ := h.exists_interval hj
  have hdiffer : i ≠ j := by
    rintro rfl
    exact hout ((h.mem_iff i I hfound n).mpr hj)
  by_cases hhead : n = J.head
  · -- a head other than the first was not taken in by any single interval
    have hlater : j ≠ 0 := by
      rintro rfl
      obtain ⟨K, hK, hentry⟩ := h.first
      obtain rfl : J = K := Option.some.inj (hJ.symm.trans hK)
      exact hne (hhead.trans hentry)
    by_contra hall
    push Not at hall
    exact h.apart j J hJ hlater i fun p hp => (h.mem_iff i I hfound p).mp (hall p (hhead ▸ hp))
  · obtain ⟨p, hp, hinside, -⟩ := h.exists_earlier hJ hmem hhead
    refine ⟨p, hp, fun hpI => hdiffer ?_⟩
    have hpj := (h.mem_iff j J hJ p).mp hinside
    rw [(h.mem_iff i I hfound p).mp hpI] at hpj
    exact Option.some.inj hpj

/-- Each interval is a largest part with a single entry. -/
theorem Divides.isInterval
    (h : g.Divides P)
    (hg : g.Rooted)
    (hfound : P.intervals[i]? = some I) :
    g.IsInterval I := by
  have hwf := hg.wellFormed
  have htight := h.tight I (List.mem_of_getElem? hfound)
  have hassigned := h.mem_iff i I hfound
  have hlast := h.last i I hfound
  have hleads : ∀ m, m ∈ I.members.filter (fun m =>
      (g.succs m).any fun s => !(assigned P.intervalOf s == some i)) ↔
        m ∈ I.members ∧ ∃ s, s ∈ g.succs m ∧ s ∉ I.members := by
    intro m
    simp [hassigned]
  constructor
  · intro a b hb hout hin
    by_contra hhead
    exact hout (htight.behind b hin hhead a ((hwf.mem_preds a b).mpr hb)).1
  · intro n hn
    have hdominates := (h.collapse hwf).dominates_head ((hassigned n).mp hn)
    rwa [Partition.headOf_eq hfound] at hdominates
  · intro n nodes w hmoves hinside
    by_contra havoids
    have hlater := w.idxOf_lt_of_tight hwf htight hinside havoids
    exact absurd (hlater.resolve_left hmoves) (Nat.lt_irrefl _)
  · exact fun n => h.exists_pred_outside hfound
  · intro m hm
    rw [hlast] at hm
    exact (hleads m).mp (List.mem_of_getLast? hm)
  · intro m s hm hs hout
    have hmem := (hleads m).mpr ⟨hm, s, hs, hout⟩
    rw [hlast, List.getLast?_isSome]
    exact List.ne_nil_of_mem hmem

/-- **The intervals are a partition into parts with a single entry.**  Each node that can be reached
is in exactly one of them, the first one begins at the entry, each is a largest part with a single
entry, and two of them are joined in the graph of the intervals exactly if an edge leads from a
member of the one to the head of the other one. -/
theorem partition_singleEntry
    (g : Digraph)
    (hg : g.Rooted) :
    let P := g.partition (g.reversePostorder g.entry)
    (∀ n, g.Reachable g.entry n →
      ∃! i : Nat, ∃ I : Interval, P.intervals[i]? = some I ∧ n ∈ I.members) ∧
    (∀ (i : Nat) (I : Interval), P.intervals[i]? = some I → I.members.Nodup ∧
      ∀ n, n ∈ I.members ↔ P.intervalOf[n]? = some (some i)) ∧
    (∃ I : Interval, P.intervals[0]? = some I ∧ I.head = g.entry) ∧
    (∀ I, I ∈ P.intervals → g.IsInterval I) ∧
    ∀ i j : Nat, i ≠ j → (j ∈ P.reduced.succs i ↔
      ∃ I J : Interval, P.intervals[i]? = some I ∧ P.intervals[j]? = some J ∧
        ∃ m, m ∈ I.members ∧ J.head ∈ g.succs m) := by
  intro P
  have h : g.Divides P :=
    partition_divides hg (reversePostorder_isSweepOrder hg.wellFormed hg.entry_lt)
  refine ⟨fun n hn => ?_, fun i I hfound => ⟨?_, fun n => ?_⟩, h.first, fun I hI => ?_,
    fun i j hdiffer => ⟨fun hedge => ?_, ?_⟩⟩
  · obtain ⟨i, hi⟩ := (h.assigned_iff n).mpr hn
    obtain ⟨I, hfound, hmem, -⟩ := h.exists_interval hi
    refine ⟨i, ⟨I, hfound, hmem⟩, fun j ⟨J, hJ, hmemJ⟩ => ?_⟩
    have hj := (h.mem_iff j J hJ n).mp hmemJ
    rw [hi] at hj
    exact (Option.some.inj hj).symm
  · exact (h.tight I (List.mem_of_getElem? hfound)).nodup
  · rw [h.mem_iff i I hfound n, assigned, Option.join_eq_some_iff]
  · obtain ⟨i, hfound⟩ := List.getElem?_of_mem hI
    exact h.isInterval hg hfound
  · obtain ⟨-, u, v, hu, hv, hsucc⟩ := (h.mem_succs i j).mp hedge
    obtain ⟨I, hI, hmem, -⟩ := h.exists_interval hu
    obtain ⟨J, hJ, -, hhead⟩ := h.exists_interval hv
    have htarget := h.target_eq hg.wellFormed hu hv hsucc hdiffer
    exact ⟨I, J, hI, hJ, u, hmem, hhead ▸ htarget ▸ hsucc⟩
  · rintro ⟨I, J, hI, hJ, m, hm, hsucc⟩
    exact (h.mem_succs i j).mpr
      ⟨hdiffer, m, J.head, (h.mem_iff i I hI m).mp hm, h.head_assigned hJ, hsucc⟩

/-- The loop of two nodes is an interval behind that of the entry: its first node dominates the
second one and is on each cycle. -/
theorem partition_singleEntry_loopOfTwo :
    loopOfTwo.Rooted ∧
      (loopOfTwo.partition (loopOfTwo.reversePostorder 0)).intervals.map Interval.members =
        [[0], [1, 2]] ∧
      loopOfTwo.Dominates 1 2 ∧
      ∀ nodes, loopOfTwo.Walk 2 2 nodes → nodes ≠ [2] → (∀ m, m ∈ nodes → m ∈ [1, 2]) →
        1 ∈ nodes := by
  have hintervals : (loopOfTwo.partition (loopOfTwo.reversePostorder 0)).intervals =
      [⟨0, [0], some 0⟩, ⟨1, [1, 2], none⟩] := by
    cbv
  obtain ⟨-, -, -, hall, -⟩ := partition_singleEntry loopOfTwo loopOfTwo_rooted
  have hloop : loopOfTwo.IsInterval ⟨1, [1, 2], none⟩ := hall _ (by
    rw [show loopOfTwo.entry = 0 from rfl, hintervals]
    simp)
  exact ⟨loopOfTwo_rooted, by rw [hintervals]; rfl, hloop.dominated 2 (by simp), hloop.cyclic 2⟩

end Digraph
end DalvikDecompiler
