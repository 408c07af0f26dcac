import DalvikDecompiler.Proofs.Digraph.DerivedSequence

/-!
# Back edges and natural loops

**Input.** A rooted graph and its derived sequence.

An edge to a node that dominates its source joins two members of an interval, or else two intervals
one of which dominates the other.  In the first case it leads to the head of the interval, in the
second one it turns up in the next level again.  So it closes an interval in the end, if the
sequence goes on until one interval is left.

The natural loop of a node is made of the nodes that lead back to it, through edges from nodes that
it dominates, without passing it.  A loop without loops in it lies in one interval of the first
graph, so that no later level leads back to its head; the reverse postorder goes on along its edges
except those to the head.

**Results.**
* `Derived.closes_sound`: an edge back to the head of an interval stands for
  an edge to a dominator.
* `derivedSequence_closes_iff`: the heads of intervals with such edges are the
  targets of edges to dominators, if the graph is reducible and can be
  contracted.
* `Collapse.walk_inside`: a walk to a node of a part that does not pass the
  head stays in the part.
* `InnermostLoop.assigned`: a loop without loops in it lies in one interval.
* `InnermostLoop.not_closes`: later levels do not lead back to its head.
* `InnermostLoop.idxOf_le`: it is numbered along its edges.
-/

namespace DalvikDecompiler
namespace Digraph

/-- The members of an interval that lead to its head. -/
def DerivedLevel.backPreds (level : DerivedLevel) (k : Nat) (I : Interval) : List NodeId :=
  (level.graph.preds I.head).filter fun p => level.intervalOf p == some k

/-- Whether an interval that begins at a node of the first graph leads back to its head. -/
def DerivedLevel.Closes (level : DerivedLevel) (n : NodeId) : Prop :=
  ∃ k I, level.partition.intervals[k]? = some I ∧ level.headOf I.head = n ∧ level.backPreds k I ≠ []

section Closing

variable {g : Digraph} {level later : DerivedLevel} {order : List NodeId} {I : Interval}
variable {a b h i j k n x y : NodeId}

theorem DerivedLevel.mem_backPreds
    {p : NodeId} :
    p ∈ level.backPreds k I ↔
      p ∈ level.graph.preds I.head ∧ assigned level.partition.intervalOf p = some k := by
  simp [backPreds, intervalOf]

/-- An edge to a dominator inside of an interval leads to the head. -/
theorem Divides.eq_head_of_dominates
    {P : Partition}
    (hdivides : g.Divides P)
    (hg : g.Rooted)
    (hfound : P.intervals[i]? = some I)
    (htarget : assigned P.intervalOf b = some i)
    (hsucc : b ∈ g.succs a)
    (hdominates : g.Dominates b a) :
    b = I.head := by
  by_contra hother
  obtain ⟨hinside, hlt⟩ := (hdivides.tight I (List.mem_of_getElem? hfound)).behind b
    ((hdivides.mem_iff i I hfound b).2 htarget) hother a ((hg.wellFormed.mem_preds a b).2 hsucc)
  have hup := hdivides.dominates_head_of_later hg.wellFormed hfound hinside hlt hdominates
  have hdown := (hdivides.collapse hg.wellFormed).dominates_head htarget
  rw [Partition.headOf_eq hfound] at hdown
  exact hother (hup.antisymm ((hdivides.assigned_iff _).1 ⟨i, hdivides.head_assigned hfound⟩) hdown)

/-- Different intervals of a level begin at different nodes of the first graph. -/
theorem Derived.interval_eq
    (hderived : Derived g level)
    {J : Interval}
    (hfound : level.partition.intervals[k]? = some I)
    (hfound' : level.partition.intervals[j]? = some J)
    (hsame : level.headOf I.head = level.headOf J.head) :
    k = j := by
  obtain ⟨order, hswept⟩ := hderived.swept
  have hdivides := hswept.divides
  have hleft := hdivides.head_assigned hfound
  have hright := hdivides.head_assigned hfound'
  have holds := hderived.collapse.head_mem _ ((hdivides.assigned_iff _).1 ⟨k, hleft⟩)
  have holds' := hderived.collapse.head_mem _ ((hdivides.assigned_iff _).1 ⟨j, hright⟩)
  have heads := hderived.collapse.unique _ _ _ holds (hsame ▸ holds')
  rw [heads, hright, Option.some_inj] at hleft
  exact hleft.symm

/-- An edge back to the head of an interval stands for an edge to a dominator. -/
theorem Derived.exists_back_edge
    (hderived : Derived g level)
    (hfound : level.partition.intervals[k]? = some I)
    {p : NodeId}
    (hmem : p ∈ level.backPreds k I) :
    ∃ u, level.Holds p u ∧ level.headOf I.head ∈ g.succs u ∧
      g.Dominates (level.headOf I.head) u := by
  obtain ⟨order, hswept⟩ := hderived.swept
  have hdivides := hswept.divides
  have hparts := hdivides.collapse hswept.rooted.wellFormed
  obtain ⟨hpred, hthere⟩ := DerivedLevel.mem_backPreds.1 hmem
  have hreached := (hdivides.assigned_iff p).1 ⟨k, hthere⟩
  have head := (hdivides.assigned_iff _).1 ⟨k, hdivides.head_assigned hfound⟩
  obtain ⟨u, holds, hsucc⟩ :=
    hderived.collapse.exits p I.head hreached
      ((hswept.rooted.wellFormed.mem_preds p I.head).1 hpred)
  refine ⟨u, holds, hsucc, (hderived.collapse.dominates_iff head holds).1 ?_⟩
  exact Partition.headOf_eq hfound ▸ hparts.dominates_head hthere

/-- **No head is invented.** -/
theorem Derived.closes_sound
    (hderived : Derived g level)
    (hcloses : level.Closes n) :
    ∃ u, n ∈ g.succs u ∧ g.Reachable g.entry u ∧ g.Dominates n u := by
  obtain ⟨k, I, hfound, rfl, hsome⟩ := hcloses
  obtain ⟨p, hmem⟩ := List.exists_mem_of_ne_nil _ hsome
  obtain ⟨u, holds, hsucc, hdominates⟩ := hderived.exists_back_edge hfound hmem
  exact ⟨u, hsucc, (hderived.collapse.reachable_iff u).1 ⟨p, holds⟩, hdominates⟩

/-- An edge to a dominator inside of an interval closes it. -/
theorem DerivedLevel.Swept.closes
    (hswept : level.Swept order)
    (hsource : assigned level.partition.intervalOf a = some i)
    (htarget : assigned level.partition.intervalOf b = some i)
    (hsucc : b ∈ level.graph.succs a)
    (hdominates : level.graph.Dominates b a) :
    level.Closes (level.headOf b) := by
  have hdivides := hswept.divides
  obtain ⟨I, hfound, -⟩ := hdivides.exists_interval hsource
  have head := hdivides.eq_head_of_dominates hswept.rooted hfound htarget hsucc hdominates
  refine ⟨i, I, hfound, head ▸ rfl, List.ne_nil_of_mem (DerivedLevel.mem_backPreds.2 ⟨?_, hsource⟩)⟩
  exact (hswept.rooted.wellFormed.mem_preds a I.head).2 (head ▸ hsucc)

/-- **No head is missed.**  An edge to a dominator closes an interval in the end. -/
theorem Derived.exists_closes
    (hderived : Derived g level)
    (hdone : level.sequence.irreducible = false)
    (hreached : level.graph.Reachable level.graph.entry a)
    (hsucc : b ∈ level.graph.succs a)
    (hdominates : level.graph.Dominates b a) :
    ∃ l ∈ level.sequence.levels, l.Closes (level.headOf b) := by
  induction level using DerivedLevel.sequence.induct generalizing a b with
  | case1 level hsingle =>
      obtain ⟨order, hswept⟩ := hderived.swept
      have hdivides := hswept.divides
      have hfirst (x : NodeId) (hreached : level.graph.Reachable level.graph.entry x) :
          assigned level.partition.intervalOf x = some 0 := by
        obtain ⟨i, hthere⟩ := (hdivides.assigned_iff x).2 hreached
        exact Nat.lt_one_iff.1 ((hdivides.lt x i hthere).trans_le hsingle) ▸ hthere
      rw [DerivedLevel.sequence, if_pos hsingle]
      exact ⟨level, List.mem_singleton_self level,
        hswept.closes (hfirst a hreached) (hfirst b (hreached.step hsucc)) hsucc hdominates⟩
  | case2 level hseveral hall =>
      rw [DerivedLevel.sequence, if_neg hseveral, if_pos hall] at hdone
      cases hdone
  | case3 level hseveral hfewer ih =>
      obtain ⟨order, hswept⟩ := hderived.swept
      have hdivides := hswept.divides
      have hparts := hdivides.collapse hswept.rooted.wellFormed
      rw [DerivedLevel.sequence, if_neg hseveral, if_neg hfewer] at hdone ⊢
      obtain ⟨i, hsource⟩ := (hdivides.assigned_iff a).2 hreached
      obtain ⟨j, htarget⟩ := (hdivides.assigned_iff b).2 (hreached.step hsucc)
      by_cases hsame : i = j
      · subst hsame
        exact ⟨level, List.mem_cons_self, hswept.closes hsource htarget hsucc hdominates⟩
      · obtain ⟨head, hedge⟩ := hparts.enters i j a b hsource htarget hsucc hsame
        obtain ⟨J, hfound, -, hsame⟩ := hdivides.exists_interval htarget
        have habove : level.partition.reduced.Dominates j i :=
          (hparts.dominates_iff (hparts.reached htarget) hsource).2 (head ▸ hdominates)
        obtain ⟨l, hmem, hcloses⟩ := ih hderived.next hdone (hparts.reached hsource) hedge habove
        rw [DerivedLevel.next_headOf hfound, ← hsame, ← head] at hcloses
        exact ⟨l, List.mem_cons_of_mem level hmem, hcloses⟩

/-- A sequence that cannot contract anything has one level. -/
theorem DerivedLevel.Swept.levels_eq
    (hswept : level.Swept order)
    (hstuck : ¬ level.graph.Contracts) :
    level.sequence.levels = [level] := by
  fun_induction DerivedLevel.sequence level with
  | case1 | case2 => rfl
  | case3 level hseveral hfewer rest ih =>
      rw [hswept.reachable_eq, hswept.divides.reduced_size] at hfewer
      exact absurd ((hswept.divides.contracts_iff hswept.sweeps).2 (.inr (Nat.lt_of_not_le hfewer)))
        hstuck

/-- **Where edges to dominators turn up.**  Intervals of a reducible graph and of its derived graphs
lead back to the targets of edges to dominators; if nothing can be contracted to begin with, only to
nodes that lead to themselves. -/
theorem derivedSequence_closes_iff
    (hg : g.Rooted)
    (ho : g.IsSweepOrder order)
    (hreducible : g.Reducible) :
    (∃ level ∈ (g.derivedSequence order).levels, level.Closes n) ↔
      ∃ u, n ∈ g.succs u ∧ g.Reachable g.entry u ∧ g.Dominates n u ∧ (g.Contracts ∨ u = n) := by
  have hbase := derived_base hg ho
  have hswept : (DerivedLevel.base g order).Swept order := DerivedLevel.swept_of hg ho _ _ _
  have heads := DerivedLevel.base_headOf g order
  by_cases hcontracts : g.Contracts
  · constructor
    · rintro ⟨level, hmem, hcloses⟩
      obtain ⟨u, hsucc, hreached, hdominates⟩ := (hbase.sequence hmem).closes_sound hcloses
      exact ⟨u, hsucc, hreached, hdominates, .inl hcontracts⟩
    · rintro ⟨u, hsucc, hreached, hdominates, -⟩
      have hdone := hswept.irreducible_iff.2 ⟨hreducible, hcontracts⟩
      exact heads n ▸ hbase.exists_closes hdone hreached hsucc hdominates
  · have hlevels : (g.derivedSequence order).levels = [DerivedLevel.base g order] :=
      hswept.levels_eq hcontracts
    rw [hlevels]
    simp only [List.mem_singleton, exists_eq_left]
    constructor
    · rintro ⟨k, I, hfound, rfl, hsome⟩
      obtain ⟨p, hmem⟩ := List.exists_mem_of_ne_nil _ hsome
      obtain ⟨hpred, hthere⟩ := DerivedLevel.mem_backPreds.1 hmem
      have hsame : p = I.head := by
        by_contra hother
        exact hcontracts (.inr (hswept.divides.exists_solePred hfound
          ((hswept.divides.mem_iff k I hfound p).2 hthere) hother))
      rw [heads]
      exact ⟨I.head, (hg.wellFormed.mem_preds _ _).1 (hsame ▸ hpred),
        (hswept.divides.assigned_iff _).1 ⟨k, hswept.divides.head_assigned hfound⟩,
        dominates_self g _, .inr rfl⟩
    · rintro ⟨u, hsucc, hreached, hdominates, hagain⟩
      obtain rfl := hagain.resolve_left hcontracts
      obtain ⟨i, hthere⟩ := (hswept.divides.assigned_iff u).2 hreached
      exact heads u ▸ hswept.closes hthere hthere hsucc hdominates

end Closing

/-- Whether a node belongs to the natural loop of another one: it is this one, or it leads to a
predecessor that this one dominates without passing it. -/
def NaturalLoop (g : Digraph) (n x : NodeId) : Prop :=
  x = n ∨ ∃ u, n ∈ g.succs u ∧ g.Dominates n u ∧ ∃ nodes, g.Walk x u nodes ∧ n ∉ nodes

/-- A natural loop that does not contain the target of another edge to a dominator. -/
def InnermostLoop (g : Digraph) (n : NodeId) : Prop :=
  ∀ x u, g.NaturalLoop n x → x ≠ n → x ∈ g.succs u → ¬ g.Dominates x u

section Walks

variable {g R : Digraph} {part : NodeId → NodeId → Prop} {head : NodeId → NodeId}
variable {a b i x : NodeId} {nodes : List NodeId}

/-- What leads to a node that can be reached can be reached. -/
theorem Rooted.reachable_of_walk
    (hg : g.Rooted)
    (w : g.Walk a b nodes)
    (hreached : g.Reachable g.entry b) :
    ∀ m ∈ nodes, g.Reachable g.entry m := by
  induction w with
  | here => exact fun m hon => List.mem_singleton.1 hon ▸ hreached
  | @step p n nodes w hsucc ih =>
      intro m hon
      rcases List.mem_append.1 hon with hon | hon
      · exact ih (hg.pred_reachable n p hreached ((hg.wellFormed.mem_preds p n).2 hsucc)) m hon
      · exact List.mem_singleton.1 hon ▸ hreached

/-- Every node on a walk leads to its end along the rest of the walk. -/
theorem Walk.suffix
    (w : g.Walk a b nodes)
    (hon : x ∈ nodes) :
    ∃ rest, g.Walk x b rest ∧ rest ⊆ nodes := by
  obtain ⟨front, behind, rfl⟩ := List.append_of_mem hon
  exact ⟨_, (w.split rfl).2, List.subset_append_right _ _⟩

/-- A walk to a node of a part that does not pass the head stays in the part. -/
theorem Collapse.walk_inside
    (h : Collapse g R part head)
    (hg : g.Rooted)
    (w : g.Walk a b nodes)
    (hmem : part i b)
    (havoids : head i ∉ nodes) :
    ∀ m ∈ nodes, part i m := by
  induction w with
  | here => exact fun m hon => List.mem_singleton.1 hon ▸ hmem
  | @step p n nodes w hsucc ih =>
      have hreached := (h.reachable_iff n).1 ⟨i, hmem⟩
      have hsource := hg.pred_reachable n p hreached ((hg.wellFormed.mem_preds p n).2 hsucc)
      obtain ⟨j, hthere⟩ := (h.reachable_iff p).2 hsource
      have hsame : j = i := by
        by_contra hdiffer
        have hentered := (h.enters j i p n hthere hmem hsucc hdiffer).1
        exact havoids (List.mem_append_right _ (List.mem_singleton.2 hentered.symm))
      have hbefore := ih (hsame ▸ hthere) fun hon => havoids (List.mem_append_left _ hon)
      intro m hon
      rcases List.mem_append.1 hon with hon | hon
      · exact hbefore m hon
      · exact List.mem_singleton.1 hon ▸ hmem

end Walks

section Later

variable {g : Digraph} {level later : DerivedLevel} {order : List NodeId} {i n x y : NodeId}

theorem DerivedLevel.levels_cases
    (level : DerivedLevel) :
    level.sequence.levels = [level] ∨
      level.sequence.levels = level :: level.next.sequence.levels := by
  rw [DerivedLevel.sequence]
  split
  · exact .inl rfl
  · split
    · exact .inl rfl
    · exact .inr rfl

/-- What is together at one level stays together. -/
theorem Derived.holds_together
    (hderived : Derived g level)
    (hmem : later ∈ level.sequence.levels)
    (hleft : level.Holds i x)
    (hright : level.Holds i y) :
    ∃ j, later.Holds j x ∧ later.Holds j y := by
  induction level using DerivedLevel.sequence.induct generalizing i with
  | case1 level hsingle =>
      rw [DerivedLevel.sequence, if_pos hsingle] at hmem
      exact List.mem_singleton.1 hmem ▸ ⟨i, hleft, hright⟩
  | case2 level hseveral hall =>
      rw [DerivedLevel.sequence, if_neg hseveral, if_pos hall] at hmem
      exact List.mem_singleton.1 hmem ▸ ⟨i, hleft, hright⟩
  | case3 level hseveral hfewer ih =>
      rw [DerivedLevel.sequence, if_neg hseveral, if_neg hfewer] at hmem
      rcases List.mem_cons.1 hmem with rfl | hmem
      · exact ⟨i, hleft, hright⟩
      · obtain ⟨order, hswept⟩ := hderived.swept
        obtain ⟨k, hthere⟩ := (hswept.divides.assigned_iff i).2 hleft.1
        exact ih hderived.next hmem (hderived.holds_next.2 ⟨i, hthere, hleft⟩)
          (hderived.holds_next.2 ⟨i, hthere, hright⟩)

/-- No node of a derived graph leads to itself. -/
theorem Derived.loopless
    (hderived : Derived g level)
    (hloopless : ∀ n, n ∉ level.graph.succs n)
    (hmem : later ∈ level.sequence.levels) :
    ∀ n, n ∉ later.graph.succs n := by
  fun_induction DerivedLevel.sequence level with
  | case1 | case2 => exact List.mem_singleton.1 hmem ▸ hloopless
  | case3 level hseveral hfewer rest ih =>
      rcases List.mem_cons.1 hmem with rfl | hmem
      · exact hloopless
      · obtain ⟨order, hswept⟩ := hderived.swept
        exact ih hderived.next hswept.divides.reduced_loopless hmem

end Later

section Loops

variable {g : Digraph} {level later : DerivedLevel} {P : Partition} {order : List NodeId}
variable {k n p u x : NodeId} {nodes : List NodeId}

/-- The nodes on a way back to the head belong to its loop. -/
theorem NaturalLoop.of_walk
    (hsucc : n ∈ g.succs u)
    (hdominates : g.Dominates n u)
    (w : g.Walk x u nodes)
    (havoids : n ∉ nodes) :
    ∀ m ∈ nodes, g.NaturalLoop n m := by
  intro m hon
  obtain ⟨rest, w', hsub⟩ := w.suffix hon
  exact .inr ⟨u, hsucc, hdominates, rest, w', fun hthere => havoids (hsub hthere)⟩

theorem NaturalLoop.of_back_edge
    (hsucc : n ∈ g.succs u)
    (hdominates : g.Dominates n u) :
    g.NaturalLoop n u := by
  by_cases hsame : u = n
  · exact .inl hsame
  · exact .inr ⟨u, hsucc, hdominates, [u], .here, by simpa using Ne.symm hsame⟩

/-- With a node other than the head, its predecessors belong to a loop. -/
theorem NaturalLoop.pred
    (h : g.NaturalLoop n x)
    (hother : x ≠ n)
    (hedge : x ∈ g.succs p) :
    g.NaturalLoop n p := by
  obtain ⟨u, hsucc, hdominates, nodes, w, havoids⟩ := h.resolve_left hother
  by_cases here : p = n
  · exact .inl here
  · refine .inr ⟨u, hsucc, hdominates, _, (Walk.here.step hedge).append w, fun hon => ?_⟩
    rcases List.mem_append.1 hon with hon | hon
    · have hcases : n = p ∨ n = x := by simpa using hon
      exact hcases.elim (fun hsame => here hsame.symm) fun hsame => hother hsame.symm
    · exact havoids (List.mem_of_mem_tail hon)

/-- A loop without loops in it lies in one interval. -/
theorem InnermostLoop.assigned
    (h : g.InnermostLoop n)
    (hg : g.Rooted)
    (hretreats : g.RetreatsToDominators order)
    (hdivides : g.Divides P)
    (hthere : Digraph.assigned P.intervalOf n = some k) :
    ∀ x, g.NaturalLoop n x → Digraph.assigned P.intervalOf x = some k := by
  by_contra hmissing
  have houtside : {x | g.NaturalLoop n x ∧ Digraph.assigned P.intervalOf x ≠ some k}.Nonempty := by
    simpa [Set.Nonempty, not_forall] using hmissing
  -- The first node of the loop outside of the interval has a predecessor outside of it as well.
  obtain ⟨x, ⟨hinside, hout⟩, hfirst⟩ := (measure order.idxOf).wf.has_min _ houtside
  have hother : x ≠ n := fun hsame => hout (hsame ▸ hthere)
  obtain ⟨u, hsucc, habove, nodes, w, havoids⟩ := hinside.resolve_left hother
  have hsource := hg.pred_reachable n u ((hdivides.assigned_iff n).1 ⟨k, hthere⟩)
    ((hg.wellFormed.mem_preds u n).2 hsucc)
  have hreached := hg.reachable_of_walk w hsource x w.source_mem
  obtain ⟨j, hapart⟩ := (hdivides.assigned_iff x).2 hreached
  have hdiffer : j ≠ k := fun hsame => hout (hsame ▸ hapart)
  obtain ⟨J, hfound, hmember, -⟩ := hdivides.exists_interval hapart
  obtain ⟨p, hpred, hmissed⟩ : ∃ p ∈ g.preds x, Digraph.assigned P.intervalOf p ≠ some k := by
    by_contra hnone
    have hall : ∀ p ∈ g.preds x, Digraph.assigned P.intervalOf p = some k := by simpa using hnone
    by_cases head : x = J.head
    · subst head
      refine hdivides.apart j J hfound (fun hzero => ?_) k hall
      obtain ⟨E, hentry, hsame⟩ := hdivides.first
      rw [← hzero, hfound, Option.some_inj] at hentry
      have hstart : J.head = g.entry := hentry ▸ hsame
      exact havoids (habove nodes (hstart ▸ w))
    · obtain ⟨p, hpred, hinner, -⟩ := hdivides.exists_earlier hfound hmember head
      have here := (hdivides.mem_iff j J hfound p).1 hinner
      rw [hall p hpred, Option.some_inj] at here
      exact hdiffer here.symm
  have hedge := (hg.wellFormed.mem_preds p x).1 hpred
  have hle : order.idxOf x ≤ order.idxOf p :=
    Nat.le_of_not_lt (hfirst p ⟨hinside.pred hother hedge, hmissed⟩)
  exact h x p hinside hother hedge (hretreats p x (hg.pred_reachable x p hreached hpred) hedge hle)

/-- Edges of a loop without loops in it lead on in the order, except those to the head. -/
theorem InnermostLoop.idxOf_le
    (h : g.InnermostLoop n)
    (hg : g.Rooted)
    (hretreats : g.RetreatsToDominators order)
    (hreached : g.Reachable g.entry u)
    (w : g.Walk x u nodes)
    (havoids : n ∉ nodes)
    (hinside : ∀ m ∈ nodes, g.NaturalLoop n m) :
    ∀ m ∈ nodes, order.idxOf m ≤ order.idxOf u := by
  induction w with
  | here => exact fun m hon => List.mem_singleton.1 hon ▸ Nat.le_refl _
  | @step b c nodes w hsucc ih =>
      have hsource := hg.pred_reachable c b hreached ((hg.wellFormed.mem_preds b c).2 hsucc)
      have hlast : c ∈ nodes ++ [c] := List.mem_append_right _ (List.mem_singleton_self c)
      have hlt : order.idxOf b < order.idxOf c := Nat.lt_of_not_le fun hle =>
        h c b (hinside c hlast) (fun hsame => havoids (hsame ▸ hlast)) hsucc
          (hretreats b c hsource hsucc hle)
      have hbefore := ih hsource (fun hon => havoids (List.mem_append_left _ hon))
        fun m hon => hinside m (List.mem_append_left _ hon)
      intro m hon
      rcases List.mem_append.1 hon with hon | hon
      · exact (hbefore m hon).trans hlt.le
      · exact List.mem_singleton.1 hon ▸ Nat.le_refl _

/-- The nodes of a loop without loops in it are one node of all later levels, which do not lead back
to its head. -/
theorem InnermostLoop.not_closes
    (h : g.InnermostLoop n)
    (hg : g.Rooted)
    (ho : g.IsSweepOrder order)
    (hretreats : g.RetreatsToDominators order)
    (hmem : later ∈ (DerivedLevel.base g order).next.sequence.levels) :
    ¬ later.Closes n := by
  rintro ⟨k, I, hfound, head, hsome⟩
  have hbase := derived_base hg ho
  have hswept : (DerivedLevel.base g order).Swept order := DerivedLevel.swept_of hg ho _ _ _
  have hderived := hbase.next.sequence hmem
  obtain ⟨p, hback⟩ := List.exists_mem_of_ne_nil _ hsome
  obtain ⟨u, holds, hsucc, hdominates⟩ := hderived.exists_back_edge hfound hback
  rw [head] at hsucc hdominates
  have hsource := (hderived.collapse.reachable_iff u).1 ⟨p, holds⟩
  have hinside := NaturalLoop.of_back_edge hsucc hdominates
  obtain ⟨i, hthere⟩ := (hswept.divides.assigned_iff n).2 (hsource.step hsucc)
  have halso := h.assigned hg hretreats hswept.divides hthere u hinside
  have htogether : (DerivedLevel.base g order).next.Holds i u ∧
      (DerivedLevel.base g order).next.Holds i n :=
    ⟨hbase.holds_next.2 ⟨u, halso, (DerivedLevel.base_holds hg ho).2 ⟨hsource, rfl⟩⟩,
      hbase.holds_next.2 ⟨n, hthere, (DerivedLevel.base_holds hg ho).2 ⟨hsource.step hsucc, rfl⟩⟩⟩
  obtain ⟨m, hleft, hright⟩ := hbase.next.holds_together hmem htogether.1 htogether.2
  obtain ⟨order', hswept'⟩ := hderived.swept
  have hreached := (hswept'.divides.assigned_iff _).1 ⟨k, hswept'.divides.head_assigned hfound⟩
  have hwhole := hderived.collapse.head_mem _ hreached
  rw [head] at hwhole
  have hsame : p = I.head := (hderived.collapse.unique _ _ _ holds hleft).trans
    (hderived.collapse.unique _ _ _ hright hwhole)
  have hpred := (DerivedLevel.mem_backPreds.1 hback).1
  exact hbase.next.loopless hswept.divides.reduced_loopless hmem I.head
    ((hswept'.rooted.wellFormed.mem_preds _ _).1 (hsame ▸ hpred))

end Loops

end Digraph
end DalvikDecompiler
