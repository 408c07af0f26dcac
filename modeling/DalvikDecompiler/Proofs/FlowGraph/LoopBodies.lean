import DalvikDecompiler.Proofs.Digraph.NaturalLoops
import DalvikDecompiler.Proofs.FlowGraph.LoopHeads
import DalvikDecompiler.Proofs.FlowGraph.Undisturbed

/-!
# What belongs to a loop

**Input.** A reducible flow graph all of whose nodes can be reached, numbered by the reverse
postorder, and its derived sequence.

The body of a loop is collected backwards from the nodes at which those parts of the graph end that
lead back to its head, as far as nodes are not numbered behind the one it is collected from.  A walk
to such an end that does not pass the head stays in the interval.  If the loop has no loops in it,
the ends are the predecessors that the head dominates, and nothing on the way to one is numbered
behind it.

**Results.**
* `mem_search_iff`: a search finds what it gets to through unseen nodes.
* `mem_loopBody_iff`: the body is what leads to its end on walks that stay
  within the numbers.
* `recordLoops_bodies`: what is recorded for every head, and that it is the
  natural loop if there are no loops in it.
-/

namespace DalvikDecompiler

open DalvikDecompiler.Digraph (Interval DerivedLevel DerivedSequence Derived)

namespace Digraph

section Search

variable {next : NodeId → List NodeId} {unseen stack : List NodeId} {x : NodeId}

/-- A search finds what it gets to through unseen nodes. -/
theorem mem_search_iff :
    x ∈ search next unseen stack ↔ ∃ s ∈ stack, s ∈ unseen ∧
      Relation.ReflTransGen (fun a b => b ∈ next a ∧ b ∈ unseen) s x := by
  constructor
  · intro hfound
    induction unseen, stack using search.induct next with
    | case1 unseen => simp [search] at hfound
    | case2 unseen n stack hfresh ih =>
        rw [search, if_pos hfresh] at hfound
        rcases List.mem_cons.1 hfound with rfl | hfound
        · exact ⟨x, by simp, hfresh, .refl⟩
        · obtain ⟨s, hstart, hleft, hpath⟩ := ih hfound
          have hknown := List.mem_of_mem_erase hleft
          have hpath := Relation.ReflTransGen.mono
            (fun a b hstep => And.intro hstep.1 (List.mem_of_mem_erase hstep.2)) _ _ hpath
          rcases List.mem_append.1 hstart with hstart | hstart
          · exact ⟨n, by simp, hfresh, .head ⟨List.mem_reverse.1 hstart, hknown⟩ hpath⟩
          · exact ⟨s, by simp [hstart], hknown, hpath⟩
    | case3 unseen n stack hseen ih =>
        rw [search, if_neg hseen] at hfound
        obtain ⟨s, hstart, hrest⟩ := ih hfound
        exact ⟨s, by simp [hstart], hrest⟩
  · rintro ⟨s, hstart, hknown, hpath⟩
    induction hpath with
    | refl => exact mem_search_of_mem_stack hstart hknown
    | tail _ hstep ih => exact mem_search_of_next ih hstep.1 hstep.2

end Search

end Digraph

namespace FlowGraph

section Bodies

variable {g : FlowGraph} {members nodes : List NodeId} {head latch x : NodeId}

/-- Whether a node may belong to the body of a loop with a given head and latch. -/
def Within (g : FlowGraph) (members : List NodeId) (head latch m : NodeId) : Prop :=
  (g.node head).num < (g.node m).num ∧ (g.node m).num ≤ (g.node latch).num ∧ m ∈ members

/-- A node from which the search for a body goes on to another one. -/
def LooksAt (g : FlowGraph) (members : List NodeId) (head latch a b : NodeId) : Prop :=
  a ∈ g.flowSuccs b ∧ g.Within members head latch b

/-- What a search backwards gets to leads to its start. -/
theorem exists_walk_of_looksAt
    {a : NodeId}
    (hpath : Relation.ReflTransGen (g.LooksAt members head latch) a x)
    (hstart : g.Within members head latch a) :
    ∃ nodes, g.toDigraph.Walk x a nodes ∧
      ∀ m ∈ nodes, g.Within members head latch m := by
  induction hpath with
  | refl => exact ⟨_, .here, fun m hon => List.mem_singleton.1 hon ▸ hstart⟩
  | @tail b c hpath hstep ih =>
      obtain ⟨nodes, w, hwithin⟩ := ih
      refine ⟨_, (Digraph.Walk.here.step hstep.1).append w, fun m hon => ?_⟩
      rcases List.mem_append.1 hon with hon | hon
      · have hcases : m = c ∨ m = b := by simpa using hon
        rcases hcases with rfl | rfl
        · exact hstep.2
        · exact hwithin m w.source_mem
      · exact hwithin m (List.mem_of_mem_tail hon)

/-- A search backwards follows every walk to its start. -/
theorem looksAt_of_walk
    {a : NodeId}
    (w : g.toDigraph.Walk x a nodes)
    (hwithin : ∀ m ∈ nodes, g.Within members head latch m) :
    Relation.ReflTransGen (g.LooksAt members head latch) a x := by
  induction w with
  | here => exact .refl
  | step w hsucc ih =>
      have hbefore := fun m hon => hwithin m (List.mem_append_left _ hon)
      exact .head ⟨hsucc, hbefore _ w.target_mem⟩ (ih hbefore)

/-- The body of a loop is what leads to its latch on walks that stay within it. -/
theorem mem_loopBody_iff
    (h : g.Wired)
    (hknown : latch < g.size)
    (hends : latch = head ∨ g.Within members head latch latch) :
    x ∈ g.loopBody members head latch ↔ x = head ∨ ∃ nodes, g.toDigraph.Walk x latch nodes ∧
      ∀ m ∈ nodes, g.Within members head latch m := by
  have hdiffer {m : NodeId} (hwithin : g.Within members head latch m) : m ≠ head := fun hsame =>
    absurd hwithin.1 (hsame ▸ Nat.lt_irrefl _)
  have hsteps : (fun a b => b ∈ (g.flowPreds a).filter (fun pred =>
      (g.node head).num < (g.node pred).num && (g.node pred).num ≤ (g.node latch).num &&
        members.contains pred) ∧ b ∈ (List.range g.size).filter fun id => id != head) =
      g.LooksAt members head latch := by
    funext a b
    have hedge : b ∈ g.flowPreds a ↔ a ∈ g.flowSuccs b := h.wellFormed.mem_preds b a
    have hlt (hsucc : a ∈ g.flowSuccs b) : b < g.size := h.wellFormed.source_lt b a hsucc
    simp only [LooksAt, List.mem_filter, hedge, Bool.and_eq_true, decide_eq_true_eq,
      List.contains_eq_mem, List.mem_range, bne_iff_ne, eq_iff_iff]
    constructor
    · rintro ⟨⟨hsucc, ⟨habove, hbelow⟩, hmem⟩, -⟩
      exact ⟨hsucc, habove, hbelow, hmem⟩
    · rintro ⟨hsucc, hwithin⟩
      exact ⟨⟨hsucc, ⟨hwithin.1, hwithin.2.1⟩, hwithin.2.2⟩, hlt hsucc, hdiffer hwithin⟩
  rw [loopBody, List.mem_cons, Digraph.mem_search_iff, hsteps]
  refine or_congr_right ⟨?_, ?_⟩
  · rintro ⟨s, hstart, hfresh, hpath⟩
    obtain rfl := List.mem_singleton.1 hstart
    have hother : s ≠ head := by simpa using (List.mem_filter.1 hfresh).2
    exact exists_walk_of_looksAt hpath (hends.resolve_left hother)
  · rintro ⟨nodes, w, hwithin⟩
    refine ⟨latch, List.mem_singleton_self latch, List.mem_filter.2 ⟨List.mem_range.2 hknown, ?_⟩,
      looksAt_of_walk w hwithin⟩
    simpa using hdiffer (hwithin latch w.target_mem)

end Bodies

/-- A node leads to an end of a loop without passing its head or a node that is numbered behind the
end. -/
def Precedes (g : FlowGraph) (n l x : NodeId) : Prop :=
  ∃ nodes, g.toDigraph.Walk x l nodes ∧ n ∉ nodes ∧ ∀ m ∈ nodes, (g.node m).num ≤ (g.node l).num

/-- What is recorded for a head, when its loop has some ends: the last one is the latch, and the
body is what leads to the ends. -/
structure Recorded (g : FlowGraph) (ends : List NodeId) (n : NodeId) (node : Node) : Prop where
  nonempty : ends ≠ []
  latch_eq : node.latch = ends.getLast?
  dominated : ∀ l ∈ ends, g.toDigraph.Dominates n l
  mem_loopNodes : ∀ x, x ∈ node.loopNodes ↔ x = n ∨ ∃ l ∈ ends, g.Precedes n l x

section Recording

variable {g : FlowGraph} {level : DerivedLevel} {I : Interval} {k l m n x : NodeId}
variable {nodes : List NodeId}

theorem lt_num_of_dominates
    (hg : g.toDigraph.Rooted)
    (hcurrent : g.NumbersCurrent)
    (hreached : g.toDigraph.Reachable g.entry m)
    (hdominates : g.toDigraph.StrictlyDominates n m) :
    (g.node n).num < (g.node m).num := by
  have ho : g.toDigraph.IsSweepOrder (g.toDigraph.reversePostorder g.entry) :=
    Digraph.reversePostorder_isSweepOrder hg.wellFormed hg.entry_lt
  have hmem := (ho.mem_iff m).2 hreached
  have hmem' := (ho.mem_iff n).2 (hdominates.2.reachable hreached)
  rw [hcurrent, hcurrent, numberIn, numberIn, if_pos hmem, if_pos hmem']
  exact Nat.succ_lt_succ (ho.idxOf_lt_of_strictlyDominates hg.wellFormed hmem hdominates)

/-- The ends of the loop of an interval stand for nodes of it. -/
theorem holds_of_mem_latches
    (hderived : Derived g.toDigraph level)
    (hmem : l ∈ level.latches k I) :
    level.next.Holds k l := by
  obtain ⟨order, hswept⟩ := hderived.swept
  obtain ⟨p, hback, rfl⟩ := List.mem_map.1 hmem
  have hthere := (DerivedLevel.mem_backPreds.1 hback).2
  have hreached := (hswept.divides.assigned_iff p).1 ⟨k, hthere⟩
  exact hderived.holds_next.2 ⟨p, hthere, hderived.last_mem p hreached⟩

theorem recorded_loopMark
    (h : g.Wired)
    (hg : g.toDigraph.Rooted)
    (hcurrent : g.NumbersCurrent)
    (hderived : Derived g.toDigraph level)
    (hfound : level.partition.intervals[k]? = some I)
    (head : level.headOf I.head = n)
    (hback : level.backPreds k I ≠ [])
    (old : Node) :
    g.Recorded (level.latches k I) n (g.loopMark level k I old) := by
  have hparts := hderived.next.collapse
  have hstart : level.next.headOf k = n := (DerivedLevel.next_headOf hfound).trans head
  have hnonempty : level.latches k I ≠ [] := fun hnone => hback (List.map_eq_nil_iff.1 hnone)
  have hdominated (m : NodeId) (holds : level.next.Holds k m) : g.toDigraph.Dominates n m :=
    hstart ▸ hparts.dominates_head holds
  have hwithin (l m : NodeId) (holds : level.next.Holds k m) (hdiffer : m ≠ n)
      (hle : (g.node m).num ≤ (g.node l).num) : g.Within (level.intervalNodes I) n l m := by
    refine ⟨lt_num_of_dominates hg hcurrent ((hparts.reachable_iff m).1 ⟨k, holds⟩)
      ⟨Ne.symm hdiffer, hdominated m holds⟩, hle, ?_⟩
    rw [← DerivedLevel.next_nodesOf hfound]
    exact holds.2
  refine ⟨hnonempty, rfl, fun l hmem =>
    hdominated l (holds_of_mem_latches hderived hmem), fun x => ?_⟩
  have hbody (l : NodeId) (hmem : l ∈ level.latches k I) :
      x ∈ g.loopBody (level.intervalNodes I) n l ↔ x = n ∨ g.Precedes n l x := by
    have holds := holds_of_mem_latches hderived hmem
    have hreached := (hparts.reachable_iff l).1 ⟨k, holds⟩
    rw [mem_loopBody_iff h (lt_size_of_isLive (mem_liveIds_iff.1 (hg.mem_nodes l hreached)))
      (or_iff_not_imp_left.2 fun hdiffer => hwithin l l holds hdiffer (Nat.le_refl _))]
    refine or_congr_right ⟨?_, ?_⟩
    · rintro ⟨nodes, w, hinside⟩
      exact ⟨nodes, w, fun hon => absurd (hinside n hon).1 (Nat.lt_irrefl _),
        fun m hon => (hinside m hon).2.1⟩
    · rintro ⟨nodes, w, havoids, hle⟩
      refine ⟨nodes, w, fun m hon =>
        hwithin l m ?_ (fun hsame => havoids (hsame ▸ hon)) (hle m hon)⟩
      exact hparts.walk_inside hg w holds (hstart ▸ havoids) m hon
  simp only [loopMark, List.mem_mergeSort, OrderedSet.mem_ofList, List.mem_flatMap, head]
  constructor
  · rintro ⟨l, hmem, hinside⟩
    exact ((hbody l hmem).1 hinside).imp_right fun hahead => ⟨l, hmem, hahead⟩
  · rintro (hsame | ⟨l, hmem, hahead⟩)
    · obtain ⟨l, hmem⟩ := List.exists_mem_of_ne_nil _ hnonempty
      exact ⟨l, hmem, (hbody l hmem).2 (.inl hsame)⟩
    · exact ⟨l, hmem, (hbody l hmem).2 (.inr hahead)⟩

/-- If some entry of a list has a property, one of them is the last one. -/
theorem exists_last_of_mem
    {α : Type}
    {P : α → Prop}
    {xs : List α}
    (hsome : ∃ a ∈ xs, P a) :
    ∃ before a after, xs = before ++ a :: after ∧ P a ∧ ∀ b ∈ after, ¬ P b := by
  induction xs with
  | nil => simp at hsome
  | cons a rest ih =>
      by_cases hlater : ∃ b ∈ rest, P b
      · obtain ⟨before, b, after, rfl, hlast, hnone⟩ := ih hlater
        exact ⟨a :: before, b, after, rfl, hlast, hnone⟩
      · simp only [List.mem_cons, exists_eq_or_imp, hlater, or_false] at hsome
        exact ⟨[], a, rest, rfl, hsome, fun b hmem holds => hlater ⟨b, hmem, holds⟩⟩

variable {order : List NodeId} {node : Node}

/-- The ends of a loop without loops in it are the predecessors that its head dominates. -/
theorem mem_latches_base
    (hg : g.toDigraph.Rooted)
    (ho : g.toDigraph.IsSweepOrder order)
    (hretreats : g.toDigraph.RetreatsToDominators order)
    (hinnermost : g.toDigraph.InnermostLoop n)
    (hfound : (DerivedLevel.base g.toDigraph order).partition.intervals[k]? = some I)
    (head : I.head = n) :
    l ∈ (DerivedLevel.base g.toDigraph order).latches k I ↔
      n ∈ g.flowSuccs l ∧ g.toDigraph.Dominates n l := by
  subst head
  have hswept : (DerivedLevel.base g.toDigraph order).Swept order :=
    DerivedLevel.swept_of hg ho _ _ _
  have hthere := hswept.divides.head_assigned hfound
  have hlasts : (DerivedLevel.base g.toDigraph order).lastOf = id :=
    funext (DerivedLevel.base_lastOf g.toDigraph order)
  rw [DerivedLevel.latches, hlasts, List.map_id, DerivedLevel.mem_backPreds]
  have hedge : l ∈ (DerivedLevel.base g.toDigraph order).graph.preds I.head ↔
      I.head ∈ g.flowSuccs l := hg.wellFormed.mem_preds l I.head
  rw [hedge]
  refine and_congr_right fun hsucc => ⟨fun hinside => ?_, fun hdominates => ?_⟩
  · exact Digraph.Partition.headOf_eq hfound ▸
      (hswept.divides.collapse hg.wellFormed).dominates_head hinside
  · exact hinnermost.assigned hg hretreats hswept.divides hthere l (.of_back_edge hsucc hdominates)

/-- What leads to an end of a loop without loops in it is not numbered behind the end. -/
theorem precedes_iff
    (hg : g.toDigraph.Rooted)
    (hcurrent : g.NumbersCurrent)
    (hretreats : g.toDigraph.RetreatsToDominators (g.toDigraph.reversePostorder g.entry))
    (hinnermost : g.toDigraph.InnermostLoop n)
    (hsucc : n ∈ g.flowSuccs l)
    (hdominates : g.toDigraph.Dominates n l)
    (hreached : g.toDigraph.Reachable g.entry l) :
    g.Precedes n l x ↔ ∃ nodes, g.toDigraph.Walk x l nodes ∧ n ∉ nodes := by
  refine ⟨fun ⟨nodes, w, havoids, _⟩ => ⟨nodes, w, havoids⟩, fun ⟨nodes, w, havoids⟩ =>
    ⟨nodes, w, havoids, fun m hon => ?_⟩⟩
  have ho : g.toDigraph.IsSweepOrder (g.toDigraph.reversePostorder g.entry) :=
    Digraph.reversePostorder_isSweepOrder hg.wellFormed hg.entry_lt
  have hinside := Digraph.NaturalLoop.of_walk hsucc hdominates w havoids
  have hle := hinnermost.idxOf_le hg hretreats hreached w havoids hinside m hon
  have hmem := (ho.mem_iff m).2 (hg.reachable_of_walk w hreached m hon)
  rw [hcurrent, hcurrent, numberIn, numberIn, if_pos hmem, if_pos ((ho.mem_iff l).2 hreached)]
  exact Nat.succ_le_succ hle

end Recording

section Loops

variable {g : FlowGraph}

/-- **Latches and bodies.**  The last level that leads back to a node says what is recorded for it:
the ends of the nodes of that level that lead back, the last one as the latch, and what leads to
them within the numbers.  If there are no loops in its loop, this is the natural loop, and the latch
leads to the node. -/
theorem recordLoops_bodies
    (h : g.Wired)
    (hconnected : g.Connected)
    (hlive : g.isLive g.entry = true)
    (hfresh : ∀ n, (g.node n).startsLoop = false)
    (hcurrent : g.NumbersCurrent)
    (hreducible : g.toDigraph.RetreatsToDominators (g.toDigraph.reversePostorder g.entry)) :
    let sequence := g.toDigraph.derivedSequence (g.toDigraph.reversePostorder g.entry)
    let marked := (g.recordLoops sequence).1
    ∀ n, (marked.node n).startsLoop = true →
      (∃ before level after k I, sequence.levels = before ++ level :: after ∧
        level.partition.intervals[k]? = some I ∧ level.headOf I.head = n ∧
        (∀ later ∈ after, ¬ later.Closes n) ∧
        g.Recorded (level.latches k I) n (marked.node n)) ∧
      (g.toDigraph.InnermostLoop n →
        (∃ l, (marked.node n).latch = some l ∧ n ∈ g.flowSuccs l) ∧
        ∀ x, x ∈ (marked.node n).loopNodes ↔ g.toDigraph.NaturalLoop n x) := by
  intro sequence marked n hstarts
  have hg := h.rooted hconnected hlive
  have ho : g.toDigraph.IsSweepOrder (g.toDigraph.reversePostorder g.entry) :=
    Digraph.reversePostorder_isSweepOrder hg.wellFormed hg.entry_lt
  have hbase := Digraph.derived_base hg ho
  have hall (level : DerivedLevel) (hmem : level ∈ sequence.levels) : Derived g.toDigraph level :=
    hbase.sequence hmem
  have hbound (level : DerivedLevel) (hmem : level ∈ sequence.levels) (hcloses : level.Closes n) :
      n < g.size := by
    obtain ⟨u, hsucc, -⟩ := (hall level hmem).closes_sound hcloses
    exact hg.wellFormed.target_lt u n hsucc
  obtain ⟨before, level, after, hshape, hcloses, hlast⟩ :=
    exists_last_of_mem ((startsLoop_recordLoops hfresh hbound).1 hstarts)
  have hmem : level ∈ sequence.levels := by simp [hshape]
  have hknown := hbound level hmem hcloses
  obtain ⟨k, I, hfound, head, hback⟩ := hcloses
  obtain ⟨old, hsame⟩ := node_recordLevels before (hall level hmem) hknown hfound head hback hlast
  have hrecorded : g.Recorded (level.latches k I) n (marked.node n) := by
    have hwhole : marked.node n = g.loopMark level k I old := by
      rw [← hsame, ← hshape]
      rfl
    rw [hwhole]
    exact recorded_loopMark h hg hcurrent (hall level hmem) hfound head hback old
  refine ⟨⟨before, level, after, k, I, hshape, hfound, head, hlast, hrecorded⟩,
    fun hinnermost => ?_⟩
  have hfirst : level = DerivedLevel.base g.toDigraph (g.toDigraph.reversePostorder g.entry) := by
    rcases DerivedLevel.levels_cases
      (DerivedLevel.base g.toDigraph (g.toDigraph.reversePostorder g.entry)) with honly | hmore
    · exact List.mem_singleton.1 (honly ▸ hmem)
    · exact (List.mem_cons.1 (hmore ▸ hmem)).resolve_right fun hmem =>
        hinnermost.not_closes hg ho hreducible hmem ⟨k, I, hfound, head, hback⟩
  subst hfirst
  rw [DerivedLevel.base_headOf] at head
  have hends (l : NodeId) := mem_latches_base (l := l) hg ho hreducible hinnermost hfound head
  constructor
  · obtain ⟨l, hfinal⟩ : ∃ l, ((DerivedLevel.base g.toDigraph
        (g.toDigraph.reversePostorder g.entry)).latches k I).getLast? = some l :=
      Option.ne_none_iff_exists'.1 fun hnone =>
        hrecorded.nonempty (List.getLast?_eq_none_iff.1 hnone)
    exact ⟨l, hrecorded.latch_eq.trans hfinal, ((hends l).1 (List.mem_of_getLast? hfinal)).1⟩
  · intro x
    rw [hrecorded.mem_loopNodes, Digraph.NaturalLoop]
    refine or_congr_right (exists_congr fun l => ?_)
    rw [hends, and_assoc]
    refine and_congr_right fun hsucc => and_congr_right fun hdominates => ?_
    have hreached := hconnected l (h.live l n (List.mem_append.1 hsucc)).1
    exact precedes_iff hg hcurrent hreducible hinnermost hsucc hdominates hreached

/-- The numbers of a graph, when its order is known. -/
theorem numbersCurrent_of_order
    {order : List NodeId}
    (hsame : g.toDigraph.reversePostorder g.entry = order)
    (hbound : ∀ n ∈ order, n < g.size)
    (heach : ∀ n < g.size, (g.node n).num = numberIn order n) :
    g.NumbersCurrent := by
  intro n
  rw [hsame]
  by_cases hknown : n < g.size
  · exact heach n hknown
  · rw [node_of_size_le (Nat.le_of_not_lt hknown), numberIn, if_neg fun hmem =>
      hknown (hbound n hmem)]
    rfl

/-- The loop of two nodes is recorded as a whole. -/
theorem recordLoops_bodies_whileLoop :
    2 ∈ ((whileLoop.recordLoops (whileLoop.toDigraph.derivedSequence
      (whileLoop.toDigraph.reversePostorder 0))).1.node 1).loopNodes := by
  have hwired : whileLoop.Wired := by decide
  have hcurrent : whileLoop.NumbersCurrent := by
    have horder : whileLoop.toDigraph.reversePostorder whileLoop.entry = [0, 1, 3, 2] := by cbv
    exact numbersCurrent_of_order horder (by decide) (by decide)
  have hstarts : ((whileLoop.recordLoops (whileLoop.toDigraph.derivedSequence
      (whileLoop.toDigraph.reversePostorder 0))).1.node 1).startsLoop = true := by cbv
  have hinnermost : whileLoop.toDigraph.InnermostLoop 1 := by
    intro x u _ hother hsucc hdominates
    have hedges : ∀ u < 4, ∀ x ∈ whileLoop.flowSuccs u, x ≠ 1 → u = 1 ∧ x ∉ [0, 1] := by decide
    obtain ⟨rfl, houtside⟩ := hedges u (hwired.wellFormed.source_lt u x hsucc) x hsucc hother
    exact houtside (hdominates [0, 1] (Digraph.Walk.here.step (by decide)))
  exact (((recordLoops_bodies hwired whileLoop_connected rfl whileLoop_fresh hcurrent
    whileLoop_retreats 1 hstarts).2 hinnermost).2 2).2
      (.of_back_edge (by decide) whileLoop_dominates)

/-- Two loops around each other with a common test. -/
def commonTest : FlowGraph :=
  { FlowGraph.empty with
    slots := #[
      loopSlot 1 .statement [1] [],
      loopSlot 2 .statement [2] [0, 2],
      loopSlot 3 (.conditional { onTrue := 1, onFalse := 3 }) [3, 1] [1, 3],
      loopSlot 4 .statement [2] [2]] }

/-- The outer loop lacks the node of the inner one that is numbered behind its latch. -/
theorem commonTest_lacks :
    commonTest.Wired ∧ commonTest.Connected ∧ commonTest.NumbersCurrent ∧
      commonTest.toDigraph.RetreatsToDominators (commonTest.toDigraph.reversePostorder 0) ∧
      let marked := (commonTest.recordLoops (commonTest.toDigraph.derivedSequence
        (commonTest.toDigraph.reversePostorder 0))).1
      (marked.node 1).startsLoop = true ∧ commonTest.toDigraph.NaturalLoop 1 3 ∧
        3 ∉ (marked.node 1).loopNodes := by
  have hwired : commonTest.Wired := by decide
  have hconnected : commonTest.Connected := by
    have hfirst : commonTest.toDigraph.Reachable 0 1 :=
      (Digraph.Reachable.refl _ 0).step (by decide)
    have hsecond : commonTest.toDigraph.Reachable 0 2 := hfirst.step (by decide)
    intro n hlive
    have hlt : n < 4 := lt_size_of_isLive hlive
    interval_cases n
    · exact .refl _ _
    · exact hfirst
    · exact hsecond
    · exact hsecond.step (by decide)
  have horder : commonTest.toDigraph.reversePostorder commonTest.entry = [0, 1, 2, 3] := by cbv
  have houter : commonTest.toDigraph.Dominates 1 2 :=
    Digraph.dominates_of_closed hwired.wellFormed [1, 2, 3] (by decide) (by decide) (by decide)
  have hinner : commonTest.toDigraph.Dominates 2 3 :=
    Digraph.dominates_of_closed hwired.wellFormed [2, 3] (by decide) (by decide) (by decide)
  have hg := hwired.rooted hconnected rfl
  have hreducible : commonTest.toDigraph.Reducible := by
    refine Digraph.reducible_of_increasing fun a b hsucc => ?_
    have hback : ∀ a < 4, ∀ b ∈ commonTest.flowSuccs a, a < b ∨ a = 2 ∧ b = 1 ∨ a = 3 ∧ b = 2 := by
      decide
    rcases hback a (hwired.wellFormed.source_lt a b hsucc) b
      hsucc with hlt | ⟨rfl, rfl⟩ | ⟨rfl, rfl⟩
    · exact .inl hlt
    · exact .inr houter
    · exact .inr hinner
  have hbody : ((commonTest.recordLoops (commonTest.toDigraph.derivedSequence
      (commonTest.toDigraph.reversePostorder 0))).1.node 1).loopNodes = [1, 2] := by cbv
  refine ⟨hwired, hconnected, numbersCurrent_of_order horder (by decide) (by decide),
    (Digraph.reducible_iff hg.wellFormed hg.entry_lt).1 hreducible, by cbv, ?_, ?_⟩
  · exact .inr ⟨2, by decide, houter, [3, 2], Digraph.Walk.here.step (by decide), by decide⟩
  · rw [hbody]
    decide

end Loops

end FlowGraph
end DalvikDecompiler
