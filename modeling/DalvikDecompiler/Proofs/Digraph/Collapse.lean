import DalvikDecompiler.Proofs.Digraph.Reducibility

/-!
# Graphs of parts

**Input.** A graph, and a second one whose nodes stand for disjoint parts of it.  A part is
connected from its head, and edges from other parts lead to the head only.

Walks of the graph pass through the parts along the edges of the second graph, and walks of the
second one can be followed in the graph.  So a head dominates its part, and the parts dominate each
other as their heads do.

The immediate dominator of a part is the part in which the immediate dominator of its head lies.  So
a tree of the parts is found from a tree of the nodes without looking at any edge.

**Results.**
* `Collapse.dominates_iff`: dominance in the graph of parts is dominance by
  heads.
* `Collapse.trans`: parts of parts are parts.
* `Divides.collapse`: the intervals of a graph are such parts.
* `Divides.reducible_iff`: the graph of the intervals is reducible exactly when
  the graph is.
* `Divides.contracts_iff`: there are fewer intervals than nodes exactly when
  the graph can be contracted.
* `compute_fits`: the tree that is computed for a graph names its immediate
  dominators.
* `Collapse.fits`: a tree of the heads is a tree of the parts.
-/

namespace DalvikDecompiler
namespace Digraph

/-- The nodes of one graph stand for parts of another one. -/
structure Collapse (g R : Digraph) (part : NodeId → NodeId → Prop) (head : NodeId → NodeId) :
    Prop where
  reachable_iff : ∀ x, (∃ i, part i x) ↔ g.Reachable g.entry x
  unique : ∀ i j x, part i x → part j x → i = j
  head_mem : ∀ i, R.Reachable R.entry i → part i (head i)
  entry : head R.entry = g.entry
  enters : ∀ i j x y, part i x → part j y → y ∈ g.succs x → i ≠ j → y = head j ∧ j ∈ R.succs i
  exits : ∀ i j, R.Reachable R.entry i → j ∈ R.succs i → ∃ x, part i x ∧ head j ∈ g.succs x
  connected : ∀ i x, part i x → ∃ nodes, g.Walk (head i) x nodes ∧ ∀ n ∈ nodes, part i n

namespace Collapse

variable {g R S : Digraph} {part part' : NodeId → NodeId → Prop} {head head' : NodeId → NodeId}
variable {a i j x : NodeId} {nodes : List NodeId}

/-- A walk of the graph passes through parts along edges between them. -/
theorem project
    (h : Collapse g R part head)
    (w : g.Walk g.entry x nodes)
    (hmem : part i x) :
    ∃ steps, R.Walk R.entry i steps ∧ ∀ k ∈ steps, head k ∈ nodes := by
  induction w generalizing i with
  | here =>
      have hstart := h.entry ▸ h.head_mem R.entry (.refl R R.entry)
      obtain rfl := h.unique _ _ _ hmem hstart
      exact ⟨_, .here, fun k here => by simp [List.mem_singleton.1 here, h.entry]⟩
  | @step y x nodes w hsucc ih =>
      obtain ⟨j, hsource⟩ := (h.reachable_iff y).2 ⟨nodes, w⟩
      obtain ⟨steps, w', hon⟩ := ih hsource
      by_cases hsame : j = i
      · exact ⟨steps, hsame ▸ w', fun k hmem => List.mem_append_left _ (hon k hmem)⟩
      · obtain ⟨rfl, hedge⟩ := h.enters j i y x hsource hmem hsucc hsame
        refine ⟨_, w'.step hedge, fun k hmem => ?_⟩
        rcases List.mem_append.1 hmem with hmem | hmem
        · exact List.mem_append_left _ (hon k hmem)
        · simp [List.mem_singleton.1 hmem]

theorem reached
    (h : Collapse g R part head)
    (hmem : part i x) :
    R.Reachable R.entry i := by
  obtain ⟨nodes, w⟩ := (h.reachable_iff x).1 ⟨i, hmem⟩
  obtain ⟨steps, w', -⟩ := h.project w hmem
  exact ⟨steps, w'⟩

theorem head_reachable
    (h : Collapse g R part head)
    (hreached : R.Reachable R.entry i) :
    g.Reachable g.entry (head i) :=
  (h.reachable_iff _).1 ⟨i, h.head_mem i hreached⟩

/-- A walk of the graph of parts can be followed to any node of the last part. -/
theorem lift
    (h : Collapse g R part head)
    {steps : List NodeId}
    (hstart : R.Reachable R.entry a)
    (w : R.Walk a i steps)
    (hmem : part i x) :
    ∃ nodes, g.Walk (head a) x nodes ∧ ∀ n ∈ nodes, ∃ k ∈ steps, part k n := by
  induction w generalizing x with
  | here =>
      obtain ⟨nodes, w, hinside⟩ := h.connected a x hmem
      exact ⟨nodes, w, fun n hon => ⟨a, by simp, hinside n hon⟩⟩
  | @step b c steps w hedge ih =>
      obtain ⟨y, hlast, hsucc⟩ := h.exits b c (hstart.trans ⟨steps, w⟩) hedge
      obtain ⟨nodes, w', hinside⟩ := ih hlast
      obtain ⟨rest, w'', hinner⟩ := h.connected c x hmem
      refine ⟨_, (w'.step hsucc).append w'', fun n hon => ?_⟩
      rcases List.mem_append.1 hon with hon | hon
      · rcases List.mem_append.1 hon with hon | hon
        · obtain ⟨k, hlisted, hthere⟩ := hinside n hon
          exact ⟨k, List.mem_append_left _ hlisted, hthere⟩
        · obtain rfl := List.mem_singleton.1 hon
          exact ⟨c, by simp, hinner _ w''.source_mem⟩
      · exact ⟨c, by simp, hinner n (List.mem_of_mem_tail hon)⟩

/-- A part is entered at its head. -/
theorem dominates_head
    (h : Collapse g R part head)
    (hmem : part i x) :
    g.Dominates (head i) x := by
  intro nodes w
  obtain ⟨steps, w', hon⟩ := h.project w hmem
  exact hon i w'.target_mem

/-- **Parts dominate each other as their heads do.** -/
theorem dominates_iff
    (h : Collapse g R part head)
    (hreached : R.Reachable R.entry j)
    (hmem : part i x) :
    R.Dominates j i ↔ g.Dominates (head j) x := by
  refine ⟨fun hdominates nodes w => ?_, fun hdominates steps w => ?_⟩
  · obtain ⟨steps, w', hon⟩ := h.project w hmem
    exact hon j (hdominates steps w')
  · obtain ⟨nodes, w', hinside⟩ := h.lift (.refl R R.entry) w hmem
    rw [h.entry] at w'
    obtain ⟨k, hlisted, hthere⟩ := hinside _ (hdominates nodes w')
    exact h.unique _ _ _ hthere (h.head_mem j hreached) ▸ hlisted

/-- **Parts of parts are parts.** -/
theorem trans
    (h : Collapse g R part head)
    (h' : Collapse R S part' head') :
    Collapse g S (fun k x => ∃ i, part' k i ∧ part i x) fun k => head (head' k) where
  reachable_iff x := by
    rw [← h.reachable_iff]
    refine ⟨fun ⟨_, i, _, hmem⟩ => ⟨i, hmem⟩, fun ⟨i, hmem⟩ => ?_⟩
    obtain ⟨k, hinside⟩ := (h'.reachable_iff i).2 (h.reached hmem)
    exact ⟨k, i, hinside, hmem⟩
  unique k l x := by
    rintro ⟨i, hinside, hmem⟩ ⟨j, hinside', hmem'⟩
    obtain rfl := h.unique _ _ _ hmem hmem'
    exact h'.unique _ _ _ hinside hinside'
  head_mem k hreached :=
    ⟨_, h'.head_mem k hreached, h.head_mem _ (h'.head_reachable hreached)⟩
  entry := by rw [h'.entry, h.entry]
  enters k l x y := by
    rintro ⟨i, hinside, hmem⟩ ⟨j, hinside', hmem'⟩ hsucc hdiffer
    have hother : i ≠ j := by
      rintro rfl
      exact hdiffer (h'.unique _ _ _ hinside hinside')
    obtain ⟨rfl, hedge⟩ := h.enters i j x y hmem hmem' hsucc hother
    obtain ⟨rfl, houter⟩ := h'.enters k l i j hinside hinside' hedge hdiffer
    exact ⟨rfl, houter⟩
  exits k l hreached hedge := by
    obtain ⟨i, hinside, hsucc⟩ := h'.exits k l hreached hedge
    obtain ⟨x, hmem, hsucc⟩ := h.exits i (head' l) ((h'.reachable_iff i).1 ⟨k, hinside⟩) hsucc
    exact ⟨x, ⟨i, hinside, hmem⟩, hsucc⟩
  connected k x := by
    rintro ⟨i, hinside, hmem⟩
    obtain ⟨steps, w, hwithin⟩ := h'.connected k i hinside
    have hcame := h'.head_reachable (h'.reached hinside)
    obtain ⟨nodes, w', hon⟩ := h.lift hcame w hmem
    refine ⟨nodes, w', fun n hlisted => ?_⟩
    obtain ⟨j, hstep, hthere⟩ := hon n hlisted
    exact ⟨j, hwithin j hstep, hthere⟩

/-- Every graph stands for itself. -/
theorem refl
    (g : Digraph) :
    Collapse g g (fun i x => g.Reachable g.entry i ∧ x = i) fun i => i where
  reachable_iff x := ⟨fun ⟨_, hreached, hsame⟩ => hsame ▸ hreached, fun hreached =>
    ⟨x, hreached, rfl⟩⟩
  unique _ _ _ hleft hright := hleft.2.symm.trans hright.2
  head_mem _ hreached := ⟨hreached, rfl⟩
  entry := rfl
  enters i j x y := by
    rintro ⟨-, rfl⟩ ⟨-, rfl⟩ hsucc -
    exact ⟨rfl, hsucc⟩
  exits i _ hreached hedge := ⟨i, ⟨hreached, rfl⟩, hedge⟩
  connected i x := by
    rintro ⟨hreached, rfl⟩
    exact ⟨_, .here, fun n hon => ⟨hreached, List.mem_singleton.1 hon⟩⟩

/-- What is known about parts does not depend on how they are described. -/
theorem congr
    (h : Collapse g R part head)
    (hpart_iff : ∀ i x, part' i x ↔ part i x)
    (head_eq : ∀ i, R.Reachable R.entry i → head' i = head i) :
    Collapse g R part' head' := by
  obtain rfl : part' = part := funext fun i => funext fun x => propext (hpart_iff i x)
  have heads {i : NodeId} (hreached : R.Reachable R.entry i) := head_eq i hreached
  exact {
    reachable_iff := h.reachable_iff
    unique := h.unique
    head_mem := fun i hreached => heads hreached ▸ h.head_mem i hreached
    entry := (heads (.refl R R.entry)).trans h.entry
    enters := fun i j x y hmem hmem' hsucc hdiffer =>
      heads (h.reached hmem') ▸ h.enters i j x y hmem hmem' hsucc hdiffer
    exits := fun i j hreached hedge => heads (hreached.step hedge) ▸ h.exits i j hreached hedge
    connected := fun i x hmem => heads (h.reached hmem) ▸ h.connected i x hmem }

end Collapse

section Intervals

variable {g : Digraph} {P : Partition} {order : List NodeId} {I : Interval} {a b i n x : NodeId}

/-- The head of an interval. -/
def Partition.headOf (P : Partition) (i : NodeId) : NodeId :=
  (P.intervals[i]?.map Interval.head).getD i

theorem Partition.headOf_eq
    (hfound : P.intervals[i]? = some I) :
    P.headOf i = I.head := by
  simp [headOf, hfound]

namespace Divides

theorem exists_interval
    (h : g.Divides P)
    (hmem : assigned P.intervalOf n = some i) :
    ∃ I, P.intervals[i]? = some I ∧ n ∈ I.members ∧ P.headOf i = I.head := by
  have hfound := List.getElem?_eq_getElem (h.lt n i hmem)
  exact ⟨_, hfound, (h.mem_iff i _ hfound n).2 hmem, Partition.headOf_eq hfound⟩

theorem head_assigned
    (h : g.Divides P)
    (hfound : P.intervals[i]? = some I) :
    assigned P.intervalOf I.head = some i :=
  (h.mem_iff i I hfound I.head).1 (h.tight I (List.mem_of_getElem? hfound)).head_mem

theorem entry_assigned
    (h : g.Divides P) :
    assigned P.intervalOf g.entry = some 0 := by
  obtain ⟨I, hfound, hsame⟩ := h.first
  exact hsame ▸ h.head_assigned hfound

/-- A node of an interval other than its head has been led to from earlier members. -/
theorem exists_earlier
    (h : g.Divides P)
    (hfound : P.intervals[i]? = some I)
    (hmem : n ∈ I.members)
    (hother : n ≠ I.head) :
    ∃ p ∈ g.preds n, p ∈ I.members ∧ I.members.idxOf p < I.members.idxOf n := by
  have htight := h.tight I (List.mem_of_getElem? hfound)
  obtain ⟨p, hpred⟩ := List.exists_mem_of_ne_nil _ (htight.entered n hmem hother)
  exact ⟨p, hpred, htight.behind n hmem hother p hpred⟩

/-- A member of an interval can be reached from its head inside of it. -/
theorem exists_walk
    (h : g.Divides P)
    (hwellFormed : g.WellFormed)
    (hfound : P.intervals[i]? = some I)
    (hmem : n ∈ I.members) :
    ∃ nodes, g.Walk I.head n nodes ∧ ∀ m ∈ nodes, m ∈ I.members := by
  induction hplace : I.members.idxOf n using Nat.strong_induction_on generalizing n with
  | _ k ih =>
      subst hplace
      by_cases here : n = I.head
      · exact ⟨_, here ▸ .here, fun m hon => List.mem_singleton.1 hon ▸ hmem⟩
      · obtain ⟨p, hpred, hinside, hlt⟩ := h.exists_earlier hfound hmem here
        obtain ⟨nodes, w, hwithin⟩ := ih _ hlt hinside rfl
        refine ⟨_, w.step ((hwellFormed.mem_preds p n).1 hpred), fun m hon => ?_⟩
        rcases List.mem_append.1 hon with hon | hon
        · exact hwithin m hon
        · exact List.mem_singleton.1 hon ▸ hmem

/-- An edge from another interval leads to the head. -/
theorem target_eq
    (h : g.Divides P)
    (hwellFormed : g.WellFormed)
    {j : Nat}
    (hsource : assigned P.intervalOf a = some i)
    (htarget : assigned P.intervalOf b = some j)
    (hsucc : b ∈ g.succs a)
    (hdiffer : i ≠ j) :
    b = P.headOf j := by
  obtain ⟨I, hfound, hmem, hsame⟩ := h.exists_interval htarget
  rw [hsame]
  by_contra hother
  have hpred := (hwellFormed.mem_preds a b).2 hsucc
  have hinside := ((h.tight I (List.mem_of_getElem? hfound)).behind b hmem hother a hpred).1
  have here := (h.mem_iff j I hfound a).1 hinside
  rw [hsource, Option.some_inj] at here
  exact hdiffer here

theorem reduced_reachable
    (h : g.Divides P)
    (hwellFormed : g.WellFormed) :
    ∀ i < P.intervals.length, P.reduced.Reachable P.reduced.entry i := by
  intro i
  induction i using Nat.strong_induction_on with
  | _ i ih =>
      intro hlt
      rw [h.reduced_entry] at ih ⊢
      by_cases hstart : i = 0
      · exact hstart ▸ .refl P.reduced 0
      · have hfound := List.getElem?_eq_getElem hlt
        obtain ⟨p, hpred, j, hearlier, hthere⟩ := h.follows i _ hfound hstart
        refine (ih j hearlier (hearlier.trans hlt)).step ((h.mem_succs j i).2 ⟨hearlier.ne, p, _,
          hthere, h.head_assigned hfound, (hwellFormed.mem_preds p _).1 hpred⟩)

/-- **Intervals are parts.** -/
theorem collapse
    (h : g.Divides P)
    (hwellFormed : g.WellFormed) :
    Collapse g P.reduced (fun i x => assigned P.intervalOf x = some i) P.headOf where
  reachable_iff := h.assigned_iff
  unique i j x hmem hmem' := by simpa [hmem] using hmem'
  head_mem i hreached := by
    have hlt : i < P.intervals.length := by
      obtain ⟨steps, w⟩ := hreached
      cases w with
      | here => exact h.reduced_entry ▸ h.lt _ _ h.entry_assigned
      | step _ hedge => exact h.reduced_size ▸ h.reduced_wellFormed.target_lt _ _ hedge
    have hfound := List.getElem?_eq_getElem hlt
    exact Partition.headOf_eq hfound ▸ h.head_assigned hfound
  entry := by
    obtain ⟨I, hfound, hsame⟩ := h.first
    rw [h.reduced_entry, Partition.headOf_eq hfound, hsame]
  enters i j x y hsource htarget hsucc hdiffer :=
    ⟨h.target_eq hwellFormed hsource htarget hsucc hdiffer,
      (h.mem_succs i j).2 ⟨hdiffer, x, y, hsource, htarget, hsucc⟩⟩
  exits i j _ hedge := by
    obtain ⟨hdiffer, x, y, hsource, htarget, hsucc⟩ := (h.mem_succs i j).1 hedge
    exact ⟨x, hsource, h.target_eq hwellFormed hsource htarget hsucc hdiffer ▸ hsucc⟩
  connected i x hmem := by
    obtain ⟨I, hfound, hinside, hsame⟩ := h.exists_interval hmem
    obtain ⟨nodes, w, hwithin⟩ := h.exists_walk hwellFormed hfound hinside
    exact ⟨nodes, hsame ▸ w, fun n hon => (h.mem_iff i I hfound n).1 (hwithin n hon)⟩

/-- Every predecessor of a node in the graph of the intervals can be reached there. -/
theorem reduced_rooted
    (h : g.Divides P)
    (hwellFormed : g.WellFormed) :
    P.reduced.Rooted where
  wellFormed := h.reduced_wellFormed
  entry_lt := by
    rw [h.reduced_entry, h.reduced_size]
    exact h.lt _ _ h.entry_assigned
  mem_nodes n hreached := by
    obtain ⟨I, hfound, -⟩ := h.exists_interval ((h.collapse hwellFormed).head_mem n hreached)
    rw [h.reduced_nodes, List.mem_range]
    exact (List.getElem?_eq_some_iff.1 hfound).1
  nodes_nodup := h.reduced_nodes ▸ List.nodup_range
  pred_reachable n p _ hpred :=
    h.reduced_reachable hwellFormed p
      (h.reduced_size ▸ h.reduced_wellFormed.source_lt p n
        ((h.reduced_wellFormed.mem_preds p n).1 hpred))

theorem reduced_loopless
    (h : g.Divides P)
    (i : NodeId) :
    i ∉ P.reduced.succs i :=
  fun hedge => ((h.mem_succs i i).1 hedge).1 rfl

/-- A forward edge leads on in an interval, or it is a forward edge between intervals. -/
theorem forward_cases
    (h : g.Divides P)
    (hwellFormed : g.WellFormed)
    {j : Nat}
    (hedge : g.ForwardEdge a b)
    (hsource : assigned P.intervalOf a = some i)
    (htarget : assigned P.intervalOf b = some j) :
    (i = j ∧ ∀ I, P.intervals[i]? = some I → I.members.idxOf a < I.members.idxOf b) ∨
      P.reduced.ForwardEdge i j := by
  have hparts := h.collapse hwellFormed
  by_cases hsame : i = j
  · subst hsame
    refine .inl ⟨rfl, fun I hfound => ?_⟩
    have hother : b ≠ I.head := by
      rintro rfl
      exact hedge.2 (Partition.headOf_eq hfound ▸ hparts.dominates_head hsource)
    exact ((h.tight I (List.mem_of_getElem? hfound)).behind b ((h.mem_iff i I hfound b).2 htarget)
      hother a ((hwellFormed.mem_preds a b).2 hedge.1)).2
  · obtain ⟨head, houter⟩ := hparts.enters i j a b hsource htarget hedge.1 hsame
    exact .inr ⟨houter, fun hdominates => hedge.2
      (head ▸ (hparts.dominates_iff (hparts.reached htarget) hsource).1 hdominates)⟩

/-- A path of forward edges leads on in an interval, or it leads through intervals. -/
theorem forward_path_cases
    (h : g.Divides P)
    (hwellFormed : g.WellFormed)
    {j : Nat}
    (hpath : Relation.TransGen g.ForwardEdge a b)
    (hsource : assigned P.intervalOf a = some i)
    (htarget : assigned P.intervalOf b = some j) :
    (i = j ∧ ∀ I, P.intervals[i]? = some I → I.members.idxOf a < I.members.idxOf b) ∨
      Relation.TransGen P.reduced.ForwardEdge i j := by
  induction hpath generalizing j with
  | single hedge => exact (h.forward_cases hwellFormed hedge hsource htarget).imp_right .single
  | @tail b c hpath hedge ih =>
      obtain ⟨k, hmiddle⟩ := (h.assigned_iff b).2 hedge.reachable
      rcases ih hmiddle, h.forward_cases hwellFormed hedge hmiddle htarget with
        ⟨⟨rfl, hlt⟩ | hbefore, ⟨rfl, hlt'⟩ | hafter⟩
      · exact .inl ⟨rfl, fun I hfound => (hlt I hfound).trans (hlt' I hfound)⟩
      · exact .inr (.single hafter)
      · exact .inr hbefore
      · exact .inr (hbefore.tail hafter)

/-- What dominates a later member of an interval dominates the head. -/
theorem dominates_head_of_later
    (h : g.Divides P)
    (hwellFormed : g.WellFormed)
    (hfound : P.intervals[i]? = some I)
    (hmem : n ∈ I.members)
    (hlt : I.members.idxOf n < I.members.idxOf x)
    (hdominates : g.Dominates x n) :
    g.Dominates x I.head := by
  induction hplace : I.members.idxOf n using Nat.strong_induction_on generalizing n with
  | _ k ih =>
      subst hplace
      by_cases here : n = I.head
      · exact here ▸ hdominates
      · obtain ⟨p, hpred, hinside, hearlier⟩ := h.exists_earlier hfound hmem here
        have hother : x ≠ n := fun hsame => absurd hlt (hsame ▸ Nat.lt_irrefl _)
        exact ih _ hearlier hinside (hearlier.trans hlt)
          (hdominates.of_pred hother ((hwellFormed.mem_preds p n).1 hpred)) rfl

/-- A member of an interval can be reached from its head by forward edges. -/
theorem forward_of_head
    (h : g.Divides P)
    (hg : g.Rooted)
    (hfound : P.intervals[i]? = some I)
    (hmem : n ∈ I.members) :
    Relation.ReflTransGen g.ForwardEdge I.head n := by
  induction hplace : I.members.idxOf n using Nat.strong_induction_on generalizing n with
  | _ k ih =>
      subst hplace
      by_cases here : n = I.head
      · exact here ▸ .refl
      · obtain ⟨p, hpred, hinside, hearlier⟩ := h.exists_earlier hfound hmem here
        refine (ih _ hearlier hinside rfl).tail
          ⟨(hg.wellFormed.mem_preds p n).1 hpred, fun hback => ?_⟩
        have hup := h.dominates_head_of_later hg.wellFormed hfound hinside hearlier hback
        have hparts := h.collapse hg.wellFormed
        have hdown := hparts.dominates_head ((h.mem_iff i I hfound n).1 hmem)
        rw [Partition.headOf_eq hfound] at hdown
        have hreached := (h.assigned_iff I.head).1 ⟨i, h.head_assigned hfound⟩
        exact here (hup.antisymm hreached hdown)

/-- **Intervals keep reducibility.** -/
theorem reducible_iff
    (h : g.Divides P)
    (hg : g.Rooted) :
    P.reduced.Reducible ↔ g.Reducible := by
  have hparts := h.collapse hg.wellFormed
  refine ⟨fun hacyclic n hcycle => ?_, fun hacyclic i hcycle => ?_⟩
  · obtain ⟨m, hedge, -⟩ := Relation.TransGen.head'_iff.1 hcycle
    obtain ⟨i, hthere⟩ := (h.assigned_iff n).2 hedge.reachable
    obtain ⟨I, hfound, -⟩ := h.exists_interval hthere
    rcases h.forward_path_cases hg.wellFormed hcycle hthere hthere with ⟨-, hlt⟩ | hcycle
    · exact absurd (hlt I hfound) (Nat.lt_irrefl _)
    · exact hacyclic i hcycle
  · refine hacyclic (P.headOf i) (Relation.TransGen.lift' P.headOf (fun i j hedge => ?_) i i hcycle)
    obtain ⟨x, hmem, hsucc⟩ := hparts.exits i j hedge.reachable hedge.1
    obtain ⟨I, hfound, hinside, hsame⟩ := h.exists_interval hmem
    refine Relation.TransGen.tail' (hsame ▸ h.forward_of_head hg hfound hinside)
      ⟨hsucc, fun hback => ?_⟩
    exact hedge.2 ((hparts.dominates_iff (hedge.reachable.step hedge.1) hmem).2 hback)

/-- An interval with two nodes has a second one, which only the head leads to. -/
theorem exists_solePred
    (h : g.Divides P)
    (hfound : P.intervals[i]? = some I)
    (hmem : n ∈ I.members)
    (hother : n ≠ I.head) :
    ∃ p n, g.SolePred p n := by
  have hlisted := List.mem_of_getElem? hfound
  have htight := h.tight I hlisted
  induction hplace : I.members.idxOf n using Nat.strong_induction_on generalizing n with
  | _ k ih =>
      subst hplace
      by_cases honly : ∀ q ∈ g.preds n, q = I.head
      · exact ⟨I.head, n, (h.assigned_iff n).1 ⟨i, (h.mem_iff i I hfound n).1 hmem⟩,
          h.inner I hlisted n hmem hother, Ne.symm hother, honly⟩
      · obtain ⟨q, hpred, hdiffer⟩ : ∃ q ∈ g.preds n, q ≠ I.head := by simpa using honly
        obtain ⟨hinside, hlt⟩ := htight.behind n hmem hother q hpred
        exact ih _ hlt hinside hdiffer rfl

/-- Different intervals have different heads. -/
theorem heads_nodup
    (h : g.Divides P) :
    (P.intervals.map Interval.head).Nodup := by
  rw [List.nodup_iff_injective_getElem]
  intro ⟨i, hi⟩ ⟨j, hj⟩ hsame
  simp only [List.getElem_map, List.length_map] at hsame hi hj
  have hleft := h.head_assigned (List.getElem?_eq_getElem hi)
  have hright := h.head_assigned (List.getElem?_eq_getElem hj)
  rw [hsame, hright, Option.some_inj] at hleft
  exact Fin.ext hleft.symm

theorem heads_subset
    (h : g.Divides P)
    (ho : g.IsSweepOrder order) :
    P.intervals.map Interval.head ⊆ order := by
  intro n hmem
  obtain ⟨I, hlisted, rfl⟩ := List.mem_map.1 hmem
  obtain ⟨i, hfound⟩ := List.mem_iff_getElem?.1 hlisted
  exact (ho.mem_iff _).2 ((h.assigned_iff _).1 ⟨i, h.head_assigned hfound⟩)

/-- **Intervals get fewer exactly when something can be contracted.** -/
theorem contracts_iff
    (h : g.Divides P)
    (ho : g.IsSweepOrder order) :
    g.Contracts ↔ P.intervals.length ≤ 1 ∨ P.intervals.length < order.length := by
  have hsub := h.heads_subset ho
  constructor
  · intro hcontracts
    by_contra hneither
    obtain ⟨hseveral, hall⟩ := not_or.1 hneither
    have hevery : order ⊆ P.intervals.map Interval.head :=
      ((List.subperm_of_subset h.heads_nodup hsub).perm_of_length_le
        (by simpa using hall)).symm.subset
    rcases hcontracts with halone | ⟨p, n, hsole⟩
    · have hsecond := h.head_assigned (List.getElem?_eq_getElem (Nat.lt_of_not_le hseveral))
      rw [halone _ ((h.assigned_iff _).1 ⟨1, hsecond⟩), h.entry_assigned] at hsecond
      cases hsecond
    · obtain ⟨I, hlisted, rfl⟩ := List.mem_map.1 (hevery ((ho.mem_iff n).2 hsole.reachable))
      obtain ⟨i, hfound⟩ := List.mem_iff_getElem?.1 hlisted
      have hlater : i ≠ 0 := by
        rintro rfl
        obtain ⟨I', hfound', hfirst⟩ := h.first
        rw [hfound, Option.some_inj] at hfound'
        exact hsole.not_entry (hfound' ▸ hfirst)
      obtain ⟨q, hpred, j, -, hthere⟩ := h.follows i I hfound hlater
      obtain rfl := hsole.only q hpred
      exact h.apart i I hfound hlater j fun r hpred => (hsole.only r hpred).symm ▸ hthere
  · intro hfewer
    rw [Contracts, or_iff_not_imp_left, not_forall]
    rintro ⟨other, hreached⟩
    obtain ⟨hreached, hdiffer⟩ := Classical.not_imp.1 hreached
    -- In either case some node is no head.
    obtain ⟨n, hmem, hout⟩ : ∃ n ∈ order, n ∉ P.intervals.map Interval.head := by
      by_contra hnone
      have hevery : order ⊆ P.intervals.map Interval.head := fun n hmem =>
        not_not.1 fun hout => hnone ⟨n, hmem, hout⟩
      have hpair : [g.entry, other] ⊆ order := List.cons_subset.2
        ⟨(ho.mem_iff _).2 (.refl g _),
          List.cons_subset.2 ⟨(ho.mem_iff _).2 hreached, List.nil_subset _⟩⟩
      have htwo := (List.subperm_of_subset (by simpa using Ne.symm hdiffer) hpair).length_le
      have hle := (List.subperm_of_subset ho.nodup hevery).length_le
      simp only [List.length_map, List.length_cons, List.length_nil] at htwo hle
      omega
    obtain ⟨i, hthere⟩ := (h.assigned_iff n).2 ((ho.mem_iff n).1 hmem)
    obtain ⟨I, hfound, hinside, -⟩ := h.exists_interval hthere
    refine h.exists_solePred hfound hinside fun hsame => hout ?_
    exact List.mem_map.2 ⟨I, List.mem_of_getElem? hfound, hsame.symm⟩

end Divides

end Intervals

end Digraph

namespace Digraph

/-- The strict dominator of a node that all its strict dominators dominate. -/
def ImmediatelyDominates (g : Digraph) (d n : NodeId) : Prop :=
  g.StrictlyDominates d n ∧ ∀ e, g.StrictlyDominates e n → g.Dominates e d

section Dominators

variable {g : Digraph} {d e n : NodeId}

theorem ImmediatelyDominates.unique
    (hreached : g.Reachable g.entry n)
    (h : g.ImmediatelyDominates d n)
    (h' : g.ImmediatelyDominates e n) :
    d = e :=
  Dominates.antisymm (h'.1.2.reachable hreached) (h'.2 d h.1) (h.2 e h'.1)

/-- Nothing dominates the entry strictly. -/
theorem StrictlyDominates.ne_entry
    (h : g.StrictlyDominates d n) :
    n ≠ g.entry := by
  rintro rfl
  exact h.1 (List.mem_singleton.1 (h.2 _ .here))

end Dominators

end Digraph

namespace DominatorTree

/-- A tree names the immediate dominators of the nodes that can be reached. -/
structure Fits (g : Digraph) (t : DominatorTree) : Prop where
  entry_eq : t.entry = g.entry
  none_iff : ∀ n, g.Reachable g.entry n → (t.immediateDominator n = none ↔ n = g.entry)
  some_iff : ∀ n d, g.Reachable g.entry n →
    (t.immediateDominator n = some d ↔ g.ImmediatelyDominates d n)

section Fitting

variable {g R : Digraph} {t t' : DominatorTree}

/-- The computed tree starts at the entry. -/
theorem entry_compute
    (hwellFormed : g.WellFormed) :
    (compute g (g.reversePostorder g.entry)).entry = g.entry := by
  by_cases hknown : g.entry < g.size
  · obtain ⟨h, -⟩ := compute_facts hwellFormed hknown
    exact h.numbered.entry
  · obtain ⟨horder, htree⟩ := compute_of_size_le (Nat.le_of_not_lt hknown)
    rw [horder, htree]
    rfl

theorem compute_fits
    (hwellFormed : g.WellFormed) :
    Fits g (compute g (g.reversePostorder g.entry)) := by
  obtain ⟨-, -, hexact⟩ := compute_exact g hwellFormed
  exact ⟨entry_compute hwellFormed, hexact.immediateDominator_eq_none_iff,
    hexact.immediateDominator_eq_some_iff⟩

/-- The computed tree has no other nodes. -/
theorem compute_beyond
    (hwellFormed : g.WellFormed)
    (hknown : g.entry < g.size)
    (n : NodeId)
    (houtside : g.size ≤ n) :
    (compute g (g.reversePostorder g.entry)).immediateDominator n = none := by
  obtain ⟨h, -⟩ := compute_facts hwellFormed hknown
  rw [immediateDominator, Array.getElem?_eq_none (h.numbered.size.le.trans houtside)]
  rfl

/-- Only nodes that can be reached are above others in the computed tree. -/
theorem mem_of_compute
    (hwellFormed : g.WellFormed)
    (hknown : g.entry < g.size)
    {n d : NodeId}
    (hfound : (compute g (g.reversePostorder g.entry)).immediateDominator n = some d) :
    d ∈ g.reversePostorder g.entry :=
  (compute_facts hwellFormed hknown).1.numbered.parent_mem n d hfound

/-- Numbers do not matter. -/
theorem Fits.congr
    (h : Fits g t)
    (hentry : t'.entry = t.entry)
    (hparent : ∀ n, t'.immediateDominator n = t.immediateDominator n) :
    Fits g t' where
  entry_eq := hentry.trans h.entry_eq
  none_iff n hreached := by rw [hparent, h.none_iff n hreached]
  some_iff n d hreached := by rw [hparent, h.some_iff n d hreached]

end Fitting

end DominatorTree

namespace Digraph
namespace Collapse

variable {g R : Digraph} {part : NodeId → NodeId → Prop} {head : NodeId → NodeId} {d i j : NodeId}

/-- **The immediate dominator of a head lies in the immediate dominator of its part.** -/
theorem immediatelyDominates
    (h : Collapse g R part head)
    (hreached : R.Reachable R.entry i)
    (hinside : part j d)
    (habove : g.ImmediatelyDominates d (head i)) :
    R.ImmediatelyDominates j i := by
  have hstart := h.head_mem i hreached
  have hknown := h.head_reachable hreached
  have hreached' := h.reached hinside
  refine ⟨⟨?_, ?_⟩, fun k hstrict => ?_⟩
  · rintro rfl
    exact habove.1.1 (Dominates.antisymm hknown habove.1.2 (h.dominates_head hinside))
  · rw [h.dominates_iff hreached' hstart]
    exact (h.dominates_head hinside).trans habove.1.2
  · have hknown' := hstrict.2.reachable hreached
    have hother : head k ≠ head i := fun hsame =>
      hstrict.1 (h.unique _ _ _ (h.head_mem k hknown') (hsame ▸ hstart))
    rw [h.dominates_iff hknown' hinside]
    exact habove.2 _ ⟨hother, (h.dominates_iff hknown' hstart).1 hstrict.2⟩

/-- **A tree of the heads is a tree of the parts.** -/
theorem fits
    {t t' : DominatorTree}
    {project : NodeId → NodeId}
    (h : Collapse g R part head)
    (hfits : t.Fits g)
    (hinside : ∀ x, g.Reachable g.entry x → part (project x) x)
    (hentry : t'.entry = project t.entry)
    (hparents : ∀ i, R.Reachable R.entry i →
      t'.immediateDominator i = (t.immediateDominator (head i)).map project) :
    t'.Fits R := by
  have hstart := h.head_mem R.entry (.refl R R.entry)
  rw [h.entry] at hstart
  have head_eq {i : NodeId} (hreached : R.Reachable R.entry i) : head i = g.entry ↔ i = R.entry :=
    ⟨fun hsame => h.unique _ _ _ (hsame ▸ h.head_mem i hreached) hstart, fun hsame =>
      hsame ▸ h.entry⟩
  have habove {i d : NodeId} (hreached : R.Reachable R.entry i)
      (hfound : t.immediateDominator (head i) = some d) : R.ImmediatelyDominates (project d) i := by
    have himmediate := (hfits.some_iff _ d (h.head_reachable hreached)).1 hfound
    exact h.immediatelyDominates hreached
      (hinside d (himmediate.1.2.reachable (h.head_reachable hreached))) himmediate
  refine ⟨?_, fun i hreached => ?_, fun i j hreached => ?_⟩
  · rw [hentry, hfits.entry_eq]
    exact h.unique _ _ _ (hinside _ (.refl g g.entry)) hstart
  · rw [hparents i hreached, Option.map_eq_none_iff, hfits.none_iff _ (h.head_reachable hreached),
      head_eq hreached]
  · rw [hparents i hreached, Option.map_eq_some_iff]
    refine ⟨fun ⟨d, hfound, hsame⟩ => hsame ▸ habove hreached hfound, fun himmediate => ?_⟩
    have hother : head i ≠ g.entry := (head_eq hreached).not.2 himmediate.1.ne_entry
    obtain ⟨d, hfound⟩ := Option.ne_none_iff_exists'.1
      ((hfits.none_iff _ (h.head_reachable hreached)).not.2 hother)
    exact ⟨d, hfound, (habove hreached hfound).unique hreached himmediate⟩

end Collapse
end Digraph
end DalvikDecompiler
