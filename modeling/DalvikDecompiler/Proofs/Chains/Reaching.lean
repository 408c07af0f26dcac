import DalvikDecompiler.Proofs.FlowGraph.Trace
import Mathlib

/-!
# Exactness of reaching definitions

**Input.** A flow graph with well-formed edges and a current order, whose
instructions have places of their own.

What leaves a node is always the places of a fixed list that have some
property, so that sets that grow are lists that get longer.  Sweeps only add
places, each of which leaves its node at the end of some walk from the entry;
when nothing is added any more, every such place has been found.

**Results.**
* `compute_stable`: the sweeps end because nothing changes.
* `mem_entering_iff`: a place enters a node exactly if it holds the last
  definition of its variable on some walk from the entry to the node.
-/

namespace DalvikDecompiler
namespace Reaching

open Symbolic (VarId Instr)

section Sites

variable {g : FlowGraph} {params : List VarId} {v w : VarId} {d : Loc}

theorem mem_definitions
    {id : NodeId} :
    (v, d) ∈ (g.node id).definitions ↔ ∃ ins, (ins, d) ∈ g.code id ∧ ins.target? = some v := by
  simp only [Node.definitions, List.mem_filterMap, FlowGraph.code]
  constructor
  · rintro ⟨⟨ins, loc⟩, hmem, h⟩
    obtain ⟨w, hw, heq⟩ := Option.map_eq_some_iff.mp h
    obtain ⟨rfl, rfl⟩ := Prod.mk.inj heq
    exact ⟨ins, hmem, hw⟩
  · rintro ⟨ins, hmem, hins⟩
    exact ⟨(ins, d), hmem, by simp [hins]⟩

theorem mem_sitesOf :
    (v, d) ∈ sitesOf g params ↔
      (v, d) ∈ argumentSites params ∨
        ∃ id, id ∈ g.order ∧ ∃ ins, (ins, d) ∈ g.code id ∧ ins.target? = some v := by
  simp only [sitesOf, List.mem_append, List.mem_flatMap, mem_definitions]

theorem argumentLoc_neg
    (index : Nat) :
    argumentLoc index < 0 := by
  change -(index : Int) - 1 < 0
  omega

theorem argumentLoc_inj
    {i j : Nat}
    (h : argumentLoc i = argumentLoc j) :
    i = j := by
  have h : -(i : Int) - 1 = -(j : Int) - 1 := h
  omega

/-- A place holds a definition of one variable only. -/
theorem site_unique
    (hg : g.Numbered)
    (h : (v, d) ∈ sitesOf g params)
    (h' : (w, d) ∈ sitesOf g params) :
    v = w := by
  have hneg : ∀ id ins, id ∈ g.order → (ins, d) ∈ g.code id → 0 ≤ d := fun id ins hid hmem =>
    hg.nonneg id hid d (List.of_mem_zip hmem).2
  rcases mem_sitesOf.mp h with h | ⟨a, ha, ins, hins, hv⟩
  · obtain ⟨i, hi, rfl⟩ := mem_argumentSites.mp h
    rcases mem_sitesOf.mp h' with h' | ⟨b, hb, ins', hins', -⟩
    · obtain ⟨j, hj, heq⟩ := mem_argumentSites.mp h'
      obtain rfl := argumentLoc_inj heq
      rw [hi] at hj
      exact Option.some.inj hj
    · exact absurd (hneg b ins' hb hins') (Int.not_le.mpr (argumentLoc_neg i))
  · rcases mem_sitesOf.mp h' with h' | ⟨b, hb, ins', hins', hw⟩
    · obtain ⟨j, hj, rfl⟩ := mem_argumentSites.mp h'
      exact absurd (hneg a ins ha hins) (Int.not_le.mpr (argumentLoc_neg j))
    · obtain ⟨-, rfl⟩ := hg.code_inj ha hb hins hins'
      rw [hv] at hw
      exact Option.some.inj hw

/-- The last definitions of a node are those behind all its code. -/
theorem mem_lastDefinitions
    (n : Node) :
    (v, d) ∈ n.lastDefinitions ↔ lastDefinition v (n.ins.zip n.locs) = some d := by
  have hlookup : ∀ (sites : List DefSite) (found : List DefSite),
      (found.map Prod.fst).Nodup →
      ((sites.foldl (fun found site => OrderedMap.insert site.1 site.2 found) found).map
        Prod.fst).Nodup := by
    intro sites
    induction sites with
    | nil => exact fun _ h => h
    | cons site sites ih =>
        intro found h
        apply ih
        rw [OrderedMap.keys_insert]
        exact OrderedSet.nodup_insert h
  have hfold : ∀ (code : List RunStep) (found : List DefSite),
      ((code.filterMap fun (ins, loc) => ins.target?.map fun v => (v, loc)).foldl
        (fun found site => OrderedMap.insert site.1 site.2 found) found).lookup v =
      (lastDefinition v code).or (found.lookup v) := by
    intro code
    induction code with
    | nil => exact fun _ => rfl
    | cons x code ih =>
        intro found
        obtain ⟨ins, loc⟩ := x
        cases hins : ins.target? with
        | none =>
            simp [hins, lastDefinition, ih]
        | some w =>
            simp only [List.filterMap_cons, hins, Option.map_some, List.foldl_cons, ih,
              OrderedMap.lookup_insert, lastDefinition]
            by_cases hvw : v = w
            · subst hvw
              simp
            · have hwv : ¬ w = v := fun h => hvw h.symm
              simp [hvw, hwv]
  unfold Node.lastDefinitions
  rw [OrderedMap.mem_iff_lookup_eq_some (hlookup _ [] (by simp))]
  simp only [Node.definitions]
  rw [hfold]
  simp

end Sites

section Growth

/-- The same question with no fewer places known to leave any node. -/
structure Below (r s : Reaching) : Prop where
  sites : s.sites = r.sites
  arguments : s.arguments = r.arguments
  places : s.places = r.places
  size : s.out.size = r.out.size
  leaving : ∀ id, (r.leaving id).Sublist (s.leaving id)

/-- Nothing is known to leave a node that its code would not let through. -/
def Growing (g : FlowGraph) (r : Reaching) : Prop :=
  ∀ id, (r.leaving id).Sublist (r.transfer (g.node id) (r.entering g id))

variable {g : FlowGraph} {params : List VarId} {r s t : Reaching}

namespace Below

theorem refl
    (r : Reaching) :
    Below r r :=
  ⟨rfl, rfl, rfl, rfl, fun _ => List.Sublist.refl _⟩

theorem trans
    (h : Below r s)
    (h' : Below s t) :
    Below r t :=
  ⟨h'.sites.trans h.sites, h'.arguments.trans h.arguments, h'.places.trans h.places,
    h'.size.trans h.size, fun id => (h.leaving id).trans (h'.leaving id)⟩

theorem eq_of_leaving
    (h : Below r s)
    (heq : ∀ id, s.leaving id = r.leaving id) :
    s = r := by
  have hout : s.out = r.out := by
    refine Array.ext h.size fun id hs hr => ?_
    have hid := heq id
    rwa [Reaching.leaving, Reaching.leaving, Array.getElem?_eq_getElem hs,
      Array.getElem?_eq_getElem hr] at hid
  obtain ⟨hsites, harguments, hplaces, -, -⟩ := h
  cases s
  cases r
  simp_all

theorem antisymm
    (h : Below r s)
    (h' : Below s r) :
    s = r :=
  h.eq_of_leaving fun id => (h'.leaving id).antisymm (h.leaving id)

end Below

theorem leaving_step
    (id n : NodeId) :
    (step g r id).leaving n =
      if n = id ∧ id < r.out.size then r.transfer (g.node id) (r.entering g id)
      else r.leaving n := by
  unfold step leaving
  simp only [Array.getElem?_setIfInBounds]
  by_cases hid : id = n
  · subst hid
    by_cases hlt : id < r.out.size
    · simp [hlt]
    · simp [hlt]
  · have hne : ¬ n = id := fun h => hid h.symm
    simp [hid, hne]

theorem entering_subset
    (h : Below r s)
    (id : NodeId) :
    r.entering g id ⊆ s.entering g id := by
  intro loc hloc
  simp only [entering, h.places, h.arguments, List.mem_filter, Bool.or_eq_true, List.any_eq_true,
    List.contains_iff_mem] at hloc ⊢
  refine ⟨hloc.1, hloc.2.imp_right ?_⟩
  rintro ⟨pred, hpred, hleaving⟩
  exact ⟨pred, hpred, (h.leaving pred).subset hleaving⟩

/-- What is let through grows with what comes in. -/
theorem transfer_sublist
    (n : Node)
    {known more : List Loc}
    (h : known ⊆ more) :
    (r.transfer n known).Sublist (r.transfer n more) := by
  refine List.monotone_filter_right _ fun loc hloc => ?_
  simp only [Bool.or_eq_true, Bool.and_eq_true, List.contains_iff_mem] at hloc ⊢
  exact hloc.imp_right fun hrest => ⟨h hrest.1, hrest.2⟩

theorem transfer_congr
    (h : Below r s)
    (n : Node)
    (known : List Loc) :
    s.transfer n known = r.transfer n known := by
  simp only [transfer, h.places, h.sites]

/-- One node computed anew lets nothing get lost. -/
theorem step_below
    (h : Growing g r)
    (id : NodeId) :
    Below r (step g r id) := by
  refine ⟨rfl, rfl, rfl, by simp [step], fun n => ?_⟩
  rw [leaving_step]
  split
  · rename_i hn
    rw [hn.1]
    exact h id
  · exact List.Sublist.refl _

theorem step_growing
    (h : Growing g r)
    (id : NodeId) :
    Growing g (step g r id) := by
  intro n
  have hbelow := step_below h id
  have hgrow := transfer_sublist (r := r) (g.node n) (entering_subset (g := g) hbelow n)
  rw [transfer_congr hbelow, leaving_step]
  split
  · rename_i hn
    rw [hn.1] at hgrow ⊢
    exact hgrow
  · exact (h n).trans hgrow

theorem sweep_growing
    (ids : List NodeId)
    (h : Growing g r) :
    Growing g (ids.foldl (step g) r) ∧ Below r (ids.foldl (step g) r) := by
  induction ids generalizing r with
  | nil => exact ⟨h, Below.refl r⟩
  | cons id ids ih =>
      obtain ⟨hgrow, hbelow⟩ := ih (step_growing h id)
      exact ⟨hgrow, (step_below h id).trans hbelow⟩

/-- A sweep that changes nothing has changed nothing at any of its nodes. -/
theorem step_eq_of_sweep_eq
    {ids : List NodeId}
    (h : Growing g r)
    (heq : ids.foldl (step g) r = r) :
    ∀ id, id ∈ ids → step g r id = r := by
  induction ids with
  | nil => simp
  | cons id ids ih =>
      have hbelow := (sweep_growing ids (step_growing h id)).2
      rw [List.foldl_cons] at heq
      rw [heq] at hbelow
      have hid : step g r id = r := (step_below h id).antisymm hbelow
      rw [hid] at heq
      intro n hn
      rcases List.mem_cons.mp hn with rfl | hn
      · exact hid
      · exact ih heq n hn

/-- The number of places known to leave the nodes. -/
def total (r : Reaching) : Nat :=
  ((List.range r.out.size).map fun id => (r.leaving id).length).sum

theorem total_le
    (h : Growing g r) :
    r.total ≤ r.out.size * r.places.length := by
  have hle : ∀ n, n ∈ (List.range r.out.size).map (fun id => (r.leaving id).length) →
      n ≤ r.places.length := by
    intro n hn
    obtain ⟨id, -, rfl⟩ := List.mem_map.mp hn
    exact Nat.le_trans (h id).length_le (List.length_filter_le _ _)
  have hsum := List.sum_le_card_nsmul _ _ hle
  simpa [total] using hsum

/-- Places are only added, so nothing has changed if their number has not grown. -/
theorem Below.eq_of_total_le
    (h : Below r s)
    (htotal : s.total ≤ r.total) :
    s = r := by
  refine h.eq_of_leaving fun id => ?_
  by_contra hne
  have hlt : (r.leaving id).length < (s.leaving id).length := by
    refine Nat.lt_of_le_of_ne (h.leaving id).length_le fun heq => hne ?_
    exact ((h.leaving id).eq_of_length heq).symm
  have hid : id < r.out.size := by
    by_contra hid
    have hs : s.leaving id = [] := by
      simp [Reaching.leaving, Array.getElem?_eq_none (Nat.le_of_not_lt (h.size ▸ hid))]
    simp [hs] at hlt
  have hsum := List.sum_lt_sum (l := List.range r.out.size) (fun id => (r.leaving id).length)
    (fun id => (s.leaving id).length) (fun n _ => (h.leaving n).length_le)
    ⟨id, List.mem_range.mpr hid, hlt⟩
  rw [total, h.size] at htotal
  exact absurd hsum (Nat.not_lt.mpr htotal)

/-- Enough sweeps lead to a state that a sweep does not change. -/
theorem settle_stable
    {sweeps : Nat}
    (h : Growing g r)
    (hsweeps : r.out.size * r.places.length < r.total + sweeps) :
    g.order.foldl (step g) (settle g sweeps r) = settle g sweeps r := by
  induction sweeps generalizing r with
  | zero => exact absurd (total_le h) (Nat.not_le.mpr hsweeps)
  | succ sweeps ih =>
      obtain ⟨hgrow, hbelow⟩ := sweep_growing g.order h
      unfold settle
      by_cases hout : g.order.foldl (step g) r = r
      · simp [hout]
      · have hne : ¬ (g.order.foldl (step g) r).out = r.out := fun heq =>
          hout (hbelow.eq_of_leaving fun id => by simp [Reaching.leaving, heq])
        simp only [beq_iff_eq, hne, if_false]
        have htotal : r.total < (g.order.foldl (step g) r).total :=
          Nat.lt_of_not_le fun hle => hout (hbelow.eq_of_total_le hle)
        refine ih hgrow ?_
        rw [hbelow.size, hbelow.places]
        omega

/-- More sweeps than enough make no difference. -/
theorem settle_eq_of_le
    {sweeps more : Nat}
    (hle : sweeps ≤ more)
    (h : g.order.foldl (step g) (settle g sweeps r) = settle g sweeps r) :
    settle g more r = settle g sweeps r := by
  induction sweeps generalizing r more with
  | zero =>
      cases more with
      | zero => rfl
      | succ more =>
          have h : g.order.foldl (step g) r = r := h
          simp [settle, h]
  | succ sweeps ih =>
      obtain ⟨more, rfl⟩ : ∃ k, more = k + 1 := ⟨more - 1, by omega⟩
      unfold settle at h ⊢
      simp only [] at h ⊢
      split
      · rfl
      · rename_i hne
        rw [if_neg hne] at h
        exact ih (by omega) h

theorem settle_growing
    (sweeps : Nat)
    (h : Growing g r) :
    Growing g (settle g sweeps r) ∧ Below r (settle g sweeps r) := by
  induction sweeps generalizing r with
  | zero => exact ⟨h, Below.refl r⟩
  | succ sweeps ih =>
      obtain ⟨hgrow, hbelow⟩ := sweep_growing g.order h
      unfold settle
      simp only []
      split
      · exact ⟨hgrow, hbelow⟩
      · obtain ⟨hgrow', hbelow'⟩ := ih hgrow
        exact ⟨hgrow', hbelow.trans hbelow'⟩

theorem leaving_start
    (id : NodeId) :
    (start g params).leaving id = [] := by
  simp only [start, leaving]
  cases h : (Array.replicate g.size ([] : List Loc))[id]? with
  | none => rfl
  | some known =>
      obtain ⟨hlt, hknown⟩ := Array.getElem?_eq_some_iff.mp h
      simpa using hknown.symm

theorem start_growing :
    Growing g (start g params) := by
  intro id
  rw [leaving_start]
  exact List.nil_sublist _

/-- The sweeps end because nothing changes any more. -/
theorem compute_stable :
    g.order.foldl (step g) (compute g params) = compute g params := by
  refine settle_stable start_growing ?_
  have hsize : (start g params).out.size = g.size := by simp [start]
  rw [hsize]
  omega

end Growth

section Exact

variable {g : FlowGraph} {params : List VarId} {r : Reaching} {v : VarId} {d : Loc}

theorem mem_places
    (hbelow : Below (start g params) r) :
    d ∈ r.places ↔ ∃ v, (v, d) ∈ sitesOf g params := by
  rw [hbelow.places]
  simp [start, sorted]

theorem mem_entering
    (hbelow : Below (start g params) r)
    {id : NodeId}
    (hsite : (v, d) ∈ sitesOf g params)
    (hg : g.Numbered) :
    d ∈ r.entering g id ↔
      (id = g.entry ∧ (v, d) ∈ argumentSites params) ∨
        ∃ pred, pred ∈ g.flowPreds id ∧ d ∈ r.leaving pred := by
  have hargument : d ∈ r.arguments ↔ (v, d) ∈ argumentSites params := by
    rw [hbelow.arguments]
    constructor
    · intro h
      obtain ⟨⟨w, e⟩, hmem, rfl⟩ := List.mem_map.mp h
      have hw : (w, e) ∈ sitesOf g params := mem_sitesOf.mpr (Or.inl hmem)
      rwa [site_unique hg hsite hw]
    · exact fun h => List.mem_map.mpr ⟨(v, d), h, rfl⟩
  simp only [entering, List.mem_filter, mem_places hbelow, Bool.or_eq_true, Bool.and_eq_true,
    beq_iff_eq, List.contains_iff_mem, hargument, List.any_eq_true]
  exact ⟨And.right, fun h => ⟨⟨v, hsite⟩, h⟩⟩

/-- A node lets a definition through unless it defines the variable itself. -/
theorem mem_transfer
    (hbelow : Below (start g params) r)
    (hg : g.Numbered)
    {id : NodeId}
    {known : List Loc}
    (hid : id ∈ g.order)
    (hsite : (v, d) ∈ sitesOf g params) :
    d ∈ r.transfer (g.node id) known ↔
      lastDefinition v (g.code id) = some d ∨
        lastDefinition v (g.code id) = none ∧ d ∈ known := by
  have hown : ∀ w e, lastDefinition w (g.code id) = some e → (w, e) ∈ sitesOf g params := by
    intro w e h
    obtain ⟨ins, hmem, hins⟩ := exists_mem_of_lastDefinition h
    exact mem_sitesOf.mpr (Or.inr ⟨id, hid, ins, hmem, hins⟩)
  have hlast : (g.node id).lastDefinitions.any (fun site => site.2 == d) = true ↔
      lastDefinition v (g.code id) = some d := by
    simp only [List.any_eq_true, beq_iff_eq, Prod.exists]
    constructor
    · rintro ⟨w, e, hmem, rfl⟩
      have hw := (mem_lastDefinitions (g.node id)).mp hmem
      rwa [site_unique hg hsite (hown w e hw)]
    · exact fun h => ⟨v, d, (mem_lastDefinitions (g.node id)).mpr h, rfl⟩
  have hkill : (g.node id).lastDefinitions.any (fun site => r.sites.contains (site.1, d)) = true ↔
      lastDefinition v (g.code id) ≠ none := by
    simp only [List.any_eq_true, List.contains_iff_mem, Prod.exists, hbelow.sites]
    constructor
    · rintro ⟨w, e, hmem, hw⟩
      have hdef := (mem_lastDefinitions (g.node id)).mp hmem
      obtain rfl : v = w := site_unique hg hsite hw
      rw [show lastDefinition v (g.code id) = some e from hdef]
      simp
    · intro h
      obtain ⟨e, he⟩ := Option.ne_none_iff_exists'.mp h
      exact ⟨v, e, (mem_lastDefinitions (g.node id)).mpr he, hsite⟩
  have hkill' : (!(g.node id).lastDefinitions.any fun site => r.sites.contains (site.1, d)) =
      true ↔ lastDefinition v (g.code id) = none := by
    rw [Bool.not_eq_true', ← Bool.not_eq_true, hkill, ne_eq, not_not]
  simp only [transfer, List.mem_filter, mem_places hbelow, Bool.or_eq_true, Bool.and_eq_true,
    hlast, hkill', List.contains_iff_mem]
  constructor
  · rintro ⟨-, h | ⟨hknown, hnone⟩⟩
    · exact Or.inl h
    · exact Or.inr ⟨hnone, hknown⟩
  · rintro (h | ⟨hnone, hknown⟩)
    · exact ⟨⟨v, hsite⟩, Or.inl h⟩
    · exact ⟨⟨v, hsite⟩, Or.inr ⟨hknown, hnone⟩⟩

/-- Behind more code, a variable is supplied by that code or else as before. -/
theorem supplied_append
    {a b : List RunStep} :
    Supplied params v (a ++ b) d ↔
      lastDefinition v b = some d ∨ lastDefinition v b = none ∧ Supplied params v a d := by
  unfold Supplied
  rw [lastDefinition_append]
  cases lastDefinition v b with
  | none => simp
  | some e => simp

/-- What is known to leave a node leaves it at the end of some walk from the entry. -/
def Sound (g : FlowGraph) (params : List VarId) (r : Reaching) : Prop :=
  ∀ v d id, (v, d) ∈ sitesOf g params → d ∈ r.leaving id →
    ∃ nodes, g.toDigraph.Walk g.entry id nodes ∧ Supplied params v (g.trace nodes) d

theorem Sound.of_mem_entering
    (hsound : Sound g params r)
    (hbelow : Below (start g params) r)
    (hg : g.Numbered)
    {id : NodeId}
    (hsite : (v, d) ∈ sitesOf g params)
    (h : d ∈ r.entering g id) :
    ∃ front, g.toDigraph.Walk g.entry id (front ++ [id]) ∧
      Supplied params v (g.trace front) d := by
  rcases (mem_entering hbelow hsite hg).mp h with ⟨rfl, hargument⟩ | ⟨pred, hpred, hleaving⟩
  · exact ⟨[], .here, Or.inr ⟨rfl, hargument⟩⟩
  · obtain ⟨nodes, w, hsupplied⟩ := hsound v d pred hsite hleaving
    exact ⟨nodes, w.step ((hg.wellFormed.mem_preds pred id).mp hpred), hsupplied⟩

theorem step_sound
    (hsound : Sound g params r)
    (hbelow : Below (start g params) r)
    (hg : g.Numbered)
    {id : NodeId}
    (hid : id ∈ g.order) :
    Sound g params (step g r id) := by
  intro v d n hsite hd
  rw [leaving_step] at hd
  split at hd
  · rename_i hn
    rw [hn.1]
    rcases (mem_transfer hbelow hg hid hsite).mp hd with hlast | ⟨hnone, henter⟩
    · obtain ⟨nodes, w⟩ := (hg.mem_order_iff.mp hid).1
      obtain ⟨front, rfl⟩ := w.exists_eq_append
      refine ⟨_, w, ?_⟩
      rw [FlowGraph.trace_append, FlowGraph.trace_singleton, supplied_append]
      exact Or.inl hlast
    · obtain ⟨front, w, hsupplied⟩ := hsound.of_mem_entering hbelow hg hsite henter
      refine ⟨_, w, ?_⟩
      rw [FlowGraph.trace_append, FlowGraph.trace_singleton, supplied_append]
      exact Or.inr ⟨hnone, hsupplied⟩
  · exact hsound v d n hsite hd

theorem sweep_sound
    (hg : g.Numbered)
    {ids : List NodeId}
    (hids : ids ⊆ g.order)
    (hsound : Sound g params r)
    (hbelow : Below (start g params) r)
    (hgrow : Growing g r) :
    Sound g params (ids.foldl (step g) r) := by
  induction ids generalizing r with
  | nil => exact hsound
  | cons id ids ih =>
      obtain ⟨hid, hids⟩ := List.cons_subset.mp hids
      exact ih hids (step_sound hsound hbelow hg hid) (hbelow.trans (step_below hgrow id))
        (step_growing hgrow id)

theorem settle_sound
    (hg : g.Numbered)
    (sweeps : Nat)
    (hsound : Sound g params r)
    (hbelow : Below (start g params) r)
    (hgrow : Growing g r) :
    Sound g params (settle g sweeps r) := by
  induction sweeps generalizing r with
  | zero => exact hsound
  | succ sweeps ih =>
      obtain ⟨hgrow', hbelow'⟩ := sweep_growing g.order hgrow
      have hsound' := sweep_sound hg (List.Subset.refl _) hsound hbelow hgrow
      unfold settle
      simp only []
      split
      · exact hsound'
      · exact ih hsound' (hbelow.trans hbelow') hgrow'

theorem compute_sound
    (hg : g.Numbered) :
    Sound g params (compute g params) := by
  refine settle_sound hg _ ?_ (Below.refl _) start_growing
  intro v d id _ hd
  rw [leaving_start] at hd
  exact absurd hd List.not_mem_nil

theorem start_below_compute :
    Below (start g params) (compute g params) :=
  (settle_growing _ start_growing).2

/-- Where nothing changes, each node lets through what its code lets through. -/
theorem leaving_compute
    {id : NodeId}
    (hid : id ∈ g.order)
    (hlt : id < g.size) :
    (compute g params).leaving id =
      (compute g params).transfer (g.node id) ((compute g params).entering g id) := by
  have hsize : id < (compute g params).out.size := by
    rw [start_below_compute.size]
    simpa [start] using hlt
  have hgrow : Growing g (compute g params) := (settle_growing _ start_growing).1
  have hstep := step_eq_of_sweep_eq hgrow compute_stable id hid
  have hleaving := leaving_step (g := g) (r := compute g params) id id
  rw [hstep] at hleaving
  simpa [hsize] using hleaving

/-- Every last definition on a walk is found at its end. -/
theorem mem_leaving_of_walk
    (hg : g.Numbered)
    {n : NodeId}
    {nodes : List NodeId}
    (w : g.toDigraph.Walk g.entry n nodes)
    (hlt : n < g.size)
    (hsite : (v, d) ∈ sitesOf g params)
    (h : Supplied params v (g.trace nodes) d) :
    d ∈ (compute g params).leaving n := by
  -- The walk is followed node by node; what leaves a node enters the next one.
  induction w with
  | here =>
      have hid : g.entry ∈ g.order := hg.mem_order_iff.mpr ⟨Digraph.Reachable.refl _ _, hlt⟩
      rw [leaving_compute hid hlt, mem_transfer start_below_compute hg hid hsite]
      have h : Supplied params v ([] ++ g.code g.entry) d := by simpa using h
      rcases supplied_append.mp h with hlast | ⟨hnone, hfront⟩
      · exact Or.inl hlast
      · rcases hfront with hfalse | ⟨-, hargument⟩
        · simp [lastDefinition] at hfalse
        · exact Or.inr ⟨hnone,
            (mem_entering start_below_compute hsite hg).mpr (Or.inl ⟨rfl, hargument⟩)⟩
  | @step b c nodes w hc ih =>
      have hid : c ∈ g.order := hg.mem_order_iff.mpr ⟨⟨_, w.step hc⟩, hlt⟩
      rw [leaving_compute hid hlt, mem_transfer start_below_compute hg hid hsite]
      rw [FlowGraph.trace_append, FlowGraph.trace_singleton, supplied_append] at h
      rcases h with hlast | ⟨hnone, hfront⟩
      · exact Or.inl hlast
      · refine Or.inr ⟨hnone, (mem_entering start_below_compute hsite hg).mpr (Or.inr ?_)⟩
        exact ⟨b, (hg.wellFormed.mem_preds b c).mpr hc,
          ih (hg.wellFormed.source_lt b c hc) hfront⟩

/-- A definition enters a node exactly if it is the last one on some walk to the node. -/
theorem mem_entering_iff
    (hg : g.Numbered)
    (hsite : (v, d) ∈ sitesOf g params)
    {n : NodeId} :
    d ∈ (compute g params).entering g n ↔ ∃ run, g.RunsTo run n 0 ∧ Supplied params v run d := by
  constructor
  · intro h
    obtain ⟨front, w, hsupplied⟩ :=
      (compute_sound hg).of_mem_entering start_below_compute hg hsite h
    exact ⟨g.trace front, ⟨front, w, by simp⟩, hsupplied⟩
  · rintro ⟨run, ⟨front, w, rfl⟩, hsupplied⟩
    have hsupplied : Supplied params v (g.trace front) d := by simpa using hsupplied
    rw [mem_entering start_below_compute hsite hg]
    generalize hnodes : front ++ [n] = nodes at w
    cases w with
    | here =>
        obtain rfl : front = [] := by simpa using hnodes
        rcases hsupplied with hfalse | ⟨-, hargument⟩
        · simp [lastDefinition, FlowGraph.trace] at hfalse
        · exact Or.inl ⟨rfl, hargument⟩
    | @step b c nodes w hc =>
        obtain ⟨rfl, -⟩ := List.append_inj' hnodes rfl
        exact Or.inr ⟨b, (hg.wellFormed.mem_preds b n).mpr hc,
          mem_leaving_of_walk hg w (hg.wellFormed.source_lt b n hc) hsite hsupplied⟩

/-- What supplies a variable on a walk from the entry is a definition of the method. -/
theorem mem_sitesOf_of_supplied
    (hg : g.Numbered)
    {n : NodeId}
    {position : Nat}
    {run : List RunStep}
    (hrun : g.RunsTo run n position)
    (h : Supplied params v run d) :
    (v, d) ∈ sitesOf g params := by
  obtain ⟨front, w, rfl⟩ := hrun
  rw [mem_sitesOf]
  rcases h with hlast | ⟨-, hargument⟩
  · right
    obtain ⟨ins, hmem, hins⟩ := exists_mem_of_lastDefinition hlast
    rcases List.mem_append.mp hmem with hmem | hmem
    · obtain ⟨m, hm, hcode⟩ := List.mem_flatMap.mp hmem
      exact ⟨m, hg.mem_order_of_walk w (List.mem_append_left _ hm) hcode, ins, hcode, hins⟩
    · have hcode := List.mem_of_mem_take hmem
      exact ⟨n, hg.mem_order_of_walk w (by simp) hcode, ins, hcode, hins⟩
  · exact Or.inl hargument

/-- The definitions supplied to a position are the last ones on the walks to it. -/
theorem mem_supplying_iff
    (hg : g.Numbered)
    {n : NodeId}
    {position : Nat}
    (hn : n ∈ g.order) :
    d ∈ (compute g params).supplying g v n position ↔
      ∃ run, g.RunsTo run n position ∧ Supplied params v run d := by
  have hbefore : lastBefore (g.node n) v position =
      lastDefinition v ((g.code n).take position) := lastBefore_eq ..
  unfold supplying
  rw [hbefore]
  cases hlast : lastDefinition v ((g.code n).take position) with
  | some e =>
      constructor
      · intro h
        obtain rfl : d = e := by simpa using h
        obtain ⟨nodes, w⟩ := (hg.mem_order_iff.mp hn).1
        obtain ⟨front, rfl⟩ := w.exists_eq_append
        exact ⟨_, ⟨front, w, rfl⟩, supplied_append.mpr (Or.inl hlast)⟩
      · rintro ⟨run, ⟨front, w, rfl⟩, hsupplied⟩
        rw [supplied_append, hlast] at hsupplied
        simpa [eq_comm] using hsupplied
  | none =>
      simp only [List.mem_filter, List.contains_iff_mem, start_below_compute.sites]
      constructor
      · rintro ⟨henter, hsite⟩
        obtain ⟨run, ⟨front, w, rfl⟩, hsupplied⟩ := (mem_entering_iff hg hsite).mp henter
        refine ⟨_, ⟨front, w, rfl⟩, supplied_append.mpr (Or.inr ⟨hlast, ?_⟩)⟩
        simpa using hsupplied
      · rintro ⟨run, hrun, hsupplied⟩
        have hsite := mem_sitesOf_of_supplied hg hrun hsupplied
        obtain ⟨front, w, rfl⟩ := hrun
        rw [supplied_append, hlast] at hsupplied
        have hfront : Supplied params v (g.trace front) d := by simpa using hsupplied
        exact ⟨(mem_entering_iff hg hsite).mpr ⟨g.trace front, ⟨front, w, by simp⟩, hfront⟩, hsite⟩

end Exact

end Reaching
end DalvikDecompiler
