import DalvikDecompiler.Proofs.Chains.Renaming

/-!
# Upkeep of chains

**Input.** Chains without links, and any sequence of changes to them: a definition
and a use are linked or unlinked, a use is forgotten, or a definition counts as
one of another variable, which has no uses there yet.

Links are kept in two maps, one from uses and one from definitions.  Each change
updates both of them, and an entry goes with its last link.

**Results.**
* `LinkMap.Tidy`: a map has one entry per site, with some places, each once.
* `Forgets`, `Renames`: what forgetting a use and renaming a definition do to the
  links of every site.
* `maintained_exact`: after any changes, the two maps are mirror images and tidy.
-/

namespace DalvikDecompiler

open Symbolic (VarId)

namespace LinkMap

/-- Each site has one entry, which lists some places, each of them once. -/
structure Tidy (m : LinkMap) : Prop where
  nodup_sites : (m.map Prod.fst).Nodup
  nonempty : ∀ site locs, (site, locs) ∈ m → locs ≠ []
  nodup : ∀ site locs, (site, locs) ∈ m → locs.Nodup

variable {m : LinkMap} {site : DefSite} {locs : List Loc} {loc : Loc}

theorem tidy_nil :
    Tidy [] where
  nodup_sites := List.nodup_nil
  nonempty _ _ h := absurd h List.not_mem_nil
  nodup _ _ h := absurd h List.not_mem_nil

namespace Tidy

theorem nodup_linked
    (h : m.Tidy)
    (site : DefSite) :
    (m.linked site).Nodup := by
  unfold linked
  cases hsite : m.lookup site with
  | none => exact List.nodup_nil
  | some locs =>
      exact h.nodup site locs ((OrderedMap.mem_iff_lookup_eq_some h.nodup_sites).mpr hsite)

theorem insert
    (h : m.Tidy)
    (hsome : locs ≠ [])
    (hnodup : locs.Nodup) :
    Tidy (OrderedMap.insert site locs m) := by
  have hsites : ((OrderedMap.insert site locs m).map Prod.fst).Nodup :=
    OrderedMap.nodup_keys_insert h.nodup_sites
  have hentry : ∀ other locs', (other, locs') ∈ OrderedMap.insert site locs m →
      locs' = locs ∨ (other, locs') ∈ m := by
    intro other locs' hmem
    rw [OrderedMap.mem_iff_lookup_eq_some hsites, OrderedMap.lookup_insert] at hmem
    split at hmem
    · exact .inl (Option.some.inj hmem).symm
    · exact .inr ((OrderedMap.mem_iff_lookup_eq_some h.nodup_sites).mpr hmem)
  refine ⟨hsites, fun other locs' hmem => ?_, fun other locs' hmem => ?_⟩
  · rcases hentry other locs' hmem with rfl | hmem
    · exact hsome
    · exact h.nonempty other locs' hmem
  · rcases hentry other locs' hmem with rfl | hmem
    · exact hnodup
    · exact h.nodup other locs' hmem

theorem erase
    (h : m.Tidy)
    (site : DefSite) :
    Tidy (OrderedMap.erase site m) where
  nodup_sites := h.nodup_sites.sublist (List.filter_sublist.map _)
  nonempty other locs hmem := h.nonempty other locs (List.mem_filter.mp hmem).1
  nodup other locs hmem := h.nodup other locs (List.mem_filter.mp hmem).1

theorem add
    (h : m.Tidy)
    (site : DefSite)
    (loc : Loc) :
    (m.add site loc).Tidy := by
  refine h.insert (List.ne_nil_of_mem (a := loc) ?_) (OrderedSet.nodup_insert (h.nodup_linked site))
  exact OrderedSet.mem_insert.mpr (.inr rfl)

theorem push
    (h : m.Tidy)
    (hnew : loc ∉ m.linked site) :
    (m.push site loc).Tidy := by
  refine h.insert (by simp) ?_
  rw [← OrderedSet.insert_of_not_mem hnew]
  exact OrderedSet.nodup_insert (h.nodup_linked site)

theorem drop
    (h : m.Tidy)
    (site : DefSite)
    (loc : Loc) :
    (m.drop site loc).Tidy := by
  unfold LinkMap.drop
  cases hsite : m.lookup site with
  | none => exact h
  | some locs =>
      have hnodup : (OrderedSet.erase locs loc).Nodup := by
        have hlinked : m.linked site = locs := by simp [linked, hsite]
        exact OrderedSet.nodup_erase (hlinked ▸ h.nodup_linked site)
      cases hrest : OrderedSet.erase locs loc with
      | nil => simpa [hrest] using h.erase site
      | cons first rest =>
          rw [hrest] at hnodup
          simpa [hrest] using h.insert (List.cons_ne_nil first rest) hnodup

end Tidy
end LinkMap

namespace Chains

open LinkMap (linked linked_insert linked_erase)

variable {c c' : Chains} {v old new : VarId} {d u : Loc}

/-- The links of a use are gone, and all others are as before. -/
structure Forgets (c c' : Chains) (v : VarId) (use : Loc) : Prop where
  defs_use : c'.defs v use = []
  defs_eq : ∀ w x, (w, x) ≠ (v, use) → c'.defs w x = c.defs w x
  uses_eq : ∀ w d, c'.uses w d = if w = v then OrderedSet.erase (c.uses w d) use else c.uses w d

/-- The links of a definition have become links of another variable, and all others are as before.
-/
structure Renames (c c' : Chains) (old : VarId) (d : Loc) (new : VarId) : Prop where
  uses_old : c'.uses old d = []
  uses_new : c'.uses new d = c.uses old d
  uses_eq : ∀ w e, (w, e) ≠ (old, d) → (w, e) ≠ (new, d) → c'.uses w e = c.uses w e
  defs_old : ∀ x, c'.defs old x = OrderedSet.erase (c.defs old x) d
  defs_new : ∀ x, c'.defs new x = if x ∈ c.uses old d then c.defs new x ++ [d] else c.defs new x
  defs_eq : ∀ w x, w ≠ old → w ≠ new → c'.defs w x = c.defs w x

/-- Chains that are made out of none by any sequence of changes.  A definition may be renamed to
another variable that has no uses there yet. -/
inductive Maintained : Chains → Prop
  | empty :
      Maintained empty
  | link {c : Chains} (v : VarId) (d u : Loc)
      (h : Maintained c) :
      Maintained (c.link v d u)
  | unlink {c : Chains} (v : VarId) (d u : Loc)
      (h : Maintained c) :
      Maintained (c.unlink v d u)
  | forgetUse {c : Chains} (v : VarId) (u : Loc)
      (h : Maintained c) :
      Maintained (c.forgetUse v u)
  | reassign {c : Chains} (old : VarId) (d : Loc) (new : VarId)
      (h : Maintained c)
      (hother : new ≠ old)
      (hfresh : c.uses new d = []) :
      Maintained (c.reassign old d new)

/-- The two maps are mirror images, and both of them are tidy. -/
structure Kept (c : Chains) : Prop where
  mutually : c.Mutual
  defs_tidy : c.defsAt.Tidy
  uses_tidy : c.usesAt.Tidy

section Forgetting

theorem defs_unlink
    (w : VarId)
    (x : Loc) :
    (c.unlink v d u).defs w x =
      if (w, x) = (v, u) then OrderedSet.erase (c.defs v u) d else c.defs w x :=
  LinkMap.linked_drop

theorem uses_unlink
    (w : VarId)
    (e : Loc) :
    (c.unlink v d u).uses w e =
      if (w, e) = (v, d) then OrderedSet.erase (c.uses v d) u else c.uses w e :=
  LinkMap.linked_drop

/-- Only the site of the use and the definitions that are unlinked lose something. -/
theorem foldl_unlink
    (ds : List Loc) :
    (∀ w x, (w, x) ≠ (v, u) →
        (ds.foldl (fun c d => c.unlink v d u) c).defs w x = c.defs w x) ∧
      ∀ w e, (ds.foldl (fun c d => c.unlink v d u) c).uses w e =
        if w = v ∧ e ∈ ds then OrderedSet.erase (c.uses w e) u else c.uses w e := by
  induction ds generalizing c with
  | nil => simp
  | cons d ds ih =>
      obtain ⟨hdefs, huses⟩ := ih (c := c.unlink v d u)
      refine ⟨fun w x hne => ?_, fun w e => ?_⟩
      · rw [List.foldl_cons, hdefs w x hne, defs_unlink, if_neg hne]
      · rw [List.foldl_cons, huses w e, uses_unlink]
        have htwice : ∀ xs : List Loc,
            OrderedSet.erase (OrderedSet.erase xs u) u = OrderedSet.erase xs u := fun xs =>
          OrderedSet.erase_of_not_mem (by simp)
        grind

theorem forgets_forgetUse
    (hc : c.Mutual)
    (v : VarId)
    (u : Loc) :
    Forgets c (c.forgetUse v u) v u where
  defs_use := by
    refine List.eq_nil_iff_forall_not_mem.mpr fun e he => ?_
    exact (mem_defs_forgetUse.mp he).2 ⟨rfl, rfl⟩
  defs_eq := (foldl_unlink _).1
  uses_eq w d := by
    rw [Chains.forgetUse, (foldl_unlink _).2]
    by_cases hv : w = v
    · subst hv
      by_cases hd : d ∈ c.defs w u
      · simp [hd]
      · have hu : u ∉ c.uses w d := fun hu => hd ((hc w d u).mp hu)
        simp [hd, OrderedSet.erase_of_not_mem hu]
    · simp [hv]

end Forgetting

section Renaming

theorem linked_reassignAt
    (hne : new ≠ old)
    (m : LinkMap)
    (w : VarId)
    (x : Loc) :
    (reassignAt old new d m u).linked (w, x) =
      if (w, x) = (old, u) then OrderedSet.erase (m.linked (old, u)) d
      else if (w, x) = (new, u) then m.linked (new, u) ++ [d]
      else m.linked (w, x) := by
  simp only [reassignAt, LinkMap.linked_push, LinkMap.linked_drop, Prod.mk.injEq]
  grind

/-- At each use, the definition moves from one variable to the other. -/
theorem linked_foldl_reassignAt
    (hne : new ≠ old)
    {us : List Loc}
    (hus : us.Nodup)
    (m : LinkMap)
    (w : VarId)
    (x : Loc) :
    (us.foldl (reassignAt old new d) m).linked (w, x) =
      if w = old ∧ x ∈ us then OrderedSet.erase (m.linked (old, x)) d
      else if w = new ∧ x ∈ us then m.linked (new, x) ++ [d]
      else m.linked (w, x) := by
  induction us generalizing m with
  | nil => simp
  | cons u us ih =>
      obtain ⟨hu, hus⟩ := List.nodup_cons.mp hus
      rw [List.foldl_cons, ih hus]
      simp only [linked_reassignAt hne, Prod.mk.injEq, List.mem_cons]
      grind

theorem tidy_foldl_reassignAt
    (hne : new ≠ old)
    {us : List Loc}
    (hus : us.Nodup)
    {m : LinkMap}
    (hm : m.Tidy)
    (hnew : ∀ x, x ∈ us → d ∉ m.linked (new, x)) :
    (us.foldl (reassignAt old new d) m).Tidy := by
  induction us generalizing m with
  | nil => exact hm
  | cons u us ih =>
      obtain ⟨hu, hus⟩ := List.nodup_cons.mp hus
      obtain ⟨hfirst, hnew⟩ := List.forall_mem_cons.mp hnew
      refine ih hus ((hm.drop _ _).push ?_) fun x hx => ?_
      · rw [LinkMap.linked_drop, if_neg (by simp [hne])]
        exact hfirst
      · have hxu : x ≠ u := fun heq => hu (heq ▸ hx)
        rw [linked_reassignAt hne, if_neg (by simp [hxu]), if_neg (by simp [hxu])]
        exact hnew x hx

/-- Each use of the definition leaves one variable for the other. -/
theorem defs_reassign
    (hne : new ≠ old)
    (hnodup : (c.uses old d).Nodup)
    (w : VarId)
    (x : Loc) :
    (c.reassign old d new).defs w x =
      if w = old ∧ x ∈ c.uses old d then OrderedSet.erase (c.defs old x) d
      else if w = new ∧ x ∈ c.uses old d then c.defs new x ++ [d]
      else c.defs w x := by
  unfold reassign
  cases hlookup : c.usesAt.lookup (old, d) with
  | none => simp [uses, linked, hlookup]
  | some us =>
      obtain rfl : c.uses old d = us := by simp [uses, linked, hlookup]
      exact linked_foldl_reassignAt hne hnodup c.defsAt w x

theorem uses_reassign
    (old : VarId)
    (hfresh : c.uses new d = [])
    (w : VarId)
    (e : Loc) :
    (c.reassign old d new).uses w e =
      if (w, e) = (new, d) then c.uses old d
      else if (w, e) = (old, d) then []
      else c.uses w e := by
  unfold reassign
  cases hlookup : c.usesAt.lookup (old, d) with
  | none =>
      have hnone : c.uses old d = [] := by simp [uses, linked, hlookup]
      grind
  | some us =>
      obtain rfl : c.uses old d = us := by simp [uses, linked, hlookup]
      simp only [uses, linked_insert, linked_erase]

theorem renames_reassign
    (h : c.Kept)
    (hne : new ≠ old)
    (hfresh : c.uses new d = []) :
    Renames c (c.reassign old d new) old d new := by
  have hdefs := defs_reassign (d := d) hne (h.uses_tidy.nodup_linked (old, d))
  have huses := uses_reassign old hfresh
  exact
    { uses_old := by simp [huses, hne.symm]
      uses_new := by simp [huses]
      uses_eq := fun w e hold hnew => by rw [huses, if_neg hnew, if_neg hold]
      defs_old := fun x => by
        rw [hdefs]
        by_cases hx : x ∈ c.uses old d
        · simp [hx]
        · have hnot : d ∉ c.defs old x := fun hd => hx ((h.mutually old d x).mpr hd)
          simp [hx, hne.symm, OrderedSet.erase_of_not_mem hnot]
      defs_new := fun x => by simp [hdefs, hne]
      defs_eq := fun w x hold hnew => by simp [hdefs, hold, hnew] }

end Renaming

namespace Kept

theorem empty :
    Chains.empty.Kept where
  mutually := by simp [Mutual]
  defs_tidy := LinkMap.tidy_nil
  uses_tidy := LinkMap.tidy_nil

theorem link
    (h : c.Kept)
    (v : VarId)
    (d u : Loc) :
    (c.link v d u).Kept where
  mutually := mutual_of_adds (adds_link v d u) h.mutually
  defs_tidy := h.defs_tidy.add _ _
  uses_tidy := h.uses_tidy.add _ _

theorem unlink
    (h : c.Kept)
    (v : VarId)
    (d u : Loc) :
    (c.unlink v d u).Kept where
  mutually w e x := by
    rw [mem_defs_unlink, mem_uses_unlink, h.mutually w e x]
  defs_tidy := h.defs_tidy.drop _ _
  uses_tidy := h.uses_tidy.drop _ _

theorem forgetUse
    (h : c.Kept)
    (v : VarId)
    (u : Loc) :
    (c.forgetUse v u).Kept :=
  List.foldlRecOn _ _ h fun _ h d _ => h.unlink v d u

/-- No definition is put behind the others of a use twice, because the other variable has none of
its uses yet. -/
theorem reassign
    (h : c.Kept)
    (hne : new ≠ old)
    (hfresh : c.uses new d = []) :
    (c.reassign old d new).Kept where
  mutually w e x := by
    rw [(mem_reassign h.mutually hne.symm hfresh).1, (mem_reassign h.mutually hne.symm hfresh).2]
  defs_tidy := by
    unfold Chains.reassign
    cases hlookup : c.usesAt.lookup (old, d) with
    | none => exact h.defs_tidy
    | some us =>
        obtain rfl : c.uses old d = us := by simp [uses, linked, hlookup]
        refine tidy_foldl_reassignAt hne (h.uses_tidy.nodup_linked _) h.defs_tidy fun x _ hd => ?_
        have hx : x ∈ c.uses new d := (h.mutually new d x).mpr hd
        rw [hfresh] at hx
        cases hx
  uses_tidy := by
    unfold Chains.reassign
    cases hlookup : c.usesAt.lookup (old, d) with
    | none => exact h.uses_tidy
    | some us =>
        have hmem := (OrderedMap.mem_iff_lookup_eq_some h.uses_tidy.nodup_sites).mpr hlookup
        exact (h.uses_tidy.erase _).insert (h.uses_tidy.nonempty _ _ hmem)
          (h.uses_tidy.nodup _ _ hmem)

end Kept

/-- Every change keeps the maps mirror images. -/
theorem Maintained.kept
    (h : Maintained c) :
    c.Kept := by
  induction h with
  | empty => exact .empty
  | link v d u _ ih => exact ih.link v d u
  | unlink v d u _ ih => exact ih.unlink v d u
  | forgetUse v u _ ih => exact ih.forgetUse v u
  | reassign old d new _ hother hfresh ih => exact ih.reassign hother hfresh

/-- **Upkeep of chains.**  After any changes a use is linked with a definition exactly if the
definition is linked with the use, each site that is listed has some places and each of them once.
Forgetting a use gives the definitions that it was linked with and takes no other link away, and
renaming a definition moves its links and no others. -/
theorem maintained_exact
    (h : Maintained c) :
    (∀ v d u, u ∈ c.uses v d ↔ d ∈ c.defs v u) ∧
      (c.defsAt.Tidy ∧ c.usesAt.Tidy) ∧
      (∀ v u, (∀ d, d ∈ (c.takeUse v u).1 ↔ u ∈ c.uses v d) ∧
        Forgets c (c.takeUse v u).2 v u) ∧
      ∀ old d new, new ≠ old → c.uses new d = [] → Renames c (c.reassign old d new) old d new := by
  have hkept := h.kept
  refine ⟨hkept.mutually, ⟨hkept.defs_tidy, hkept.uses_tidy⟩, fun v u => ⟨fun d => ?_, ?_⟩,
    fun old d new hother hfresh => renames_reassign hkept hother hfresh⟩
  · exact (hkept.mutually v d u).symm
  · exact forgets_forgetUse hkept.mutually v u

/-- A use that two definitions may supply, one of which has another use. -/
def sharedUse : Chains :=
  ((empty.link 0 0 3).link 0 1 3).link 0 0 4

theorem maintained_sharedUse :
    Maintained sharedUse :=
  ((Maintained.empty.link 0 0 3).link 0 1 3).link 0 0 4

/-- One of the two definitions gets another variable, and the use is forgotten. -/
theorem maintained_exact_sharedUse :
    Maintained sharedUse ∧ sharedUse.uses 1 0 = [] ∧
      Renames sharedUse (sharedUse.reassign 0 0 1) 0 0 1 ∧
      (sharedUse.takeUse 0 3).1 = [0, 1] ∧ Forgets sharedUse (sharedUse.takeUse 0 3).2 0 3 := by
  obtain ⟨-, -, hforgets, hrenames⟩ := maintained_exact maintained_sharedUse
  exact ⟨maintained_sharedUse, by decide, hrenames 0 0 1 (by decide) (by decide), by decide,
    (hforgets 0 3).2⟩

end Chains
end DalvikDecompiler
