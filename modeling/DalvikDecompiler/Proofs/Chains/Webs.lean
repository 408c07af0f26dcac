import DalvikDecompiler.Chains.Web
import DalvikDecompiler.Proofs.Chains.Links
import Mathlib

/-!
# Webs are closed

**Input.** Chains that keep every link at both of their ends.

A web grows by the uses of its definitions and by the definitions of its uses.
Each definition is followed once, so that the number of links bounds the number
of steps, and in the end a link has both ends in the web or none.  Every definition
that is met shares a use with one that has been met before.

**Results.**
* `ofDef_component`: a web is closed under links, and its definitions are
  connected.
* `all_separated`: the webs of a variable have no definition in common, and each
  used definition of a register is in one of them.
-/

namespace DalvikDecompiler
namespace Web

open Symbolic (VarId Variables)

/-- Definitions of a variable and their uses that no link leads out of. -/
structure IsWeb (c : Chains) (v : VarId) (web : Web) : Prop where
  nodup : web.defs.Nodup
  closed : ∀ d u, d ∈ c.defs v u → (d ∈ web.defs ↔ u ∈ web.uses)
  linked : ∀ d, d ∈ web.defs → ∃ u, d ∈ c.defs v u

/-- Definitions that are connected by uses which two of them supply. -/
def Connected (links : Loc → Loc → Prop) : Loc → Loc → Prop :=
  Relation.ReflTransGen fun d e => ∃ u, links d u ∧ links e u

theorem Connected.symm
    {links : Loc → Loc → Prop}
    {d e : Loc}
    (h : Connected links d e) :
    Connected links e d := by
  have hsymm : Std.Symm fun d e => ∃ u, links d u ∧ links e u :=
    ⟨fun _ _ ⟨u, hd, he⟩ => ⟨u, he, hd⟩⟩
  exact Relation.ReflTransGen.stdSymm.symm _ _ h

/-- What holds at one end of links exactly if it does at the other does not change along a
connection. -/
theorem Connected.iff
    {links : Loc → Loc → Prop}
    {P Q : Loc → Prop}
    {d e : Loc}
    (h : Connected links d e)
    (hPQ : ∀ d u, links d u → (P d ↔ Q u)) :
    P d ↔ P e := by
  induction h with
  | refl => exact Iff.rfl
  | tail _ hshared ih =>
      obtain ⟨u, hd, he⟩ := hshared
      exact ih.trans ((hPQ _ u hd).trans (hPQ _ u he).symm)

/-- A web that is connected. -/
structure Component (c : Chains) (v : VarId) (web : Web) : Prop extends IsWeb c v web where
  connected : ∀ d e, d ∈ web.defs → e ∈ web.defs → Connected (fun d u => d ∈ c.defs v u) d e
  supplied : ∀ u, u ∈ web.uses → ∃ d, d ∈ c.defs v u

/-- What holds of a web while it grows from a definition and `steps` of its definitions have been
followed; the uses of busy definitions are just being added. -/
structure Grown (c : Chains) (v : VarId) (first : Loc) (busy : Loc → Prop) (steps : Nat)
    (s : Growth) : Prop where
  nodup : s.web.defs.Nodup
  linked : ∀ d, d ∈ s.web.defs → ∃ u, d ∈ c.defs v u
  uses_closed : ∀ u, u ∈ s.web.uses → ∀ d, d ∈ c.defs v u → d ∈ s.web.defs
  defs_closed : ∀ d, d ∈ s.web.defs →
    d ∈ s.pending ∨ busy d ∨ ∀ u, u ∈ c.uses v d → u ∈ s.web.uses
  pending_sub : ∀ d, d ∈ s.pending → d ∈ s.web.defs
  length_eq : s.web.defs.length = steps + s.pending.length
  first_mem : first ∈ s.web.defs
  supplied : ∀ u, u ∈ s.web.uses → ∃ d, d ∈ c.defs v u
  connected : ∀ d, d ∈ s.web.defs → Connected (fun d u => d ∈ c.defs v u) first d

variable {c : Chains} {v : VarId} {first : Loc} {busy : Loc → Prop} {steps : Nat} {s : Growth}

section AddDef

variable {d : Loc} {ds : List Loc}

theorem uses_foldl_addDef
    (ds : List Loc)
    (s : Growth) :
    (ds.foldl Growth.addDef s).web.uses = s.web.uses := by
  induction ds generalizing s with
  | nil => rfl
  | cons e ds ih =>
      rw [List.foldl_cons, ih]
      unfold Growth.addDef
      split <;> rfl

theorem mem_defs_foldl_addDef :
    d ∈ (ds.foldl Growth.addDef s).web.defs ↔ d ∈ s.web.defs ∨ d ∈ ds := by
  induction ds generalizing s with
  | nil => simp
  | cons e ds ih =>
      rw [List.foldl_cons, ih]
      unfold Growth.addDef
      split
      · rename_i h
        have he : e ∈ s.web.defs := List.contains_iff_mem.mp h
        constructor
        · rintro (h | h)
          · exact Or.inl h
          · exact Or.inr (List.mem_cons_of_mem _ h)
        · rintro (h | h)
          · exact Or.inl h
          · rcases List.mem_cons.mp h with rfl | h
            · exact Or.inl he
            · exact Or.inr h
      · simp [or_assoc]

/-- New definitions are still to be followed. -/
theorem mem_pending_foldl_addDef :
    d ∈ (ds.foldl Growth.addDef s).pending ↔ d ∈ s.pending ∨ (d ∈ ds ∧ d ∉ s.web.defs) := by
  induction ds generalizing s with
  | nil => simp
  | cons e ds ih =>
      rw [List.foldl_cons, ih]
      unfold Growth.addDef
      split
      · rename_i h
        have he : e ∈ s.web.defs := List.contains_iff_mem.mp h
        refine or_congr_right ⟨fun hd => ⟨List.mem_cons_of_mem _ hd.1, hd.2⟩, ?_⟩
        rintro ⟨hd, hnot⟩
        rcases List.mem_cons.mp hd with rfl | hd
        · exact absurd he hnot
        · exact ⟨hd, hnot⟩
      · rename_i h
        have he : e ∉ s.web.defs := fun hmem => h (List.contains_iff_mem.mpr hmem)
        simp only [List.mem_cons, List.mem_append, List.not_mem_nil, or_false, not_or]
        constructor
        · rintro ((rfl | hd) | ⟨hd, hnot, -⟩)
          · exact Or.inr ⟨Or.inl rfl, he⟩
          · exact Or.inl hd
          · exact Or.inr ⟨Or.inr hd, hnot⟩
        · rintro (hd | ⟨rfl | hd, hnot⟩)
          · exact Or.inl (Or.inr hd)
          · exact Or.inl (Or.inl rfl)
          · by_cases hde : d = e
            · exact Or.inl (Or.inl hde)
            · exact Or.inr ⟨hd, hnot, hde⟩

theorem foldl_addDef_length
    (ds : List Loc)
    (s : Growth)
    (hnodup : s.web.defs.Nodup) :
    (ds.foldl Growth.addDef s).web.defs.Nodup ∧
      (ds.foldl Growth.addDef s).web.defs.length + s.pending.length =
        s.web.defs.length + (ds.foldl Growth.addDef s).pending.length := by
  induction ds generalizing s with
  | nil => exact ⟨hnodup, rfl⟩
  | cons e ds ih =>
      rw [List.foldl_cons]
      by_cases he : s.web.defs.contains e = true
      · have hsame : s.addDef e = s := if_pos he
        rw [hsame]
        exact ih s hnodup
      · have hnext : s.addDef e =
            { web := { s.web with defs := s.web.defs ++ [e] }, pending := e :: s.pending } :=
          if_neg he
        have hmem : e ∉ s.web.defs := fun h => he (List.contains_iff_mem.mpr h)
        have hnodup' : (s.web.defs ++ [e]).Nodup := by
          refine List.nodup_append.mpr ⟨hnodup, by simp, ?_⟩
          intro a ha b hb heq
          rw [List.mem_singleton.mp hb] at heq
          exact hmem (heq ▸ ha)
        obtain ⟨hnodup'', hlength⟩ := ih (s.addDef e) (by rw [hnext]; exact hnodup')
        have hdefs : (s.addDef e).web.defs.length = s.web.defs.length + 1 := by simp [hnext]
        have hpending : (s.addDef e).pending.length = s.pending.length + 1 := by simp [hnext]
        refine ⟨hnodup'', ?_⟩
        omega

end AddDef

/-- A use is taken in with its definitions. -/
theorem Grown.addUse
    {u : Loc}
    (h : Grown c v first busy steps s)
    (hu : ∃ d, d ∈ s.web.defs ∧ d ∈ c.defs v u) :
    Grown c v first busy steps (Growth.addUse c v s u) ∧
      u ∈ (Growth.addUse c v s u).web.uses ∧
      (∀ x, x ∈ s.web.uses → x ∈ (Growth.addUse c v s u).web.uses) ∧
      ∀ d, d ∈ s.web.defs → d ∈ (Growth.addUse c v s u).web.defs := by
  by_cases hmem : s.web.uses.contains u = true
  · have hsame : Growth.addUse c v s u = s := if_pos hmem
    rw [hsame]
    exact ⟨h, List.contains_iff_mem.mp hmem, fun _ hx => hx, fun _ hd => hd⟩
  · have hnext : Growth.addUse c v s u =
        (c.defs v u).foldl Growth.addDef
          { s with web := { s.web with uses := s.web.uses ++ [u] } } := if_neg hmem
    have huses : (Growth.addUse c v s u).web.uses = s.web.uses ++ [u] := by
      rw [hnext, uses_foldl_addDef]
    have hdefs : ∀ d, d ∈ (Growth.addUse c v s u).web.defs ↔ d ∈ s.web.defs ∨ d ∈ c.defs v u := by
      intro d
      rw [hnext, mem_defs_foldl_addDef]
    have hpending : ∀ d, d ∈ (Growth.addUse c v s u).pending ↔
        d ∈ s.pending ∨ (d ∈ c.defs v u ∧ d ∉ s.web.defs) := by
      intro d
      rw [hnext, mem_pending_foldl_addDef]
    obtain ⟨hnodup, hlength⟩ := foldl_addDef_length (c.defs v u)
      { s with web := { s.web with uses := s.web.uses ++ [u] } } h.nodup
    rw [← hnext] at hnodup hlength
    have hstart := h.length_eq
    refine ⟨⟨hnodup, ?_, ?_, ?_, ?_, ?_, (hdefs first).mpr (Or.inl h.first_mem), ?_, ?_⟩,
      by simp [huses], fun x hx => by simp [huses, hx], fun d hd => (hdefs d).mpr (Or.inl hd)⟩
    · intro d hd
      rcases (hdefs d).mp hd with hd | hd
      · exact h.linked d hd
      · exact ⟨u, hd⟩
    · intro x hx d hd
      rw [huses, List.mem_append, List.mem_singleton] at hx
      rcases hx with hx | rfl
      · exact (hdefs d).mpr (Or.inl (h.uses_closed x hx d hd))
      · exact (hdefs d).mpr (Or.inr hd)
    · intro d hd
      by_cases hold : d ∈ s.web.defs
      · rcases h.defs_closed d hold with hp | hb | hall
        · exact Or.inl ((hpending d).mpr (Or.inl hp))
        · exact Or.inr (Or.inl hb)
        · refine Or.inr (Or.inr fun x hx => ?_)
          rw [huses]
          exact List.mem_append_left _ (hall x hx)
      · exact Or.inl ((hpending d).mpr (Or.inr ⟨((hdefs d).mp hd).resolve_left hold, hold⟩))
    · intro d hd
      rcases (hpending d).mp hd with hd | hd
      · exact (hdefs d).mpr (Or.inl (h.pending_sub d hd))
      · exact (hdefs d).mpr (Or.inr hd.1)
    · have hlength : (Growth.addUse c v s u).web.defs.length + s.pending.length =
          s.web.defs.length + (Growth.addUse c v s u).pending.length := hlength
      omega
    · intro x hx
      rw [huses, List.mem_append, List.mem_singleton] at hx
      rcases hx with hx | rfl
      · exact h.supplied x hx
      · exact hu.imp fun d hd => hd.2
    · intro d hd
      rcases (hdefs d).mp hd with hd | hd
      · exact h.connected d hd
      · obtain ⟨e, he, hlink⟩ := hu
        exact (h.connected e he).tail ⟨u, hlink, hd⟩

theorem Grown.foldl_addUse
    {us : List Loc}
    (h : Grown c v first busy steps s)
    (hus : ∀ u, u ∈ us → ∃ d, d ∈ s.web.defs ∧ d ∈ c.defs v u) :
    Grown c v first busy steps (us.foldl (Growth.addUse c v) s) ∧
      (∀ u, u ∈ us ∨ u ∈ s.web.uses → u ∈ (us.foldl (Growth.addUse c v) s).web.uses) := by
  induction us generalizing s with
  | nil => exact ⟨h, fun u hu => hu.resolve_left (by simp)⟩
  | cons u us ih =>
      obtain ⟨h', hu, hold, hdefs⟩ := h.addUse (hus u (by simp))
      obtain ⟨h'', hall⟩ := ih h' fun x hx => by
        obtain ⟨d, hd, hlink⟩ := hus x (by simp [hx])
        exact ⟨d, hdefs d hd, hlink⟩
      refine ⟨h'', fun x hx => hall x ?_⟩
      rcases hx with hx | hx
      · rcases List.mem_cons.mp hx with rfl | hx
        · exact Or.inr hu
        · exact Or.inl hx
      · exact Or.inr (hold x hx)

/-- A definition that is followed has all its uses in the web. -/
theorem Grown.follow
    {d : Loc}
    {pending : List Loc}
    (hc : c.Mutual)
    (h : Grown c v first (fun _ => False) steps s)
    (hpending : s.pending = d :: pending) :
    Grown c v first (fun _ => False) (steps + 1)
      ((c.uses v d).foldl (Growth.addUse c v) { s with pending }) := by
  have hd : d ∈ s.web.defs := h.pending_sub d (by simp [hpending])
  have hpopped : Grown c v first (fun e => e = d) (steps + 1) { s with pending } := by
    refine ⟨h.nodup, h.linked, h.uses_closed, ?_, ?_, ?_, h.first_mem, h.supplied,
      h.connected⟩
    · intro e he
      rcases h.defs_closed e he with hp | hfalse | hall
      · rw [hpending] at hp
        rcases List.mem_cons.mp hp with rfl | hp
        · exact Or.inr (Or.inl rfl)
        · exact Or.inl hp
      · exact hfalse.elim
      · exact Or.inr (Or.inr hall)
    · exact fun e he => h.pending_sub e (by rw [hpending]; exact List.mem_cons_of_mem _ he)
    · have hlength := h.length_eq
      rw [hpending, List.length_cons] at hlength
      change s.web.defs.length = steps + 1 + pending.length
      omega
  obtain ⟨h', hall⟩ := hpopped.foldl_addUse fun u hu => ⟨d, hd, (hc v d u).mp hu⟩
  refine ⟨h'.nodup, h'.linked, h'.uses_closed, ?_, h'.pending_sub, h'.length_eq, h'.first_mem,
    h'.supplied, h'.connected⟩
  intro e he
  rcases h'.defs_closed e he with hp | rfl | huses
  · exact Or.inl hp
  · exact Or.inr (Or.inr fun u hu => hall u (Or.inl hu))
  · exact Or.inr (Or.inr huses)

/-- The number of links bounds the number of definitions that are linked. -/
theorem length_le_total
    {ds : List Loc}
    (hnodup : ds.Nodup)
    (hlinked : ∀ d, d ∈ ds → ∃ u, d ∈ c.defs v u) :
    ds.length ≤ Natural.total (c.defsAt.map fun entry => entry.2.length) := by
  have hsub : ds ⊆ c.defsAt.flatMap Prod.snd := by
    intro d hd
    obtain ⟨u, hu⟩ := hlinked d hd
    obtain ⟨locs, hentry, hloc⟩ := LinkMap.exists_of_mem_linked hu
    exact List.mem_flatMap.mpr ⟨_, hentry, hloc⟩
  have htotal : ∀ m : LinkMap, (m.flatMap Prod.snd).length =
      Natural.total (m.map fun entry => entry.2.length) := by
    intro m
    induction m with
    | nil => rfl
    | cons entry m ih => simp [Natural.total, ih]
  rw [← htotal]
  exact (hnodup.subperm hsub).length_le

/-- With enough steps, a web grows until nothing is left to follow. -/
theorem Grown.grow
    (hc : c.Mutual)
    {bound : Nat}
    (h : Grown c v first (fun _ => False) steps s)
    (hbound : Natural.total (c.defsAt.map fun entry => entry.2.length) < bound + steps) :
    ∃ s' steps', Web.grow c v bound s = s'.web ∧ s'.pending = [] ∧
      Grown c v first (fun _ => False) steps' s' := by
  induction bound generalizing s steps with
  | zero =>
      have hle := length_le_total h.nodup h.linked
      have hlength := h.length_eq
      omega
  | succ bound ih =>
      unfold Web.grow
      cases hpending : s.pending with
      | nil => exact ⟨s, steps, rfl, hpending, h⟩
      | cons d pending => exact ih (h.follow hc hpending) (by omega)

theorem Grown.component
    (hc : c.Mutual)
    (h : Grown c v first (fun _ => False) steps s)
    (hpending : s.pending = []) :
    Component c v s.web := by
  refine ⟨⟨h.nodup, fun d u hlink => ⟨fun hd => ?_, fun hu => h.uses_closed u hu d hlink⟩,
    h.linked⟩, fun d e hd he => (h.connected d hd).symm.trans (h.connected e he), h.supplied⟩
  rcases h.defs_closed d hd with hp | hfalse | hall
  · rw [hpending] at hp
    cases hp
  · exact hfalse.elim
  · exact hall u ((hc v d u).mpr hlink)

/-- The web of a linked definition is closed and connected. -/
theorem ofDef_component
    {d : Loc}
    (hc : c.Mutual)
    (hd : ∃ u, d ∈ c.defs v u) :
    Component c v (ofDef c v d) ∧ d ∈ (ofDef c v d).defs := by
  have hstart : Grown c v d (fun _ => False) 0
      { web := { defs := [d], uses := [] }, pending := [d] } := by
    refine ⟨by simp, ?_, by simp, ?_, by simp, by simp, by simp, by simp, ?_⟩
    · intro e he
      rwa [List.mem_singleton.mp he]
    · exact fun e he => Or.inl he
    · intro e he
      rw [List.mem_singleton.mp he]
      exact .refl
  have hbound : Natural.total (c.defsAt.map fun entry => entry.2.length) <
      Natural.total (c.defsAt.map fun entry => entry.2.length) + 2 + 0 := by omega
  obtain ⟨s, steps, heq, hpending, hgrown⟩ := hstart.grow hc hbound
  have hweb : ofDef c v d = s.web := heq
  rw [hweb]
  exact ⟨hgrown.component hc hpending, hgrown.first_mem⟩

/-- A web without a definition has none that is connected with it. -/
theorem Component.apart
    {web web' : Web}
    (h : Component c v web)
    (h' : IsWeb c v web')
    {d : Loc}
    (hd : d ∈ web.defs)
    (hnot : d ∉ web'.defs) :
    ∀ e, e ∈ web.defs → e ∉ web'.defs := fun e he he' =>
  hnot (((h.connected d e hd he).iff h'.closed).mpr he')

/-- The webs of each variable are those of a register, connected, and have no definition in
common. -/
structure Separated (c : Chains) (vars : Variables) (found : List (VarId × List Web)) : Prop where
  nodup : (found.map Prod.fst).Nodup
  register : ∀ entry, entry ∈ found → (vars.get? entry.1).any Symbolic.Variable.isRegister = true
  used : ∀ entry, entry ∈ found → ∃ d u, d ∈ c.defs entry.1 u
  component : ∀ entry, entry ∈ found → ∀ web, web ∈ entry.2 → Component c entry.1 web
  apart : ∀ entry, entry ∈ found →
    entry.2.Pairwise fun web web' => ∀ d, d ∈ web.defs → d ∉ web'.defs

/-- A definition of a variable is in one of its webs. -/
def Covers (found : List (VarId × List Web)) (site : DefSite) : Prop :=
  ∃ webs, (site.1, webs) ∈ found ∧ ∃ web, web ∈ webs ∧ site.2 ∈ web.defs

section Collect

variable {vars : Variables} {found : List (VarId × List Web)} {site : DefSite}

/-- What stands in a list of webs to which one has been added. -/
theorem Separated.mem_insert_iff
    (h : Separated c vars found)
    (v : VarId)
    (webs : List Web)
    (entry : VarId × List Web) :
    ((OrderedMap.insert v webs found).map Prod.fst).Nodup ∧
      (entry ∈ OrderedMap.insert v webs found ↔
        entry = (v, webs) ∨ entry.1 ≠ v ∧ entry ∈ found) := by
  have hkeys : ((OrderedMap.insert v webs found).map Prod.fst).Nodup := by
    rw [OrderedMap.keys_insert]
    exact OrderedSet.nodup_insert h.nodup
  obtain ⟨w, webs'⟩ := entry
  refine ⟨hkeys, ?_⟩
  rw [OrderedMap.mem_iff_lookup_eq_some hkeys, OrderedMap.lookup_insert,
    OrderedMap.mem_iff_lookup_eq_some h.nodup]
  by_cases hw : w = v
  · simp [hw, eq_comm]
  · simp [hw]

/-- The webs of a variable that have been found. -/
theorem Separated.webs
    (h : Separated c vars found)
    (v : VarId) :
    (∀ web, web ∈ (found.lookup v).getD [] → Component c v web) ∧
      ((found.lookup v).getD []).Pairwise fun web web' => ∀ d, d ∈ web.defs → d ∉ web'.defs := by
  cases hlookup : found.lookup v with
  | none => simp
  | some webs =>
      have hentry := (OrderedMap.mem_iff_lookup_eq_some h.nodup).mpr hlookup
      exact ⟨h.component (v, webs) hentry, h.apart (v, webs) hentry⟩

theorem Separated.collect
    (hc : c.Mutual)
    (h : Separated c vars found)
    (hsite : ∃ u, site.2 ∈ c.defs site.1 u) :
    Separated c vars (Web.collect c vars found site) := by
  obtain ⟨v, d⟩ := site
  unfold Web.collect
  simp only []
  split
  · rename_i hregister
    split
    · exact h
    · rename_i hnot
      obtain ⟨hwebs, hpairwise⟩ := h.webs v
      obtain ⟨hweb, hmem⟩ := ofDef_component hc hsite
      have hd : ∀ web, web ∈ (found.lookup v).getD [] → d ∉ web.defs := by
        intro web hmem hd
        exact hnot (List.any_eq_true.mpr ⟨web, hmem, List.contains_iff_mem.mpr hd⟩)
      have hcases := fun entry =>
        (h.mem_insert_iff v ((found.lookup v).getD [] ++ [ofDef c v d]) entry).2.mp
      refine ⟨(h.mem_insert_iff v _ (v, [])).1, ?_, ?_, ?_, ?_⟩
      · intro entry hentry
        rcases hcases entry hentry with rfl | ⟨-, hold⟩
        · exact hregister
        · exact h.register entry hold
      · intro entry hentry
        rcases hcases entry hentry with rfl | ⟨-, hold⟩
        · exact ⟨d, hsite⟩
        · exact h.used entry hold
      · intro entry hentry web hmem
        rcases hcases entry hentry with rfl | ⟨-, hold⟩
        · rcases List.mem_append.mp hmem with hmem | hmem
          · exact hwebs web hmem
          · rw [List.mem_singleton.mp hmem]
            exact hweb
        · exact h.component entry hold web hmem
      · intro entry hentry
        rcases hcases entry hentry with rfl | ⟨-, hold⟩
        · refine List.pairwise_append.mpr ⟨hpairwise, by simp, ?_⟩
          intro web hmem' web' hlast e he he'
          rw [List.mem_singleton.mp hlast] at he'
          exact hweb.apart (hwebs web hmem').toIsWeb hmem (hd web hmem') e he' he
        · exact h.apart entry hold
  · exact h

/-- A definition of a register is in a web afterwards, and whatever has been in one still is. -/
theorem Separated.covers_collect
    (hc : c.Mutual)
    (h : Separated c vars found)
    (hsite : ∃ u, site.2 ∈ c.defs site.1 u) :
    ((vars.get? site.1).any Symbolic.Variable.isRegister = true →
        Covers (Web.collect c vars found site) site) ∧
      ∀ other, Covers found other → Covers (Web.collect c vars found site) other := by
  obtain ⟨v, d⟩ := site
  unfold Web.collect
  simp only []
  split
  · split
    · rename_i hany
      obtain ⟨web, hmem, hd⟩ := List.any_eq_true.mp hany
      refine ⟨fun _ => ?_, fun _ hother => hother⟩
      cases hlookup : found.lookup v with
      | none => simp [hlookup] at hmem
      | some webs =>
          rw [hlookup] at hmem
          exact ⟨webs, (OrderedMap.mem_iff_lookup_eq_some h.nodup).mpr hlookup, web, hmem,
            List.contains_iff_mem.mp hd⟩
    · have hmem := fun entry =>
        (h.mem_insert_iff v ((found.lookup v).getD [] ++ [ofDef c v d]) entry).2.mpr
      refine ⟨fun _ => ⟨_, hmem _ (Or.inl rfl), ofDef c v d, by simp,
        (ofDef_component hc hsite).2⟩, ?_⟩
      rintro ⟨w, e⟩ ⟨webs, hentry, web, hweb, he⟩
      by_cases hw : w = v
      · subst hw
        have hlookup := (OrderedMap.mem_iff_lookup_eq_some h.nodup).mp hentry
        exact ⟨_, hmem _ (Or.inl rfl), web, by simp [hlookup, hweb], he⟩
      · exact ⟨webs, hmem _ (Or.inr ⟨hw, hentry⟩), web, hweb, he⟩
  · rename_i hregister
    exact ⟨fun h' => absurd h' hregister, fun _ hother => hother⟩

end Collect

/-- All webs are connected, those of one variable have no definition in common, and each used
definition of a register is in one of them. -/
theorem all_separated
    (vars : Variables)
    (hc : c.Mutual)
    (hused : ∀ site, site ∈ c.definitionsInUse → ∃ u, site.2 ∈ c.defs site.1 u) :
    Separated c vars (Web.all c vars) ∧
      ∀ site, site ∈ c.definitionsInUse →
        (vars.get? site.1).any Symbolic.Variable.isRegister = true →
        Covers (Web.all c vars) site := by
  have hfold : ∀ (sites : List DefSite) (found : List (VarId × List Web)),
      (∀ site, site ∈ sites → ∃ u, site.2 ∈ c.defs site.1 u) → Separated c vars found →
      Separated c vars (sites.foldl (Web.collect c vars) found) ∧
        (∀ site, site ∈ sites → (vars.get? site.1).any Symbolic.Variable.isRegister = true →
          Covers (sites.foldl (Web.collect c vars) found) site) ∧
        ∀ site, Covers found site → Covers (sites.foldl (Web.collect c vars) found) site := by
    intro sites
    induction sites with
    | nil => exact fun _ _ h => ⟨h, by simp, fun _ h => h⟩
    | cons site sites ih =>
        intro found hsites h
        have hsite := hsites site (by simp)
        obtain ⟨hnew, hold⟩ := h.covers_collect hc hsite
        obtain ⟨hrest, hcovers, hkept⟩ :=
          ih _ (fun x hx => hsites x (by simp [hx])) (h.collect hc hsite)
        refine ⟨hrest, fun x hx hregister => ?_, fun x hx => hkept x (hold x hx)⟩
        rcases List.mem_cons.mp hx with rfl | hx
        · exact hkept _ (hnew hregister)
        · exact hcovers x hx hregister
  obtain ⟨hall, hcovers, -⟩ := hfold _ [] hused ⟨by simp, by simp, by simp, by simp, by simp⟩
  exact ⟨hall, hcovers⟩

end Web
end DalvikDecompiler
