import DalvikDecompiler.Proofs.Chains.Links
import DalvikDecompiler.Proofs.FlowGraph.Rewriting

/-!
# Chains that follow a graph

**Input.** Chains that are kept while the code of a graph is rewritten.

Chains track a graph if they hold the links of its runs.  Taking a definition
away that supplies no use changes no link, because on every walk the variable
is defined again before it is read.

**Results.**
* `supplied_filterMap_iff`: what supplies a variable is the same behind
  rewritten code, unless its definition was taken away.
* `Retires.links_iff`: the links that are left when an unused definition goes.
* `Tracks.agrees`: chains that track a graph are those built from it anew.
-/

namespace DalvikDecompiler

open Symbolic (VarId Instr)

/-- Every variable read on a run from the entry has been defined on the way. -/
def FlowGraph.Defined (g : FlowGraph) (params : List VarId) : Prop :=
  ∀ run ins u v, g.Executes run (ins, u) → v ∈ ins.reads → ∃ d, Supplied params v run d

section Supply

variable {run : List RunStep} {v : VarId} {d : Loc} {params : List VarId}
  {f : RunStep → Option RunStep}

/-- The last definition of a variable is the same behind rewritten code, unless it is gone. -/
theorem lastDefinition_filterMap
    (gone : Loc → Prop)
    (hkept : ∀ x, x ∈ run → ¬ gone x.2 →
      ∃ y, f x = some y ∧ y.2 = x.2 ∧ y.1.target? = x.1.target?)
    (hgone : ∀ x, x ∈ run → gone x.2 → ∀ y, f x = some y → y.1.target? = none)
    (hlast : ∀ d, lastDefinition v run = some d → ¬ gone d) :
    lastDefinition v (run.filterMap f) = lastDefinition v run := by
  induction run with
  | nil => rfl
  | cons x run ih =>
      have hrest : lastDefinition v (run.filterMap f) = lastDefinition v run := by
        refine ih (fun y hy => hkept y (by simp [hy])) (fun y hy => hgone y (by simp [hy])) ?_
        intro d hd
        exact hlast d (by simp [lastDefinition, hd])
      have hsplit : (x :: run).filterMap f = (f x).toList ++ run.filterMap f := by
        cases hx : f x <;> simp [hx]
      rw [hsplit, lastDefinition_append, hrest, lastDefinition]
      cases hd : lastDefinition v run with
      | some d => rfl
      | none =>
          simp only [Option.none_or]
          by_cases hx : gone x.2
          · have htarget : ¬ x.1.target? = some v := by
              intro htarget
              exact hlast x.2 (by simp [lastDefinition, hd, htarget]) hx
            rw [if_neg htarget]
            cases hfx : f x with
            | none => rfl
            | some y =>
                have hy := hgone x (by simp) hx y hfx
                simp [lastDefinition, hy]
          · obtain ⟨y, hfx, hplace, htarget⟩ := hkept x (by simp) hx
            simp [hfx, lastDefinition, hplace, htarget]

theorem supplied_filterMap_iff
    (gone : Loc → Prop)
    (hkept : ∀ x, x ∈ run → ¬ gone x.2 →
      ∃ y, f x = some y ∧ y.2 = x.2 ∧ y.1.target? = x.1.target?)
    (hgone : ∀ x, x ∈ run → gone x.2 → ∀ y, f x = some y → y.1.target? = none)
    (hlast : ∀ d, lastDefinition v run = some d → ¬ gone d) :
    Supplied params v (run.filterMap f) d ↔ Supplied params v run d := by
  rw [Supplied, Supplied, lastDefinition_filterMap gone hkept hgone hlast]

end Supply

namespace FlowGraph

variable {g g' : FlowGraph} {params : List VarId} {f : RunStep → Option RunStep}
  {loc : Loc} {v : VarId} {d u : Loc} {run : List RunStep} {ins : Instr} {x y : RunStep}

theorem Executes.holds
    (h : g.Executes run x) :
    g.Holds x.1 x.2 := by
  obtain ⟨n, nodes, after, -, htrace⟩ := h
  have hmem : x ∈ g.trace nodes := by simp [htrace]
  obtain ⟨id, -, hid⟩ := List.mem_flatMap.mp hmem
  exact ⟨id, hid⟩

theorem Executes.holds_of_mem
    (h : g.Executes run x)
    (hy : y ∈ run) :
    g.Holds y.1 y.2 := by
  obtain ⟨n, nodes, after, -, htrace⟩ := h
  have hmem : y ∈ g.trace nodes := by simp [htrace, hy]
  obtain ⟨id, -, hid⟩ := List.mem_flatMap.mp hmem
  exact ⟨id, hid⟩

/-- Whether no variable is read before it is defined can be read off the chains for which all
other variables are arguments, too. -/
theorem defined_of_chains
    (hg : g.Numbered)
    (others : List VarId)
    (hreads : ∀ ins u, g.Holds ins u → ∀ v, v ∈ ins.reads → v ∈ params ++ others)
    (hchains : ∀ entry, entry ∈ (Chains.ofGraph g (params ++ others)).defsAt →
      ∀ d, d ∈ entry.2 → argumentLoc params.length < d) :
    g.Defined params := by
  intro run ins u v hexec hv
  cases hlast : lastDefinition v run with
  | some d => exact ⟨d, Or.inl hlast⟩
  | none =>
      obtain ⟨index, hindex⟩ := List.mem_iff_getElem?.mp (hreads ins u hexec.holds v hv)
      rcases Nat.lt_or_ge index params.length with hlt | hge
      · rw [List.getElem?_append_left hlt] at hindex
        exact ⟨argumentLoc index, Or.inr ⟨hlast, mem_argumentSites.mpr ⟨index, hindex, rfl⟩⟩⟩
      · have hlink : g.Links (params ++ others) v (argumentLoc index) u :=
          ⟨run, ins, hexec, hv, Or.inr ⟨hlast, mem_argumentSites.mpr ⟨index, hindex, rfl⟩⟩⟩
        obtain ⟨locs, hentry, hloc⟩ :=
          LinkMap.exists_of_mem_linked ((Chains.mem_defs_ofGraph hg).mpr hlink)
        have hbelow : -(params.length : Int) - 1 < -(index : Int) - 1 := hchains _ hentry _ hloc
        omega

theorem Indexed.nonneg_of_holds
    (hg : g.Indexed)
    (h : g.Holds ins loc) :
    0 ≤ loc := by
  obtain ⟨id, hid⟩ := h
  have hloc := (List.of_mem_zip hid).2
  exact hg.numbered.nonneg id (hg.mem_order id loc hloc) loc hloc

/-- The instruction at a linked place defines the variable of the link. -/
theorem Links.target_eq
    (hg : g.Indexed)
    (h : g.Links params v d u)
    (hins : g.Holds ins d) :
    ins.target? = some v := by
  obtain ⟨run, reader, hexec, -, hlast | ⟨-, hargument⟩⟩ := h
  · obtain ⟨ins', hmem, htarget⟩ := exists_mem_of_lastDefinition hlast
    rw [hg.holds_unique hins (hexec.holds_of_mem hmem)]
    exact htarget
  · obtain ⟨index, -, rfl⟩ := mem_argumentSites.mp hargument
    exact absurd (hg.nonneg_of_holds hins) (Int.not_le.mpr (Reaching.argumentLoc_neg index))

/-- A change of steps takes the instruction at a place away, or at least what it defines, and
leaves all others alone. -/
structure Retires (g : FlowGraph) (f : RunStep → Option RunStep) (loc : Loc) : Prop where
  kept : ∀ x, x.2 ≠ loc → f x = some x
  gone : ∀ x y, g.Holds x.1 x.2 → x.2 = loc → f x = some y →
    y.2 = loc ∧ y.1.target? = none ∧ y.1.reads = x.1.reads

theorem retires_dropAt
    (g : FlowGraph)
    (loc : Loc) :
    Retires g (dropAt loc) loc := by
  constructor
  · intro x hx
    simp [dropAt, hx]
  · intro x y _ hx hy
    simp [dropAt, hx] at hy

/-- What supplies a read is the same when a definition goes that supplies none. -/
theorem Retires.supplied_iff
    (hf : Retires g f loc)
    (hunused : ∀ v u, ¬ g.Links params v loc u)
    (hexec : g.Executes run (ins, u))
    (hreads : v ∈ ins.reads) :
    Supplied params v (run.filterMap f) d ↔ Supplied params v run d := by
  refine supplied_filterMap_iff (fun l => l = loc) ?_ ?_ ?_
  · intro x _ hx
    exact ⟨x, hf.kept x hx, rfl, rfl⟩
  · intro x hx hloc y hy
    exact (hf.gone x y (hexec.holds_of_mem hx) hloc hy).2.1
  · rintro e he rfl
    exact hunused v u ⟨run, ins, hexec, hreads, Or.inl he⟩

/-- A step that is left reads what it read before. -/
theorem Retires.eq_of_eq_some
    (hf : Retires g f loc)
    (hx : g.Holds x.1 x.2)
    (h : f x = some y) :
    y.2 = x.2 ∧ y.1.reads = x.1.reads := by
  by_cases hloc : x.2 = loc
  · obtain ⟨hplace, -, hreads⟩ := hf.gone x y hx hloc h
    exact ⟨hplace.trans hloc.symm, hreads⟩
  · rw [hf.kept x hloc] at h
    obtain rfl := Option.some.inj h
    exact ⟨rfl, rfl⟩

/-- The links that are left when a definition goes that has none. -/
theorem Retires.links_iff
    (hf : Retires g f loc)
    (h : Rewrites g g' f)
    (hunused : ∀ v u, ¬ g.Links params v loc u) :
    g'.Links params v d u ↔
      ∃ run ins, g.Executes run (ins, u) ∧ v ∈ ins.reads ∧ Supplied params v run d ∧
        (f (ins, u)).isSome := by
  constructor
  · rintro ⟨run', ins', hexec', hreads, hsupplied⟩
    obtain ⟨run, y, hexec, hy, rfl⟩ := h.executes_iff.mp hexec'
    obtain ⟨hplace, hsame⟩ := hf.eq_of_eq_some hexec.holds hy
    obtain ⟨ins, loc'⟩ := y
    obtain rfl : u = loc' := hplace
    have hreads : v ∈ ins.reads := hsame ▸ hreads
    exact ⟨run, ins, hexec, hreads, (hf.supplied_iff hunused hexec hreads).mp hsupplied,
      by simp [hy]⟩
  · rintro ⟨run, ins, hexec, hreads, hsupplied, hsome⟩
    obtain ⟨⟨ins', u'⟩, hy⟩ := Option.isSome_iff_exists.mp hsome
    obtain ⟨hplace, hsame⟩ := hf.eq_of_eq_some hexec.holds hy
    obtain rfl : u' = u := hplace
    exact ⟨_, ins', h.executes_iff.mpr ⟨run, (ins, u'), hexec, hy, rfl⟩, hsame ▸ hreads,
      (hf.supplied_iff hunused hexec hreads).mpr hsupplied⟩

theorem Retires.defined
    (hf : Retires g f loc)
    (h : Rewrites g g' f)
    (hunused : ∀ v u, ¬ g.Links params v loc u)
    (hdefined : g.Defined params) :
    g'.Defined params := by
  intro run' ins' u v hexec' hreads
  obtain ⟨run, ⟨ins, u'⟩, hexec, hy, rfl⟩ := h.executes_iff.mp hexec'
  obtain ⟨-, hsame⟩ := hf.eq_of_eq_some hexec.holds hy
  have hreads : v ∈ ins.reads := hsame ▸ hreads
  obtain ⟨d, hd⟩ := hdefined run ins u' v hexec hreads
  exact ⟨d, (hf.supplied_iff hunused hexec hreads).mpr hd⟩

end FlowGraph

namespace Chains

/-- Chains hold the same links as others, at both of their ends. -/
def Agrees (c c' : Chains) : Prop :=
  ∀ v d u, (d ∈ c.defs v u ↔ d ∈ c'.defs v u) ∧ (u ∈ c.uses v d ↔ u ∈ c'.uses v d)

/-- Chains hold the links of the runs of a graph. -/
structure Tracks (c : Chains) (g : FlowGraph) (params : List VarId) : Prop where
  indexed : g.Indexed
  mutually : c.Mutual
  mem_defs_iff : ∀ v d u, d ∈ c.defs v u ↔ g.Links params v d u

variable {c : Chains} {g : FlowGraph} {params : List VarId}

theorem Tracks.ofGraph
    (hg : g.Indexed) :
    Tracks (Chains.ofGraph g params) g params :=
  ⟨hg, fun _ _ _ => (mem_uses_ofGraph hg.numbered).trans (mem_defs_ofGraph hg.numbered).symm,
    fun _ _ _ => mem_defs_ofGraph hg.numbered⟩

/-- Chains that track a graph are those built from it anew. -/
theorem Tracks.agrees
    (h : Tracks c g params) :
    Agrees c (Chains.ofGraph g params) := by
  intro v d u
  rw [mem_defs_ofGraph h.indexed.numbered, mem_uses_ofGraph h.indexed.numbered, h.mutually v d u,
    h.mem_defs_iff v d u]
  exact ⟨Iff.rfl, Iff.rfl⟩

end Chains
end DalvikDecompiler
