import DalvikDecompiler.Proofs.Chains.Tracking
import DalvikDecompiler.Proofs.Chains.Webs
import DalvikDecompiler.Proofs.Symbolic.Substitution
import Mathlib

/-!
# Another variable for a web

**Input.** A graph with a web of definitions and uses of a variable, and a
variable that nothing mentions.

The definitions and the uses of the web are given the new variable.  On every
run to a use, the last definition of the old variable is in the web exactly if
the use is; so each use is supplied by the definition that supplied it before.

**Results.**
* `mem_foldl_reassign`: what becomes of the links when definitions are
  reassigned.
* `Separable.links_iff`: the links of the old variable in the web become links
  of the new one.
-/

namespace DalvikDecompiler

open Symbolic (VarId Variables Expr Instr)

namespace Chains

variable {c : Chains} {old new w : VarId} {d e y : Loc}

theorem mem_foldl_reassignAt
    (hne : old ≠ new)
    (us : List Loc)
    (m : LinkMap) :
    e ∈ (us.foldl (reassignAt old new d) m).linked (w, y) ↔
      (e ∈ m.linked (w, y) ∧ ¬ (w = old ∧ e = d ∧ y ∈ us)) ∨ (w = new ∧ e = d ∧ y ∈ us) := by
  induction us generalizing m with
  | nil => simp
  | cons u us ih =>
      rw [List.foldl_cons, ih]
      simp only [reassignAt, LinkMap.mem_linked_push, LinkMap.mem_linked_drop, Prod.mk.injEq,
        List.mem_cons]
      grind

/-- A definition with its uses counts as one of another variable, at both ends of each link. -/
theorem mem_reassign
    (hc : c.Mutual)
    (hne : old ≠ new)
    (hnew : c.uses new d = []) :
    (e ∈ (c.reassign old d new).defs w y ↔
        (e ∈ c.defs w y ∧ ¬ (w = old ∧ e = d)) ∨ (w = new ∧ e = d ∧ d ∈ c.defs old y)) ∧
      (y ∈ (c.reassign old d new).uses w e ↔
        (e ∈ c.defs w y ∧ ¬ (w = old ∧ e = d)) ∨ (w = new ∧ e = d ∧ d ∈ c.defs old y)) := by
  have hnone : ∀ y, d ∉ c.defs new y := by
    intro y hy
    rw [← hc new d y, hnew] at hy
    cases hy
  unfold reassign
  cases hlookup : c.usesAt.lookup (old, d) with
  | none =>
      have hold : ∀ y, d ∉ c.defs old y := by
        intro y hy
        rw [← hc old d y] at hy
        simp [uses, LinkMap.linked, hlookup] at hy
      simp only [hc w e y]
      have hiff : e ∈ c.defs w y ↔
          (e ∈ c.defs w y ∧ ¬ (w = old ∧ e = d)) ∨ (w = new ∧ e = d ∧ d ∈ c.defs old y) := by
        constructor
        · intro he
          refine Or.inl ⟨he, ?_⟩
          rintro ⟨rfl, rfl⟩
          exact hold y he
        · rintro (⟨he, -⟩ | ⟨-, -, hy⟩)
          · exact he
          · exact absurd hy (hold y)
      exact ⟨hiff, hiff⟩
  | some us =>
      have hus : ∀ y, y ∈ us ↔ d ∈ c.defs old y := by
        intro y
        rw [← hc old d y]
        simp [uses, LinkMap.linked, hlookup]
      constructor
      · simp only [defs, mem_foldl_reassignAt hne]
        constructor
        · rintro (⟨he, hnot⟩ | ⟨rfl, rfl, hy⟩)
          · refine Or.inl ⟨he, ?_⟩
            rintro ⟨rfl, rfl⟩
            exact hnot ⟨rfl, rfl, (hus y).mpr he⟩
          · exact Or.inr ⟨rfl, rfl, (hus y).mp hy⟩
        · rintro (⟨he, hnot⟩ | ⟨rfl, rfl, hy⟩)
          · exact Or.inl ⟨he, fun hsame => hnot ⟨hsame.1, hsame.2.1⟩⟩
          · exact Or.inr ⟨rfl, rfl, (hus y).mpr hy⟩
      · rw [← hc w e y]
        simp only [uses, LinkMap.linked, OrderedMap.lookup_insert, OrderedMap.lookup_erase]
        by_cases hnewd : w = new ∧ e = d
        · obtain ⟨rfl, rfl⟩ := hnewd
          have hempty : y ∉ c.uses w e := by simp [hnew]
          have hempty' : ¬ y ∈ (c.usesAt.lookup (w, e)).getD [] := hempty
          simp [hus, hempty', hne.symm]
        · have hnewd' : ((w, e) == (new, d)) = false := by
            simpa using fun h => fun h' => hnewd ⟨h, h'⟩
          rw [hnewd']
          by_cases holdd : w = old ∧ e = d
          · obtain ⟨rfl, rfl⟩ := holdd
            simp [hne]
          · have holdd' : ((w, e) == (old, d)) = false := by
              simpa using fun h => fun h' => holdd ⟨h, h'⟩
            rw [holdd']
            simp only [Bool.false_eq_true, if_false]
            constructor
            · exact fun hy => Or.inl ⟨hy, holdd⟩
            · rintro (⟨hy, -⟩ | ⟨rfl, rfl, -⟩)
              · exact hy
              · exact absurd ⟨rfl, rfl⟩ hnewd

/-- The definitions of a web are reassigned one after another. -/
theorem mem_foldl_reassign
    {ds : List Loc}
    (hc : c.Mutual)
    (hne : old ≠ new)
    (hnodup : ds.Nodup)
    (hnew : ∀ d, d ∈ ds → c.uses new d = []) :
    (ds.foldl (fun c d => c.reassign old d new) c).Mutual ∧
      ∀ w e y, e ∈ (ds.foldl (fun c d => c.reassign old d new) c).defs w y ↔
        (e ∈ c.defs w y ∧ ¬ (w = old ∧ e ∈ ds)) ∨ (w = new ∧ e ∈ ds ∧ e ∈ c.defs old y) := by
  induction ds generalizing c with
  | nil => exact ⟨hc, by simp⟩
  | cons d ds ih =>
      obtain ⟨hd, hnodup⟩ := List.nodup_cons.mp hnodup
      have hspec := fun w e y => mem_reassign (w := w) (e := e) (y := y) hc hne (hnew d (by simp))
      have hc' : (c.reassign old d new).Mutual := fun w e y => by
        rw [(hspec w e y).1, (hspec w e y).2]
      have hnew' : ∀ x, x ∈ ds → (c.reassign old d new).uses new x = [] := by
        intro x hx
        refine List.eq_nil_iff_forall_not_mem.mpr fun y hy => ?_
        rcases (hspec new x y).2.mp hy with ⟨hlink, -⟩ | ⟨-, rfl, -⟩
        · rw [← hc new x y, hnew x (by simp [hx])] at hlink
          cases hlink
        · exact hd hx
      obtain ⟨hmutual, hmem⟩ := ih hc' hnodup hnew'
      refine ⟨hmutual, fun w e y => ?_⟩
      rw [List.foldl_cons, hmem, (hspec w e y).1, (hspec old e y).1]
      simp only [List.mem_cons]
      grind

end Chains

namespace FlowGraph

/-- Every variable in the code of a graph is below a bound. -/
def Bounded (g : FlowGraph) (bound : Nat) : Prop :=
  ∀ ins loc, g.Holds ins loc →
    (∀ v, v ∈ ins.reads → v < bound) ∧ ∀ v, ins.target? = some v → v < bound

variable {g g' : FlowGraph}

/-- Changing the instructions at several places, one after another and perhaps repeatedly. -/
theorem Rewrites.foldl_modifyInstr
    (hg : g.Indexed)
    (F : Instr → Instr)
    (hagain : ∀ i, F (F i) = F i)
    (locs : List Loc) :
    (locs.foldl (fun g loc => g.modifyInstr loc F) g).Indexed ∧
      Rewrites g (locs.foldl (fun g loc => g.modifyInstr loc F) g)
        fun x => some (if x.2 ∈ locs then F x.1 else x.1, x.2) := by
  induction locs using List.reverseRecOn with
  | nil => exact ⟨hg, rfl, rfl, by simp⟩
  | append_singleton locs loc ih =>
      obtain ⟨hindexed, hrewrites⟩ := ih
      rw [List.foldl_append, List.foldl_cons, List.foldl_nil]
      have hnext := hrewrites.trans (Rewrites.modifyInstr hindexed loc F)
      refine ⟨hindexed.modifyInstr loc F, hnext.toDigraph_eq, hnext.order_eq, fun id => ?_⟩
      rw [hnext.code_eq]
      refine List.filterMap_congr fun x _ => ?_
      rw [Option.bind_some, modifyAt]
      by_cases hloc : x.2 = loc <;> by_cases hlocs : x.2 ∈ locs <;> simp_all

end FlowGraph

/-- A change of steps that gives the definitions and uses of a web another variable. -/
structure Renaming (old new : VarId) (web : Web) (f : RunStep → Option RunStep) : Prop where
  step : ∀ x, ∃ j, f x = some (j, x.2) ∧
    (x.2 ∉ web.defs → j.target? = x.1.target?) ∧
    (x.2 ∈ web.defs → x.1.target? = some old → j.target? = some new) ∧
    (x.2 ∉ web.uses → j.reads = x.1.reads) ∧
    (x.2 ∈ web.uses → new ∉ x.1.reads → ∀ w, w ∈ j.reads ↔
      (w ∈ x.1.reads ∧ w ≠ old) ∨ (w = new ∧ old ∈ x.1.reads))

/-- Give what a step defines and reads another variable, as far as it belongs to a web. -/
def renameAt (old new : VarId) (web : Web) (x : RunStep) : Option RunStep :=
  some
    (let named := if x.2 ∈ web.defs then x.1.replaceTarget new else x.1
      if x.2 ∈ web.uses then named.substitute old (.var new) else named,
    x.2)

theorem renaming_renameAt
    {old new : VarId}
    (hne : old ≠ new)
    (web : Web) :
    Renaming old new web (renameAt old new web) := by
  have hvar : ∀ w, w ∈ (Expr.var new).varsRead ↔ w = new := by
    simp [Expr.varsRead, Expr.subterms, Expr.var?, eq_comm]
  refine ⟨fun x => ⟨_, rfl, ?_, ?_, ?_, ?_⟩⟩
  · intro hd
    by_cases hu : x.2 ∈ web.uses <;> simp [hd, hu]
  · intro hd hold
    by_cases hu : x.2 ∈ web.uses <;> simp [hd, hu, Instr.target?_replaceTarget hold]
  · intro hu
    by_cases hd : x.2 ∈ web.defs <;> simp [hd, hu]
  · intro hu hnew w
    by_cases hd : x.2 ∈ web.defs <;>
      simp only [hd, hu, if_true, if_false, Instr.mem_reads_substitute,
        Instr.reads_replaceTarget, hvar] <;>
      grind

/-- A web of a variable with places of instructions, and a variable that nothing mentions. -/
structure Separable (g : FlowGraph) (params : List VarId) (old new : VarId) (web : Web) : Prop where
  indexed : g.Indexed
  ne : old ≠ new
  fresh : ∀ ins loc, g.Holds ins loc → new ∉ ins.reads ∧ ins.target? ≠ some new
  not_param : new ∉ params
  closed : ∀ d u, g.Links params old d u → (d ∈ web.defs ↔ u ∈ web.uses)
  nonneg : ∀ d, d ∈ web.defs → 0 ≤ d
  target_eq : ∀ ins d, d ∈ web.defs → g.Holds ins d → ins.target? = some old

namespace Separable

variable {g g' : FlowGraph} {params : List VarId} {old new w : VarId} {web : Web}
  {f : RunStep → Option RunStep} {run : List RunStep} {d u : Loc} {ins : Instr}

/-- Definitions in the web are given the new variable, all others keep theirs. -/
theorem target_step
    (h : Separable g params old new web)
    (hf : Renaming old new web f)
    {x : RunStep}
    (hx : g.Holds x.1 x.2) :
    ∃ j, f x = some (j, x.2) ∧
      (j.target? = some new ↔ x.2 ∈ web.defs) ∧
      (j.target? = some old ↔ x.1.target? = some old ∧ x.2 ∉ web.defs) ∧
      (w ≠ old → w ≠ new → (j.target? = some w ↔ x.1.target? = some w)) := by
  obtain ⟨j, hj, hother, hweb, -⟩ := hf.step x
  refine ⟨j, hj, ?_⟩
  by_cases hd : x.2 ∈ web.defs
  · have hold := h.target_eq x.1 x.2 hd hx
    have hnew := hweb hd hold
    rw [hnew, hold]
    refine ⟨by simp [hd], by simp [hd, h.ne.symm], fun hw hw' => ?_⟩
    simp [hw.symm, hw'.symm]
  · rw [hother hd]
    refine ⟨⟨fun hnew => absurd hnew (h.fresh x.1 x.2 hx).2, fun hd' => absurd hd' hd⟩, ?_,
      fun _ _ => Iff.rfl⟩
    simp [hd]

theorem lastDefinition_other
    (h : Separable g params old new web)
    (hf : Renaming old new web f)
    (hexec : g.Executes run (ins, u))
    (hold : w ≠ old)
    (hnew : w ≠ new) :
    lastDefinition w (run.filterMap f) = lastDefinition w run := by
  have hall : ∀ x, x ∈ run → g.Holds x.1 x.2 := fun x hx => hexec.holds_of_mem hx
  clear hexec
  induction run with
  | nil => rfl
  | cons x run ih =>
      obtain ⟨j, hj, -, -, hw⟩ := h.target_step (w := w) hf (hall x (by simp))
      rw [List.filterMap_cons_some hj, lastDefinition, lastDefinition,
        ih fun y hy => hall y (by simp [hy])]
      simp only [hw hold hnew]

theorem target_ne_of_mem
    (h : Separable g params old new web)
    (hf : Renaming old new web f)
    (hall : ∀ x, x ∈ run → g.Holds x.1 x.2 ∧ x.1.target? ≠ some old)
    {x' : RunStep}
    (hx' : x' ∈ run.filterMap f) :
    x'.1.target? ≠ some new ∧ x'.1.target? ≠ some old := by
  obtain ⟨x, hx, hfx⟩ := List.mem_filterMap.mp hx'
  obtain ⟨hhold, hne⟩ := hall x hx
  obtain ⟨j, hj, hnew, hold, -⟩ := h.target_step (w := old) hf hhold
  rw [hfx] at hj
  obtain rfl := Option.some.inj hj
  refine ⟨fun hn => ?_, fun ho => hne (hold.mp ho).1⟩
  exact hne (h.target_eq x.1 x.2 (hnew.mp hn) hhold)

/-- The last definition of the old variable becomes one of the new variable if it is in the web
and stays one of the old variable if it is not. -/
theorem lastDefinition_renamed
    (h : Separable g params old new web)
    (hf : Renaming old new web f)
    (hexec : g.Executes run (ins, u))
    (hlast : lastDefinition old run = some d) :
    (d ∈ web.defs → lastDefinition new (run.filterMap f) = some d) ∧
      (d ∉ web.defs → lastDefinition old (run.filterMap f) = some d) := by
  obtain ⟨before, i, after, rfl, hi, hafter⟩ := lastDefinition_eq_some_iff.mp hlast
  have hhold : g.Holds i d := hexec.holds_of_mem (y := (i, d)) (by simp)
  obtain ⟨j, hj, hjnew, hjold, -⟩ := h.target_step (w := old) hf (x := (i, d)) hhold
  rw [List.filterMap_append, List.filterMap_cons_some hj]
  have hrest : ∀ x, x ∈ after.filterMap f → x.1.target? ≠ some new ∧ x.1.target? ≠ some old :=
    fun x => h.target_ne_of_mem hf fun y hy => ⟨hexec.holds_of_mem (by simp [hy]), hafter y hy⟩
  constructor
  · intro hd
    exact lastDefinition_eq_some_iff.mpr
      ⟨_, j, _, rfl, hjnew.mpr hd, fun x hx => (hrest x hx).1⟩
  · intro hd
    exact lastDefinition_eq_some_iff.mpr
      ⟨_, j, _, rfl, hjold.mpr ⟨hi, hd⟩, fun x hx => (hrest x hx).2⟩

theorem lastDefinition_none
    (h : Separable g params old new web)
    (hf : Renaming old new web f)
    (hexec : g.Executes run (ins, u))
    (hlast : lastDefinition old run = none) :
    lastDefinition new (run.filterMap f) = none ∧ lastDefinition old (run.filterMap f) = none := by
  simp only [lastDefinition_eq_none_iff] at hlast ⊢
  have hrest : ∀ x, x ∈ run.filterMap f → x.1.target? ≠ some new ∧ x.1.target? ≠ some old :=
    fun x => h.target_ne_of_mem hf fun y hy => ⟨hexec.holds_of_mem hy, hlast y hy⟩
  exact ⟨fun x hx => (hrest x hx).1, fun x hx => (hrest x hx).2⟩

/-- A use in the web is supplied with the new variable as it was with the old one. -/
theorem supplied_new_iff
    (h : Separable g params old new web)
    (hf : Renaming old new web f)
    (hexec : g.Executes run (ins, u))
    (hreads : old ∈ ins.reads)
    (hu : u ∈ web.uses) :
    Supplied params new (run.filterMap f) d ↔ Supplied params old run d := by
  have hdefs : ∀ e, Supplied params old run e → e ∈ web.defs := fun e he =>
    (h.closed e u ⟨run, ins, hexec, hreads, he⟩).mpr hu
  cases hlast : lastDefinition old run with
  | some e =>
      have hnew := (h.lastDefinition_renamed hf hexec hlast).1 (hdefs e (Or.inl hlast))
      rw [Supplied, Supplied, hlast, hnew]
      simp
  | none =>
      have hnew := (h.lastDefinition_none hf hexec hlast).1
      rw [Supplied, hnew]
      constructor
      · rintro (hfalse | ⟨-, hargument⟩)
        · cases hfalse
        · obtain ⟨index, hparam, -⟩ := mem_argumentSites.mp hargument
          exact absurd (List.mem_of_getElem? hparam) h.not_param
      · intro hsupplied
        have hnonneg := h.nonneg d (hdefs d hsupplied)
        rcases hsupplied with hsome | ⟨-, hargument⟩
        · rw [hlast] at hsome
          cases hsome
        · obtain ⟨index, -, rfl⟩ := mem_argumentSites.mp hargument
          exact absurd hnonneg (Int.not_le.mpr (Reaching.argumentLoc_neg index))

/-- A use outside of the web is supplied as before. -/
theorem supplied_old_iff
    (h : Separable g params old new web)
    (hf : Renaming old new web f)
    (hexec : g.Executes run (ins, u))
    (hreads : old ∈ ins.reads)
    (hu : u ∉ web.uses) :
    Supplied params old (run.filterMap f) d ↔ Supplied params old run d := by
  cases hlast : lastDefinition old run with
  | some e =>
      have he : e ∉ web.defs := fun he =>
        hu ((h.closed e u ⟨run, ins, hexec, hreads, Or.inl hlast⟩).mp he)
      rw [Supplied, Supplied, hlast, (h.lastDefinition_renamed hf hexec hlast).2 he]
  | none => rw [Supplied, Supplied, hlast, (h.lastDefinition_none hf hexec hlast).2]

theorem supplied_other_iff
    (h : Separable g params old new web)
    (hf : Renaming old new web f)
    (hexec : g.Executes run (ins, u))
    (hold : w ≠ old)
    (hnew : w ≠ new) :
    Supplied params w (run.filterMap f) d ↔ Supplied params w run d := by
  rw [Supplied, Supplied, h.lastDefinition_other hf hexec hold hnew]

/-- What an instruction reads behind a renaming, with what it read before. -/
theorem mem_reads_step
    (h : Separable g params old new web)
    (hf : Renaming old new web f)
    {x : RunStep}
    (hx : g.Holds x.1 x.2) :
    ∃ j, f x = some (j, x.2) ∧
      (w ∈ j.reads ↔
        (w = new ∧ x.2 ∈ web.uses ∧ old ∈ x.1.reads) ∨
        (w = old ∧ x.2 ∉ web.uses ∧ old ∈ x.1.reads) ∨
        (w ≠ old ∧ w ≠ new ∧ w ∈ x.1.reads)) := by
  obtain ⟨j, hj, -, -, hother, hweb⟩ := hf.step x
  refine ⟨j, hj, ?_⟩
  have hfresh := (h.fresh x.1 x.2 hx).1
  have hne := h.ne
  by_cases hu : x.2 ∈ web.uses
  · rw [hweb hu hfresh w]
    grind
  · rw [hother hu]
    grind

/-- The links of the old variable in the web become links of the new one. -/
theorem links_iff
    (h : Separable g params old new web)
    (hf : Renaming old new web f)
    (hrewrites : g.Rewrites g' f) :
    g'.Links params w d u ↔
      (w = new ∧ u ∈ web.uses ∧ g.Links params old d u) ∨
      (w = old ∧ u ∉ web.uses ∧ g.Links params old d u) ∨
      (w ≠ old ∧ w ≠ new ∧ g.Links params w d u) := by
  constructor
  · rintro ⟨run', ins', hexec', hreads', hsupplied⟩
    obtain ⟨run, ⟨i, loc⟩, hexec, hstep, rfl⟩ := hrewrites.executes_iff.mp hexec'
    obtain ⟨j, hj, hreads⟩ := h.mem_reads_step (w := w) hf hexec.holds
    rw [hstep] at hj
    obtain ⟨rfl, rfl⟩ := Prod.mk.inj (Option.some.inj hj)
    rcases hreads.mp hreads' with ⟨rfl, hu, hold⟩ | ⟨rfl, hu, hold⟩ | ⟨hwold, hwnew, hw⟩
    · exact Or.inl ⟨rfl, hu, run, i, hexec, hold,
        (h.supplied_new_iff hf hexec hold hu).mp hsupplied⟩
    · exact Or.inr (Or.inl ⟨rfl, hu, run, i, hexec, hold,
        (h.supplied_old_iff hf hexec hold hu).mp hsupplied⟩)
    · exact Or.inr (Or.inr ⟨hwold, hwnew, run, i, hexec, hw,
        (h.supplied_other_iff hf hexec hwold hwnew).mp hsupplied⟩)
  · rintro (⟨rfl, hu, run, i, hexec, hreads, hsupplied⟩ |
      ⟨rfl, hu, run, i, hexec, hreads, hsupplied⟩ |
      ⟨hwold, hwnew, run, i, hexec, hreads, hsupplied⟩)
    · obtain ⟨j, hj, hiff⟩ := h.mem_reads_step (w := w) hf hexec.holds
      exact ⟨_, j, hrewrites.executes_iff.mpr ⟨run, _, hexec, hj, rfl⟩,
        hiff.mpr (Or.inl ⟨rfl, hu, hreads⟩), (h.supplied_new_iff hf hexec hreads hu).mpr hsupplied⟩
    · obtain ⟨j, hj, hiff⟩ := h.mem_reads_step (w := w) hf hexec.holds
      exact ⟨_, j, hrewrites.executes_iff.mpr ⟨run, _, hexec, hj, rfl⟩,
        hiff.mpr (Or.inr (Or.inl ⟨rfl, hu, hreads⟩)),
        (h.supplied_old_iff hf hexec hreads hu).mpr hsupplied⟩
    · obtain ⟨j, hj, hiff⟩ := h.mem_reads_step (w := w) hf hexec.holds
      exact ⟨_, j, hrewrites.executes_iff.mpr ⟨run, _, hexec, hj, rfl⟩,
        hiff.mpr (Or.inr (Or.inr ⟨hwold, hwnew, hreads⟩)),
        (h.supplied_other_iff hf hexec hwold hwnew).mpr hsupplied⟩

theorem defined_renamed
    (h : Separable g params old new web)
    (hf : Renaming old new web f)
    (hrewrites : g.Rewrites g' f)
    (hdefined : g.Defined params) :
    g'.Defined params := by
  intro run' ins' u w hexec' hreads'
  obtain ⟨run, ⟨i, loc⟩, hexec, hstep, rfl⟩ := hrewrites.executes_iff.mp hexec'
  obtain ⟨j, hj, hreads⟩ := h.mem_reads_step (w := w) hf hexec.holds
  rw [hstep] at hj
  obtain ⟨rfl, rfl⟩ := Prod.mk.inj (Option.some.inj hj)
  rcases hreads.mp hreads' with ⟨rfl, hu, hold⟩ | ⟨rfl, hu, hold⟩ | ⟨hwold, hwnew, hw⟩
  · obtain ⟨d, hd⟩ := hdefined run i u old hexec hold
    exact ⟨d, (h.supplied_new_iff hf hexec hold hu).mpr hd⟩
  · obtain ⟨d, hd⟩ := hdefined run i u w hexec hold
    exact ⟨d, (h.supplied_old_iff hf hexec hold hu).mpr hd⟩
  · obtain ⟨d, hd⟩ := hdefined run i u w hexec hw
    exact ⟨d, (h.supplied_other_iff hf hexec hwold hwnew).mpr hd⟩

end Separable

end DalvikDecompiler
