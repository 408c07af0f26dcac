import DalvikDecompiler.Chains.DeadCode
import DalvikDecompiler.Proofs.Chains.Tracking

/-!
# Removing what is dead

**Input.** A graph with the chains of its runs.

A removal changes the graph and the chains in three ways: a call loses its
result, an instruction goes, and links that end at a place without an
instruction are forgotten variable by variable.  Until they are forgotten such
links are stale.

**Results.**
* `UpToDate.dropTarget`, `UpToDate.removeInstr`, `UpToDate.forgetUse`: every
  single change keeps the chains up to date, apart from the links that it makes
  stale.
* `Stable.removeDead`: what the three changes keep is kept by a removal with all
  that follows from it.
* `Stable.run`: it is kept when all dead code is removed.
-/

namespace DalvikDecompiler

namespace Symbolic.Instr

variable {ins : Instr}

@[simp] theorem reads_dropTarget
    (ins : Instr) :
    ins.dropTarget.reads = ins.reads := by
  cases ins <;> rfl

@[simp] theorem dropTarget_dropTarget
    (ins : Instr) :
    ins.dropTarget.dropTarget = ins.dropTarget := by
  cases ins <;> rfl

@[simp] theorem isCall_dropTarget
    (ins : Instr) :
    ins.dropTarget.isCall = ins.isCall := by
  cases ins <;> rfl

theorem target?_dropTarget_of_isCall
    (h : ins.isCall = true) :
    ins.dropTarget.target? = none := by
  cases ins <;> first | rfl | simp [isCall, value?] at h

end Symbolic.Instr

namespace Pruning

open Symbolic (VarId Instr)
open FlowGraph (Holds Links Retires Rewrites)

/-- The chains hold the links of the runs, apart from stale ones, which end at places without an
instruction; and a linked place defines the linked variable. -/
structure UpToDate (s : Pruning) (params : List VarId) (stale : VarId → Loc → Prop) : Prop where
  indexed : s.graph.Indexed
  mutually : s.chains.Mutual
  mem_defs_iff : ∀ v d u, ¬ stale v u → (d ∈ s.chains.defs v u ↔ s.graph.Links params v d u)
  not_holds : ∀ v u ins, stale v u → ¬ s.graph.Holds ins u
  target_eq : ∀ v d u ins, d ∈ s.chains.defs v u → s.graph.Holds ins d → ins.target? = some v

/-- What an instruction defines at a place has no use. -/
def Undemanded (s : Pruning) (ins : Instr) (loc : Loc) : Prop :=
  ∀ w, ins.target? = some w → s.chains.uses w loc = []

/-- The instruction at a place defines something that has no use, or it is a call that has lost
its result. -/
def Unused (s : Pruning) (loc : Loc) : Prop :=
  ∀ ins, s.graph.Holds ins loc →
    s.Undemanded ins loc ∧ (ins.target? = none → ins.isCall = true)

/-- Every instruction of a node is one that stood there at its place before, perhaps as a call with
a result. -/
def Shrinks (g g' : FlowGraph) : Prop :=
  ∀ id ins' loc, (ins', loc) ∈ g'.code id →
    ∃ ins, (ins, loc) ∈ g.code id ∧ (ins' = ins ∨ ins.isCall = true ∧ ins' = ins.dropTarget)

variable {s : Pruning} {params : List VarId} {stale : VarId → Loc → Prop} {loc : Loc}
  {ins : Instr} {g g' : FlowGraph} {f : RunStep → Option RunStep}

section Single

theorem Shrinks.refl
    (g : FlowGraph) :
    Shrinks g g :=
  fun _ ins _ h => ⟨ins, h, Or.inl rfl⟩

theorem Shrinks.trans
    {g'' : FlowGraph}
    (h : Shrinks g g')
    (h' : Shrinks g' g'') :
    Shrinks g g'' := by
  intro id ins'' loc hins
  obtain ⟨ins', hins', hlast⟩ := h' id ins'' loc hins
  obtain ⟨ins, hins, hfirst⟩ := h id ins' loc hins'
  refine ⟨ins, hins, ?_⟩
  rcases hfirst with rfl | ⟨hcall, rfl⟩
  · exact hlast
  · rcases hlast with rfl | ⟨-, rfl⟩
    · exact Or.inr ⟨hcall, rfl⟩
    · exact Or.inr ⟨hcall, Instr.dropTarget_dropTarget ins⟩

theorem Shrinks.holds
    {ins' : Instr}
    (h : Shrinks g g')
    (hins : g'.Holds ins' loc) :
    ∃ ins, g.Holds ins loc ∧ (ins' = ins ∨ ins.isCall = true ∧ ins' = ins.dropTarget) := by
  obtain ⟨id, hid⟩ := hins
  obtain ⟨ins, hins, hcases⟩ := h id ins' loc hid
  exact ⟨ins, ⟨id, hins⟩, hcases⟩

/-- What a place defines, if not the result of a call, it still does if it is left. -/
theorem Shrinks.targets
    {v : VarId}
    (h : Shrinks g g')
    (htarget : ∀ ins, g.Holds ins loc → ins.target? = some v ∨ ins.target? = none ∧
      ins.isCall = true)
    (ins : Instr)
    (hins : g'.Holds ins loc) :
    ins.target? = some v ∨ ins.target? = none ∧ ins.isCall = true := by
  obtain ⟨before, hbefore, rfl | ⟨hcall, rfl⟩⟩ := h.holds hins
  · exact htarget ins hbefore
  · exact Or.inr ⟨Instr.target?_dropTarget_of_isCall hcall, by simpa using hcall⟩

/-- A change of single steps that leaves their places. -/
theorem shrinks_of_rewrites
    (h : Rewrites g g' f)
    (hf : ∀ x y, g.Holds x.1 x.2 → f x = some y →
      y.2 = x.2 ∧ (y.1 = x.1 ∨ x.1.isCall = true ∧ y.1 = x.1.dropTarget)) :
    Shrinks g g' := by
  intro id ins' loc hins
  rw [h.code_eq, List.mem_filterMap] at hins
  obtain ⟨⟨ins, l⟩, hmem, hstep⟩ := hins
  obtain ⟨hplace, hcases⟩ := hf _ _ ⟨id, hmem⟩ hstep
  obtain rfl : loc = l := hplace
  exact ⟨ins, hmem, hcases⟩

/-- What stands at a place after a definition was taken away stood there before, or stands at the
place of the definition and defines nothing. -/
theorem holds_of_retires
    (hf : Retires g f loc)
    (h : Rewrites g g' f)
    {u : Loc}
    (hins : g'.Holds ins u) :
    ∃ before, g.Holds before u ∧ (u = loc ∧ ins.target? = none ∨ u ≠ loc ∧ before = ins) := by
  obtain ⟨⟨i, l⟩, hy, hfy⟩ := (h.holds_iff (x := (ins, u))).mp hins
  obtain ⟨hplace, -⟩ := hf.eq_of_eq_some hy hfy
  obtain rfl : u = l := hplace
  refine ⟨i, hy, ?_⟩
  by_cases hloc : u = loc
  · exact Or.inl ⟨hloc, (hf.gone _ _ hy hloc hfy).2.1⟩
  · rw [hf.kept (i, u) hloc] at hfy
    exact Or.inr ⟨hloc, (Prod.mk.inj (Option.some.inj hfy)).1⟩

/-- Taking a definition away leaves the instructions at other places. -/
theorem holds_of_retires_of_ne
    (hf : Retires g f loc)
    (h : Rewrites g g' f)
    {u : Loc}
    (hne : u ≠ loc)
    (hins : g.Holds ins u) :
    g'.Holds ins u :=
  (h.holds_iff (x := (ins, u))).mpr ⟨(ins, u), hins, hf.kept (ins, u) hne⟩

/-- A call that loses its result defines nothing any more. -/
theorem retires_dropTarget
    (hg : g.Indexed)
    (hins : g.Holds ins loc)
    (hcall : ins.isCall = true) :
    Retires g (modifyAt loc Instr.dropTarget) loc := by
  constructor
  · intro x hx
    simp [modifyAt, hx]
  · rintro ⟨i, l⟩ y hx hl hy
    obtain rfl : l = loc := hl
    obtain rfl : i = ins := hg.holds_unique hx hins
    obtain rfl : (i.dropTarget, l) = y := by simpa [modifyAt] using hy
    exact ⟨rfl, Instr.target?_dropTarget_of_isCall hcall, Instr.reads_dropTarget i⟩

theorem shrinks_dropTarget
    (hg : g.Indexed)
    (hins : g.Holds ins loc)
    (hcall : ins.isCall = true) :
    Shrinks g (g.modifyInstr loc fun ins => ins.dropTarget) := by
  refine shrinks_of_rewrites (Rewrites.modifyInstr hg loc _) ?_
  rintro ⟨i, l⟩ y hx hy
  by_cases hl : l = loc
  · subst hl
    obtain rfl := hg.holds_unique hins hx
    obtain rfl : (ins.dropTarget, l) = y := by simpa [modifyAt] using hy
    exact ⟨rfl, Or.inr ⟨hcall, rfl⟩⟩
  · obtain rfl : (i, l) = y := by simpa [modifyAt, hl] using hy
    exact ⟨rfl, Or.inl rfl⟩

theorem shrinks_removeInstr
    (hg : g.Indexed)
    (loc : Loc) :
    Shrinks g (g.removeInstr loc) := by
  refine shrinks_of_rewrites (Rewrites.removeInstr hg loc) fun x y _ hy => ?_
  unfold dropAt at hy
  split at hy
  · cases hy
  · obtain rfl := Option.some.inj hy
    exact ⟨rfl, Or.inl rfl⟩

theorem not_holds_removeInstr
    (hg : g.Indexed)
    (loc : Loc)
    (ins : Instr) :
    ¬ (g.removeInstr loc).Holds ins loc := by
  intro hins
  obtain ⟨y, -, hy⟩ := ((Rewrites.removeInstr hg loc).holds_iff (x := (ins, loc))).mp hins
  unfold dropAt at hy
  split at hy
  · cases hy
  · rename_i hne
    exact hne (congrArg Prod.snd (Option.some.inj hy))

/-- A definition whose links have all been dropped has none on any run. -/
theorem UpToDate.not_links
    (h : UpToDate s params stale)
    (hins : s.graph.Holds ins loc)
    (hunused : s.Undemanded ins loc) :
    ∀ v u, ¬ s.graph.Links params v loc u := by
  intro v u hlink
  have hstale : ¬ stale v u := by
    intro hstale
    obtain ⟨run, reader, hexec, -⟩ := hlink
    exact h.not_holds v u reader hstale hexec.holds
  have huses : u ∈ s.chains.uses v loc :=
    (h.mutually v loc u).mpr ((h.mem_defs_iff v loc u hstale).mpr hlink)
  rw [hunused v (hlink.target_eq h.indexed hins)] at huses
  exact List.not_mem_nil huses

/-- A definition goes that no link leads to. -/
theorem UpToDate.retire
    {moreStale : VarId → Loc → Prop}
    {removed : Nat}
    (h : UpToDate s params stale)
    (hins : s.graph.Holds ins loc)
    (hunused : s.Undemanded ins loc)
    (hf : Retires s.graph f loc)
    (hrewrites : Rewrites s.graph g' f)
    (hg' : g'.Indexed)
    (hstale : ∀ v u, stale v u → moreStale v u)
    (hmore : ∀ v u ins, moreStale v u → ¬ stale v u → ¬ g'.Holds ins u)
    (hkept : ∀ v u ins, ¬ moreStale v u → s.graph.Holds ins u → v ∈ ins.reads →
      (f (ins, u)).isSome) :
    UpToDate { graph := g', chains := s.chains, removed } params moreStale := by
  have hnone := h.not_links hins hunused
  refine ⟨hg', h.mutually, ?_, ?_, ?_⟩
  · intro v d u hnot
    rw [h.mem_defs_iff v d u fun hs => hnot (hstale v u hs), hf.links_iff hrewrites hnone]
    constructor
    · rintro ⟨run, ins, hexec, hreads, hsupplied⟩
      exact ⟨run, ins, hexec, hreads, hsupplied, hkept v u ins hnot hexec.holds hreads⟩
    · rintro ⟨run, ins, hexec, hreads, hsupplied, -⟩
      exact ⟨run, ins, hexec, hreads, hsupplied⟩
  · intro v u ins hs hins
    by_cases hold : stale v u
    · obtain ⟨ins', hins', -⟩ := holds_of_retires hf hrewrites hins
      exact h.not_holds v u ins' hold hins'
    · exact hmore v u ins hs hold hins
  · intro v d u ins' hd hins'
    obtain ⟨before, hbefore, ⟨rfl, -⟩ | ⟨-, rfl⟩⟩ := holds_of_retires hf hrewrites hins'
    · -- the place has a use, and what goes has none
      have huse : u ∈ s.chains.uses v d := (h.mutually v d u).mpr hd
      rw [hunused v (h.target_eq v d u ins hd hins)] at huse
      exact absurd huse List.not_mem_nil
    · exact h.target_eq v d u before hd hbefore

/-- The call at a place loses its result. -/
theorem UpToDate.dropTarget
    (h : UpToDate s params stale)
    (hins : s.graph.Holds ins loc)
    (hcall : ins.isCall = true)
    (hunused : s.Undemanded ins loc) :
    UpToDate { s with graph := s.graph.modifyInstr loc fun ins => ins.dropTarget }
      params stale := by
  refine h.retire hins hunused (retires_dropTarget h.indexed hins hcall)
    (Rewrites.modifyInstr h.indexed loc _) (h.indexed.modifyInstr loc _) (fun _ _ hs => hs)
    (fun _ _ _ hs hnot => absurd hs hnot) ?_
  intro v u ins _ _ _
  simp [modifyAt]

/-- The instruction at a place goes; until they are forgotten, its own links are stale. -/
theorem UpToDate.removeInstr
    (h : UpToDate s params stale)
    (hins : s.graph.Holds ins loc)
    (hunused : s.Undemanded ins loc) :
    UpToDate { s with graph := s.graph.removeInstr loc, removed := s.removed + 1 } params
      fun v u => stale v u ∨ v ∈ ins.varsRead ∧ u = loc := by
  refine h.retire hins hunused (FlowGraph.retires_dropAt s.graph loc)
    (Rewrites.removeInstr h.indexed loc) (h.indexed.removeInstr loc) (fun _ _ hs => Or.inl hs) ?_ ?_
  · rintro v u ins' (hs | ⟨-, rfl⟩) hnot hins'
    · exact hnot hs
    · exact not_holds_removeInstr h.indexed u ins' hins'
  · intro v u ins' hnot hins' hreads
    have hu : ¬ u = loc := by
      rintro rfl
      obtain rfl : ins' = ins := h.indexed.holds_unique hins' hins
      exact hnot (Or.inr ⟨Symbolic.Instr.mem_varsRead.mpr hreads, rfl⟩)
    simp [dropAt, hu]

/-- Links of a place without an instruction are forgotten. -/
theorem UpToDate.forgetUse
    {v : VarId}
    {rest : VarId → Loc → Prop}
    (h : UpToDate s params fun w u => rest w u ∨ w = v ∧ u = loc) :
    UpToDate { s with chains := s.chains.forgetUse v loc } params rest := by
  refine ⟨h.indexed, h.mutually.forgetUse v loc, ?_, ?_, ?_⟩
  · intro w d u hrest
    rw [Chains.mem_defs_forgetUse]
    by_cases hsame : w = v ∧ u = loc
    · constructor
      · exact fun hd => absurd hsame hd.2
      · rintro ⟨run, ins, hexec, -⟩
        exact absurd hexec.holds (h.not_holds w u ins (Or.inr hsame))
    · rw [h.mem_defs_iff w d u (not_or.mpr ⟨hrest, hsame⟩)]
      exact ⟨And.left, fun hd => ⟨hd, hsame⟩⟩
  · exact fun w u ins hs => h.not_holds w u ins (Or.inl hs)
  · intro w d u ins hd
    exact h.target_eq w d u ins (Chains.mem_defs_forgetUse.mp hd).1

/-- The links of one of the variables that a removed instruction read are forgotten. -/
theorem UpToDate.forgetFirst
    {v : VarId}
    {vs : List VarId}
    (h : UpToDate s params fun w u => stale w u ∨ w ∈ v :: vs ∧ u = loc) :
    UpToDate { s with chains := s.chains.forgetUse v loc } params
      fun w u => stale w u ∨ w ∈ vs ∧ u = loc := by
  have hsame : (fun w u => stale w u ∨ w ∈ v :: vs ∧ u = loc) =
      fun w u => (stale w u ∨ w ∈ vs ∧ u = loc) ∨ w = v ∧ u = loc := by
    funext w u
    simp only [List.mem_cons, eq_iff_iff]
    tauto
  exact (hsame ▸ h).forgetUse

theorem eq_nil_of_not_isUsed
    {c : Chains}
    {v : VarId}
    {d : Loc}
    (h : (!c.isUsed v d) = true) :
    c.uses v d = [] := by
  simpa [Chains.isUsed] using h

theorem unused_of_not_isUsed
    {v : VarId}
    (hused : (!s.chains.isUsed v loc) = true)
    (htarget : ∀ ins, s.graph.Holds ins loc →
      ins.target? = some v ∨ ins.target? = none ∧ ins.isCall = true) :
    s.Unused loc := by
  intro ins hins
  rcases htarget ins hins with hv | ⟨hnone, hcall⟩
  · refine ⟨fun w hw => ?_, fun hnone => by simp [hv] at hnone⟩
    rw [hv] at hw
    exact Option.some.inj hw ▸ eq_nil_of_not_isUsed hused
  · exact ⟨fun w hw => by simp [hnone] at hw, fun _ => hcall⟩

end Single

/-- A statement about prunings that every single change keeps while the chains are up to date. -/
structure Stable (params : List VarId) (M : Pruning → Prop) : Prop where
  dropTarget : ∀ {s stale loc ins}, UpToDate s params stale → M s → s.graph.Holds ins loc →
    ins.isCall = true → s.Undemanded ins loc →
    M { s with graph := s.graph.modifyInstr loc fun ins => ins.dropTarget }
  removeInstr : ∀ {s stale loc ins}, UpToDate s params stale → M s → s.graph.Holds ins loc →
    ins.target?.isSome = true → ins.hasEffect = false → s.Undemanded ins loc →
    M { s with graph := s.graph.removeInstr loc, removed := s.removed + 1 }
  forgetUse : ∀ {s stale v loc}, UpToDate s params stale → M s →
    (∀ ins, ¬ s.graph.Holds ins loc) → M { s with chains := s.chains.forgetUse v loc }

section Parts

/-- Look at the definitions that supplied a removed instruction, one after another. -/
def followDefs (remove : Pruning → Loc → Pruning) (v : VarId) (ds : List Loc) (s : Pruning) :
    Pruning :=
  ds.foldl (fun s d => if 0 ≤ d && !s.chains.isUsed v d then remove s d else s) s

/-- Forget what a removed instruction read, variable by variable. -/
def forgetReads (remove : Pruning → Loc → Pruning) (loc : Loc) (vs : List VarId) (s : Pruning) :
    Pruning :=
  vs.foldl
    (fun s v => followDefs remove v (s.chains.defs v loc)
      { s with chains := s.chains.forgetUse v loc })
    s

theorem removeDead_succ
    (depth : Nat)
    (s : Pruning)
    (loc : Loc) :
    removeDead (depth + 1) s loc =
      match s.graph.instrAt loc with
      | none => s
      | some ins =>
          if ins.isCall then
            { s with graph := s.graph.modifyInstr loc fun ins => ins.dropTarget }
          else if ins.hasEffect then
            s
          else
            forgetReads (removeDead depth) loc ins.varsRead
              { s with graph := s.graph.removeInstr loc, removed := s.removed + 1 } :=
  rfl

variable {P : Pruning → Prop} {remove remove' : Pruning → Loc → Pruning}

theorem followDefs_induction
    {v : VarId}
    (hremove : ∀ s d, P s → P (remove s d))
    (ds : List Loc)
    (h : P s) :
    P (followDefs remove v ds s) := by
  refine List.foldlRecOn ds _ h fun s hs d _ => ?_
  split
  · exact hremove s d hs
  · exact hs

theorem forgetReads_induction
    (hforget : ∀ (s : Pruning) c, P s → P { s with chains := c })
    (hremove : ∀ s d, P s → P (remove s d))
    (vs : List VarId)
    (h : P s) :
    P (forgetReads remove loc vs s) :=
  List.foldlRecOn vs _ h fun _ hs _ _ => followDefs_induction hremove _ (hforget _ _ hs)

/-- Removals that agree wherever they are called from do the same. -/
theorem forgetReads_congr
    (hforget : ∀ (s : Pruning) c, P s → P { s with chains := c })
    (hremove : ∀ s d, P s → P (remove s d))
    (hsame : ∀ s d, P s → remove s d = remove' s d)
    (vs : List VarId)
    (h : P s) :
    forgetReads remove loc vs s = forgetReads remove' loc vs s := by
  have hdefs : ∀ v ds s, P s → followDefs remove v ds s = followDefs remove' v ds s := by
    intro v ds
    induction ds with
    | nil => exact fun _ _ => rfl
    | cons d ds ih =>
        intro s hs
        unfold followDefs at ih ⊢
        rw [List.foldl_cons, List.foldl_cons]
        by_cases hd : (0 ≤ d && !s.chains.isUsed v d) = true
        · rw [if_pos hd, if_pos hd, ← hsame s d hs]
          exact ih _ (hremove s d hs)
        · rw [if_neg hd, if_neg hd]
          exact ih s hs
  induction vs generalizing s with
  | nil => rfl
  | cons v vs ih =>
      unfold forgetReads at ih ⊢
      rw [List.foldl_cons, List.foldl_cons, ← hdefs v _ _ (hforget _ _ h)]
      exact ih (followDefs_induction hremove _ (hforget _ _ h))

end Parts

section Run

variable {M : Pruning → Prop}

/-- A pruning that has become another one, with its chains up to date and a statement kept. -/
structure Kept (params : List VarId) (M : Pruning → Prop) (stale : VarId → Loc → Prop)
    (s s' : Pruning) : Prop where
  upToDate : UpToDate s' params stale
  holds : M s'
  shrinks : Shrinks s.graph s'.graph

theorem Kept.trans
    {stale' : VarId → Loc → Prop}
    {s' s'' : Pruning}
    (h : Kept params M stale s s')
    (h' : Kept params M stale' s' s'') :
    Kept params M stale' s s'' :=
  ⟨h'.upToDate, h'.holds, h.shrinks.trans h'.shrinks⟩

/-- The definitions that supplied a removed instruction are looked at one after another. -/
theorem kept_followDefs
    {remove : Pruning → Loc → Pruning}
    {v : VarId}
    (hremove : ∀ s loc, UpToDate s params stale → M s → s.Unused loc →
      Kept params M stale s (remove s loc))
    (ds : List Loc)
    (h : UpToDate s params stale)
    (hs : M s)
    (htarget : ∀ d, d ∈ ds → ∀ ins, s.graph.Holds ins d →
      ins.target? = some v ∨ ins.target? = none ∧ ins.isCall = true) :
    Kept params M stale s (followDefs remove v ds s) := by
  induction ds generalizing s with
  | nil => exact ⟨h, hs, Shrinks.refl _⟩
  | cons d ds ih =>
      rw [followDefs, List.foldl_cons]
      by_cases hd : (0 ≤ d && !s.chains.isUsed v d) = true
      · rw [if_pos hd]
        have hnext := hremove s d h hs
          (unused_of_not_isUsed (Bool.and_eq_true_iff.mp hd).2 (htarget d (by simp)))
        exact hnext.trans (ih hnext.upToDate hnext.holds fun e he =>
          hnext.shrinks.targets (htarget e (by simp [he])))
      · rw [if_neg hd]
        exact ih h hs fun e he => htarget e (by simp [he])

/-- The variables that a removed instruction read are forgotten one after another. -/
theorem Stable.forgetReads
    {remove : Pruning → Loc → Pruning}
    (hM : Stable params M)
    (hremove : ∀ s stale loc, UpToDate s params stale → M s → s.Unused loc →
      Kept params M stale s (remove s loc))
    (vs : List VarId)
    (h : UpToDate s params fun v u => stale v u ∨ v ∈ vs ∧ u = loc)
    (hs : M s)
    (hgone : ∀ ins, ¬ s.graph.Holds ins loc) :
    Kept params M stale s (Pruning.forgetReads remove loc vs s) := by
  induction vs generalizing s with
  | nil =>
      refine ⟨?_, hs, Shrinks.refl _⟩
      simpa [Pruning.forgetReads] using h
  | cons v vs ih =>
      have hforget : Kept params M (fun w u => stale w u ∨ w ∈ vs ∧ u = loc) s
          { s with chains := s.chains.forgetUse v loc } :=
        ⟨h.forgetFirst, hM.forgetUse h hs hgone, Shrinks.refl _⟩
      have hnext := kept_followDefs (v := v) (fun s loc => hremove s _ loc)
        (s.chains.defs v loc) hforget.upToDate hforget.holds
        fun d hd ins hins => Or.inl (h.target_eq v d loc ins hd hins)
      have hboth := hforget.trans hnext
      refine hboth.trans (ih hboth.upToDate hboth.holds fun ins hins => ?_)
      obtain ⟨before, hbefore, -⟩ := hboth.shrinks.holds hins
      exact hgone before hbefore

/-- A removal with all that follows from it keeps what single changes keep. -/
theorem Stable.removeDead
    (hM : Stable params M)
    (depth : Nat)
    (h : UpToDate s params stale)
    (hs : M s)
    (hunused : s.Unused loc) :
    Kept params M stale s (removeDead depth s loc) := by
  induction depth generalizing s stale loc with
  | zero => exact ⟨h, hs, Shrinks.refl _⟩
  | succ depth ih =>
      have hg := h.indexed
      rw [removeDead_succ]
      cases hins : s.graph.instrAt loc with
      | none => exact ⟨h, hs, Shrinks.refl _⟩
      | some ins =>
          have hholds := hg.instrAt_eq_some_iff.mp hins
          obtain ⟨hnone, htarget⟩ := hunused ins hholds
          simp only []
          split
          · rename_i hcall
            exact ⟨h.dropTarget hholds hcall hnone, hM.dropTarget h hs hholds hcall hnone,
              shrinks_dropTarget hg hholds hcall⟩
          · rename_i hcall
            split
            · exact ⟨h, hs, Shrinks.refl _⟩
            · rename_i heffect
              have hsome : ins.target?.isSome = true := by
                rw [Option.isSome_iff_ne_none]
                exact fun hnone => hcall (htarget hnone)
              have hremoved : Kept params M (fun v u => stale v u ∨ v ∈ ins.varsRead ∧ u = loc) s
                  { s with graph := s.graph.removeInstr loc, removed := s.removed + 1 } :=
                ⟨h.removeInstr hholds hnone,
                  hM.removeInstr h hs hholds hsome (by simpa using heffect) hnone,
                  shrinks_removeInstr hg loc⟩
              exact hremoved.trans (hM.forgetReads (fun s stale loc => ih) ins.varsRead
                hremoved.upToDate hremoved.holds (not_holds_removeInstr hg loc))

theorem Stable.removeUnused
    (hM : Stable params M)
    (h : UpToDate s params stale)
    (hs : M s)
    (loc : Loc) :
    Kept params M stale s (s.removeUnused loc) := by
  unfold Pruning.removeUnused
  cases htarget : (s.graph.instrAt loc).bind Instr.target? with
  | none => exact ⟨h, hs, Shrinks.refl _⟩
  | some v =>
      obtain ⟨ins, hins, hv⟩ := Option.bind_eq_some_iff.mp htarget
      simp only []
      split
      · exact ⟨h, hs, Shrinks.refl _⟩
      · rename_i hused
        refine hM.removeDead _ h hs (unused_of_not_isUsed (by simpa using hused) ?_)
        intro ins' hins'
        exact Or.inl (h.indexed.holds_unique (h.indexed.instrAt_eq_some_iff.mp hins) hins' ▸ hv)

/-- No link is stale. -/
theorem upToDate_iff_tracks :
    UpToDate s params (fun _ _ => False) ↔ s.chains.Tracks s.graph params := by
  constructor
  · intro h
    exact ⟨h.indexed, h.mutually, fun v d u => h.mem_defs_iff v d u id⟩
  · intro h
    exact ⟨h.indexed, h.mutually, fun v d u _ => h.mem_defs_iff v d u,
      fun _ _ _ hfalse => hfalse.elim,
      fun v d u ins hd hins => ((h.mem_defs_iff v d u).mp hd).target_eq h.indexed hins⟩

/-- When all dead code has been removed, what single changes keep still holds, and the chains are
those of the graph that is left. -/
theorem Stable.run
    {c : Chains}
    (hM : Stable params M)
    (h : c.Tracks g params)
    (hs : M { graph := g, chains := c, removed := 0 }) :
    Kept params M (fun _ _ => False) { graph := g, chains := c, removed := 0 } (run g c) := by
  have hfold : ∀ {α : Type} (step : Pruning → α → Pruning),
      (∀ s a, UpToDate s params (fun _ _ => False) → M s →
        Kept params M (fun _ _ => False) s (step s a)) →
      ∀ (xs : List α) (s : Pruning), UpToDate s params (fun _ _ => False) → M s →
        Kept params M (fun _ _ => False) s (xs.foldl step s) := by
    intro α step hstep xs
    induction xs with
    | nil => exact fun s h hs => ⟨h, hs, Shrinks.refl _⟩
    | cons x xs ih =>
        intro s h hs
        have hnext := hstep s x h hs
        exact hnext.trans (ih _ hnext.upToDate hnext.holds)
  exact hfold _ (fun s id h hs => hfold _ (fun s loc h hs => hM.removeUnused h hs loc) _ s h hs)
    g.order _ (upToDate_iff_tracks.mpr h) hs

end Run

end Pruning
end DalvikDecompiler
