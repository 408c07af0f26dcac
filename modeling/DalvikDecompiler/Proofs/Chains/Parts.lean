import DalvikDecompiler.Proofs.Chains.Splitting

/-!
# What splitting makes of variables

**Input.** A graph with its variables and with the chains of its runs.

A variable of a register is divided into parts.  Definitions that a chain of
shared uses connects make up one part, and what they supply reads that part.
Parts are given new variables one after another.  A part with an argument
stays with the variable of the argument, and so do unused definitions and
reads without a definition.

**Results.**
* `Naming.separate`: what holds of the names so far holds when another web has
  been given a variable.
* `run_divides`: when all webs have been separated, two used definitions of a
  register have one name exactly if they are connected, and nothing else has
  changed.
-/

namespace DalvikDecompiler

open Symbolic (VarId Variables Expr Instr)
open Web (Component Connected IsWeb)

/-- What the definitions and the reads of each variable are called at each place. -/
structure Parts where
  defined : VarId → Loc → VarId
  read : VarId → Loc → VarId

namespace Parts

/-- Every variable is called by its own name. -/
def whole : Parts :=
  { defined := fun v _ => v, read := fun v _ => v }

/-- Give the instruction of a step the names of its place. -/
def step (p : Parts) (x : RunStep) : Option RunStep :=
  some (x.1.relabel (p.defined · x.2) (p.read · x.2), x.2)

/-- Give what a web holds of a variable another name. -/
def rename (p : Parts) (old new : VarId) (web : Web) : Parts where
  defined v d := if d ∈ web.defs ∧ p.defined v d = old then new else p.defined v d
  read v u := if u ∈ web.uses ∧ p.read v u = old then new else p.read v u

/-- A graph has become another one by dividing the variables of registers into parts. -/
structure Divides (p : Parts) (g g' : FlowGraph) (params : List VarId) (vars : Variables) :
    Prop where
  /-- Instructions have other names in them, and nothing else has changed. -/
  rewrites : g.Rewrites g' p.step
  /-- Each definition supplies what it supplied, and goes by the name that is read there. -/
  links_iff : ∀ w d u, g'.Links params w d u ↔ ∃ v, g.Links params v d u ∧ p.defined v d = w
  read_eq : ∀ v d u, g.Links params v d u → p.read v u = p.defined v d
  /-- Used definitions of a register have one name exactly if shared uses connect them. -/
  defined_eq_iff : ∀ v d e, (vars.get? v).any Symbolic.Variable.isRegister = true →
    (∃ u, g.Links params v d u) → (∃ u, g.Links params v e u) →
    (p.defined v d = p.defined v e ↔ Connected (g.Links params v) d e)
  /-- What is connected with an argument goes by the name of the argument. -/
  argument : ∀ v d e, e < 0 → Connected (g.Links params v) d e → p.defined v d = v
  /-- Other names are new, and each of them is a name for one variable. -/
  fresh : ∀ v d, p.defined v d ≠ v → vars.size ≤ p.defined v d
  unique : ∀ v d w e, v < vars.size → w < vars.size → p.defined v d = p.defined w e → v = w
  /-- Only used definitions, supplied reads and registers are given other names. -/
  unused : ∀ v d, (¬ ∃ u, g.Links params v d u) → p.defined v d = v
  unsupplied : ∀ v u, (¬ ∃ d, g.Links params v d u) → p.read v u = v
  other : ∀ v, (vars.get? v).any Symbolic.Variable.isRegister = false →
    ∀ l, p.defined v l = v ∧ p.read v l = v

end Parts

namespace Splitting

variable {s s₀ : Splitting} {params : List VarId} {p : Parts} {v w : VarId} {d e u : Loc}

/-- What holds of the names that some webs have been given: of the splitting at the start, whose
chains are those of its graph, another one is left. -/
structure Naming (s₀ : Splitting) (params : List VarId) (s : Splitting) (p : Parts) : Prop where
  rewrites : s₀.graph.Rewrites s.graph p.step
  links_iff : ∀ w d u, s.graph.Links params w d u ↔
    ∃ v, s₀.graph.Links params v d u ∧ p.defined v d = w
  read_eq : ∀ v d u, s₀.graph.Links params v d u → p.read v u = p.defined v d
  size_le : s₀.vars.size ≤ s.vars.size
  changed : ∀ v d, p.defined v d ≠ v →
    (s₀.vars.size ≤ p.defined v d ∧ p.defined v d < s.vars.size) ∧
      (s₀.vars.get? v).any Symbolic.Variable.isRegister = true ∧
      (∃ u, s₀.graph.Links params v d u) ∧
      ∀ e, Connected (s₀.graph.Links params v) d e → 0 ≤ e
  supplied : ∀ v u, p.read v u ≠ v → ∃ d, s₀.graph.Links params v d u
  unique : ∀ v d w e, v < s₀.vars.size → w < s₀.vars.size → s₀.vars.size ≤ p.defined v d →
    p.defined v d = p.defined w e → v = w ∧ Connected (s₀.graph.Links params v) d e

theorem naming_whole
    (s : Splitting)
    (params : List VarId) :
    Naming s params s .whole := by
  refine ⟨⟨rfl, rfl, fun id => ?_⟩, by simp [Parts.whole], fun _ _ _ _ => rfl, Nat.le_refl _,
    fun _ _ h => absurd rfl h, fun _ _ h => absurd rfl h, fun v _ _ _ hv _ hle _ =>
      absurd hv (Nat.not_lt.mpr hle)⟩
  have hstep : ∀ x, x ∈ s.graph.code id → Parts.whole.step x = some x := by
    intro x _
    simp [Parts.step, Parts.whole]
  rw [List.filterMap_congr hstep]
  exact List.filterMap_some.symm

/-- Links of the chains at the start, in terms of runs. -/
theorem connected_of_tracks
    (h : s₀.chains.Tracks s₀.graph params)
    (v : VarId) :
    (fun d u => d ∈ s₀.chains.defs v u) = s₀.graph.Links params v := by
  funext d u
  exact propext (h.mem_defs_iff v d u)

theorem Naming.defined_eq_of_lt
    (h : Naming s₀ params s p)
    (hw : w < s₀.vars.size)
    (heq : p.defined v d = w) :
    v = w := by
  by_contra hne
  have hle := (h.changed v d (by rwa [heq, ne_comm])).1.1
  rw [heq] at hle
  exact Nat.not_lt.mpr hle hw

section Rename

variable {web : Web}

/-- A link of a variable that is renamed. -/
theorem Naming.rename_links_iff
    (h : Naming s₀ params s p)
    (hs : s.Ready params)
    (hv : v < s.vars.size)
    (hweb : IsWeb s.chains v web)
    (hnonneg : ∀ d, d ∈ web.defs → 0 ≤ d) :
    (s.rename v s.vars.size web).graph.Links params w d u ↔
      ∃ x, s₀.graph.Links params x d u ∧ (p.rename v s.vars.size web).defined x d = w := by
  have hsep := hs.separable hv hweb hnonneg
  have hclosed := hsep.closed d u
  have hfresh : ¬ s.graph.Links params s.vars.size d u := by
    rintro ⟨run, ins, hexec, hreads, -⟩
    exact (hsep.fresh ins u hexec.holds).1 hreads
  rw [hsep.links_iff (renaming_renameAt hsep.ne web)
    (rename_rewrites web hs.tracks.indexed hsep.ne).2]
  simp only [Parts.rename]
  constructor
  · rintro (⟨rfl, hu, hlink⟩ | ⟨rfl, hu, hlink⟩ | ⟨hold, -, hlink⟩)
    · obtain ⟨x, hx, heq⟩ := (h.links_iff v d u).mp hlink
      exact ⟨x, hx, if_pos ⟨(hclosed hlink).mpr hu, heq⟩⟩
    · obtain ⟨x, hx, heq⟩ := (h.links_iff w d u).mp hlink
      exact ⟨x, hx, by rw [if_neg fun hd => hu ((hclosed hlink).mp hd.1), heq]⟩
    · obtain ⟨x, hx, heq⟩ := (h.links_iff w d u).mp hlink
      exact ⟨x, hx, by rw [if_neg fun hd => hold (heq.symm.trans hd.2), heq]⟩
  · rintro ⟨x, hx, heq⟩
    have hlink : s.graph.Links params (p.defined x d) d u := (h.links_iff _ d u).mpr ⟨x, hx, rfl⟩
    by_cases hsame : p.defined x d = v
    · rw [hsame] at hlink heq
      by_cases hd : d ∈ web.defs
      · rw [if_pos ⟨hd, rfl⟩] at heq
        exact Or.inl ⟨heq.symm, (hclosed hlink).mp hd, hlink⟩
      · rw [if_neg fun hd' => hd hd'.1] at heq
        exact Or.inr (Or.inl ⟨heq.symm, fun hu => hd ((hclosed hlink).mpr hu), hlink⟩)
    · rw [if_neg fun hd' => hsame hd'.2] at heq
      subst heq
      exact Or.inr (Or.inr ⟨hsame, fun heq => hfresh (heq ▸ hlink), hlink⟩)

/-- Names in the code when a web is given another one. -/
theorem Naming.rename_rewrites
    (h : Naming s₀ params s p)
    (hs : s.Ready params)
    (hv : v < s.vars.size)
    (hweb : IsWeb s.chains v web)
    (hnonneg : ∀ d, d ∈ web.defs → 0 ≤ d) :
    s₀.graph.Rewrites (s.rename v s.vars.size web).graph (p.rename v s.vars.size web).step := by
  have hsep := hs.separable hv hweb hnonneg
  have hboth := h.rewrites.trans
    (Splitting.rename_rewrites web hs.tracks.indexed hsep.ne).2
  refine ⟨hboth.toDigraph_eq, hboth.order_eq, fun id => ?_⟩
  rw [hboth.code_eq]
  refine List.filterMap_congr fun x hx => ?_
  have htarget : x.2 ∈ web.defs →
      (x.1.relabel (p.defined · x.2) (p.read · x.2)).target? = some v := fun hd =>
    hsep.target_eq _ x.2 hd
      ((h.rewrites.holds_iff (x := (_, x.2))).mpr ⟨x, ⟨id, hx⟩, rfl⟩)
  exact congrArg (fun ins => some (ins, x.2))
    (Instr.relabel_of_rename (x.2 ∈ web.defs) (x.2 ∈ web.uses) htarget)

/-- A web of a variable that exists at the start is given another name. -/
theorem Naming.rename
    {s' : Splitting}
    (h : Naming s₀ params s p)
    (h₀ : s₀.chains.Tracks s₀.graph params)
    (hs : s.Ready params)
    (hv : v < s₀.vars.size)
    (hregister : (s₀.vars.get? v).any Symbolic.Variable.isRegister = true)
    (hcomponent : Component s₀.chains v web)
    (hweb : IsWeb s.chains v web)
    (hnonneg : ∀ d, d ∈ web.defs → 0 ≤ d)
    (hgraph : s'.graph = (s.rename v s.vars.size web).graph)
    (hsize : s'.vars.size = s.vars.size + 1) :
    Naming s₀ params s' (p.rename v s.vars.size web) := by
  have hlt : v < s.vars.size := Nat.lt_of_lt_of_le hv h.size_le
  have hlinks := connected_of_tracks h₀ v
  have hconnected := hcomponent.connected
  have hclosed := hcomponent.closed
  have hlinked := hcomponent.linked
  have hsupplied := hcomponent.supplied
  simp only [hlinks] at hconnected
  simp only [h₀.mem_defs_iff] at hclosed hlinked hsupplied
  refine ⟨hgraph ▸ h.rename_rewrites hs hlt hweb hnonneg,
    fun w d u => hgraph ▸ h.rename_links_iff hs hlt hweb hnonneg, ?_, ?_, ?_, ?_, ?_⟩
  · intro x d u hx
    have hsame := h.read_eq x d u hx
    have hlink : s.graph.Links params (p.defined x d) d u := (h.links_iff _ d u).mpr ⟨x, hx, rfl⟩
    simp only [Parts.rename, hsame]
    by_cases heq : p.defined x d = v
    · rw [heq, ← hs.tracks.mem_defs_iff] at hlink
      simp only [heq, hweb.closed d u hlink]
    · simp [heq]
  · rw [hsize]
    exact Nat.le_succ_of_le h.size_le
  · intro x d hne
    rw [hsize]
    by_cases hd : d ∈ web.defs ∧ p.defined x d = v
    · obtain rfl := h.defined_eq_of_lt hv hd.2
      simp only [Parts.rename, if_pos hd]
      exact ⟨⟨h.size_le, Nat.lt_succ_self _⟩, hregister, hlinked d hd.1,
        fun e he => hnonneg e ((he.iff hclosed).mp hd.1)⟩
    · simp only [Parts.rename, if_neg hd] at hne ⊢
      obtain ⟨hrange, hrest⟩ := h.changed x d hne
      exact ⟨⟨hrange.1, Nat.lt_succ_of_lt hrange.2⟩, hrest⟩
  · intro x u hne
    by_cases hx : p.read x u = x
    · simp only [Parts.rename, hx] at hne
      split at hne
      · rename_i hu
        exact hu.2 ▸ hsupplied u hu.1
      · exact absurd rfl hne
    · exact h.supplied x u hx
  · intro x d y e hx hy hle heq
    have hbelow : ∀ z e, z < s₀.vars.size → p.defined z e ≠ s.vars.size := by
      intro z e hz hsame
      by_cases hkept : p.defined z e = z
      · rw [hkept] at hsame
        exact absurd h.size_le (Nat.not_le.mpr (hsame ▸ hz))
      · exact absurd hsame (Nat.ne_of_lt (h.changed z e hkept).1.2)
    simp only [Parts.rename] at hle heq
    by_cases hd : d ∈ web.defs ∧ p.defined x d = v <;>
      by_cases he : e ∈ web.defs ∧ p.defined y e = v
    · obtain rfl := h.defined_eq_of_lt hv hd.2
      exact ⟨(h.defined_eq_of_lt hv he.2).symm, hconnected d e hd.1 he.1⟩
    · rw [if_pos hd, if_neg he] at heq
      exact absurd heq.symm (hbelow y e hy)
    · rw [if_neg hd, if_pos he] at heq
      exact absurd heq (hbelow x d hx)
    · rw [if_neg hd, if_neg he] at heq
      rw [if_neg hd] at hle
      exact h.unique x d y e hx hy hle heq

end Rename

/-- A web that waits is given a variable of its own, or has an argument. -/
theorem Naming.separate
    {task : Task}
    (h : Naming s₀ params s p)
    (h₀ : s₀.chains.Tracks s₀.graph params)
    (hs : s.Ready params)
    (hv : task.1 < s₀.vars.size)
    (hregister : (s₀.vars.get? task.1).any Symbolic.Variable.isRegister = true)
    (hcomponent : Component s₀.chains task.1 task.2.1)
    (hweb : IsWeb s.chains task.1 task.2.1) :
    ∃ p', Naming s₀ params (Splitting.separate task.1 s task.2) p' ∧
      (∀ v d, p.defined v d ≠ v → p'.defined v d ≠ v) ∧
      ((∀ d, d ∈ task.2.1.defs → 0 ≤ d) →
        ∀ d, d ∈ task.2.1.defs → p'.defined task.1 d ≠ task.1) := by
  rcases separate_cases s task with ⟨⟨e, he, hneg⟩, hsame⟩ | ⟨hnonneg, hgraph, -, hsize, -⟩
  · rw [hsame]
    exact ⟨p, h, fun _ _ hne => hne, fun hall => absurd (hall e he) (Int.not_le.mpr hneg)⟩
  · have hnew : s.vars.size ≠ task.1 := Nat.ne_of_gt (Nat.lt_of_lt_of_le hv h.size_le)
    refine ⟨_, h.rename h₀ hs hv hregister hcomponent hweb hnonneg hgraph hsize, ?_, ?_⟩
    · intro x d hne
      simp only [Parts.rename]
      split
      · rename_i hd
        rw [h.defined_eq_of_lt hv hd.2]
        exact hnew
      · exact hne
    · intro _ d hd
      simp only [Parts.rename]
      split
      · exact hnew
      · rename_i hnot
        exact fun heq => hnot ⟨hd, heq⟩

/-- All webs that wait are given variables, apart from those with an argument. -/
theorem Naming.foldl_separate
    {tasks : List Task}
    (h : Naming s₀ params s p)
    (h₀ : s₀.chains.Tracks s₀.graph params)
    (hs : s.Ready params)
    (hwaiting : s.Waiting tasks)
    (htasks : ∀ task, task ∈ tasks → task.1 < s₀.vars.size ∧
      (s₀.vars.get? task.1).any Symbolic.Variable.isRegister = true ∧
      Component s₀.chains task.1 task.2.1) :
    ∃ p', Naming s₀ params
        (tasks.foldl (fun s task => Splitting.separate task.1 s task.2) s) p' ∧
      (∀ v d, p.defined v d ≠ v → p'.defined v d ≠ v) ∧
      ∀ task, task ∈ tasks → (∀ d, d ∈ task.2.1.defs → 0 ≤ d) →
        ∀ d, d ∈ task.2.1.defs → p'.defined task.1 d ≠ task.1 := by
  induction tasks generalizing s p with
  | nil => exact ⟨p, h, fun _ _ hne => hne, by simp⟩
  | cons task tasks ih =>
      obtain ⟨hv, hregister, hcomponent⟩ := htasks task (by simp)
      obtain ⟨p₁, h₁, hkept₁, hdone⟩ := h.separate h₀ hs hv hregister hcomponent
        (hwaiting.isWeb task (by simp))
      obtain ⟨hs', hwaiting', -⟩ := hs.separate hwaiting
      obtain ⟨p₂, h₂, hkept₂, hrest⟩ := ih h₁ hs' hwaiting' fun x hx => htasks x (by simp [hx])
      refine ⟨p₂, h₂, fun v d hne => hkept₂ v d (hkept₁ v d hne), fun x hx hnonneg d hd => ?_⟩
      rcases List.mem_cons.mp hx with rfl | hx
      · exact hkept₂ _ d (hdone hnonneg d hd)
      · exact hrest x hx hnonneg d hd

/-- A variable has at most one linked argument. -/
theorem argument_unique
    {g : FlowGraph}
    {u' : Loc}
    (hg : g.Indexed)
    (hnodup : params.Nodup)
    (hd : g.Links params v d u)
    (he : g.Links params v e u')
    (hdneg : d < 0)
    (heneg : e < 0) :
    d = e := by
  have hargument : ∀ l u, g.Links params v l u → l < 0 →
      ∃ index, params[index]? = some v ∧ l = argumentLoc index := by
    rintro l u ⟨run, ins, hexec, -, hlast | ⟨-, hargument⟩⟩ hneg
    · obtain ⟨before, hmem, -⟩ := exists_mem_of_lastDefinition hlast
      exact absurd (hg.nonneg_of_holds (hexec.holds_of_mem hmem)) (Int.not_le.mpr hneg)
    · exact mem_argumentSites.mp hargument
  obtain ⟨i, hi, rfl⟩ := hargument d u hd hdneg
  obtain ⟨j, hj, rfl⟩ := hargument e u' he heneg
  obtain ⟨hlt, -⟩ := List.getElem?_eq_some_iff.mp hi
  rw [(List.getElem?_inj hlt hnodup).mp (hi.trans hj.symm)]

/-- Used definitions that keep the name of their variable are in one web. -/
theorem connected_of_kept
    (h : s.Ready params)
    (hnodup : params.Nodup)
    (hall : Web.Separated s.chains s.vars (Web.all s.chains s.vars))
    (hdone : ∀ task, task ∈ tasks s.several → (∀ d, d ∈ task.2.1.defs → 0 ≤ d) →
      ∀ d, d ∈ task.2.1.defs → p.defined task.1 d ≠ task.1)
    (hd : Web.Covers (Web.all s.chains s.vars) (v, d))
    (he : Web.Covers (Web.all s.chains s.vars) (v, e))
    (hkeptd : p.defined v d = v)
    (hkepte : p.defined v e = v) :
    Connected (s.graph.Links params v) d e := by
  obtain ⟨webs, hentry, web, hweb, hdmem⟩ := hd
  obtain ⟨webs', hentry', web', hweb', hemem⟩ := he
  obtain rfl : webs = webs' := by
    rw [OrderedMap.mem_iff_lookup_eq_some hall.nodup] at hentry hentry'
    exact Option.some.inj (hentry.symm.trans hentry')
  have hcomponent := hall.component _ hentry web hweb
  have hcomponent' := hall.component _ hentry web' hweb'
  rw [← connected_of_tracks h.tracks v]
  by_cases hlength : 2 ≤ webs.length
  · -- a web that keeps its name has an argument, and the variable has only one
    have hargument : ∀ web, web ∈ webs → ∀ d, d ∈ web.defs → p.defined v d = v →
        ∃ a, a ∈ web.defs ∧ a < 0 := by
      intro web hweb d hd hkept
      by_contra hnone
      obtain ⟨i, hi⟩ := List.mem_iff_getElem?.mp hweb
      refine hdone (v, web, i) (List.mem_flatMap.mpr ⟨_, List.mem_filter.mpr ⟨hentry, by simpa⟩,
        List.mem_map.mpr ⟨(web, i), List.mem_zipIdx_iff_getElem?.mpr hi, rfl⟩⟩) ?_ d hd hkept
      exact fun a ha => Int.not_lt.mp fun hneg => hnone ⟨a, ha, hneg⟩
    obtain ⟨a, ha, haneg⟩ := hargument web hweb d hdmem hkeptd
    obtain ⟨b, hb, hbneg⟩ := hargument web' hweb' e hemem hkepte
    obtain ⟨u, hu⟩ := hcomponent.linked a ha
    obtain ⟨u', hu'⟩ := hcomponent'.linked b hb
    rw [h.tracks.mem_defs_iff] at hu hu'
    obtain rfl := argument_unique h.tracks.indexed hnodup hu hu' haneg hbneg
    exact (hcomponent.connected d a hdmem ha).trans (hcomponent'.connected a e hb hemem)
  · obtain rfl : web = web' := by
      match webs, hlength with
      | [], _ => simp at hweb
      | [x], _ => rw [List.mem_singleton.mp hweb, List.mem_singleton.mp hweb']
      | x :: y :: rest, hlength => simp at hlength
    exact hcomponent.connected d e hdmem hemem

/-- **Variables are divided into connected parts.**  When all webs have been separated, every
definition supplies what it supplied before.  Used definitions of a register have one name exactly
if a chain of shared uses connects them; it is the name that is read where they are used, and the
old one if an argument is among them.  Nothing else has changed. -/
theorem run_divides
    (h : s.Ready params)
    (hused : s.chains.Occupied)
    (hnodup : params.Nodup) :
    ∃ p : Parts, p.Divides s.graph (run s).2.graph params s.vars := by
  obtain ⟨hall, hcovers⟩ := Web.all_separated s.vars h.tracks.mutually
    fun _ hsite => hused.linked h.tracks.mutually hsite
  have hseveral := several_separated hall
  have hwaiting := waiting_tasks h hseveral
  have htasks : ∀ task, task ∈ tasks s.several → task.1 < s.vars.size ∧
      (s.vars.get? task.1).any Symbolic.Variable.isRegister = true ∧
      Component s.chains task.1 task.2.1 := by
    intro task htask
    obtain ⟨entry, hentry, hmem⟩ := List.mem_flatMap.mp htask
    obtain ⟨web, hweb, rfl⟩ := List.mem_map.mp hmem
    exact ⟨hwaiting.lt_size _ htask, hseveral.register entry hentry,
      hseveral.component entry hentry _
        (List.mem_of_getElem? (List.mem_zipIdx_iff_getElem?.mp hweb))⟩
  obtain ⟨p, hp, -, hdone⟩ :=
    (naming_whole s params).foldl_separate h.tracks h hwaiting htasks
  rw [← run_eq_foldl] at hp
  have hsame : ∀ v d e, Connected (s.graph.Links params v) d e → p.defined v d = p.defined v e := by
    intro v d e hconnected
    induction hconnected with
    | refl => rfl
    | tail _ hshared ih =>
        obtain ⟨u, hd, he⟩ := hshared
        rw [ih, ← hp.read_eq v _ u hd, hp.read_eq v _ u he]
  have hfresh : ∀ v d, p.defined v d ≠ v → s.vars.size ≤ p.defined v d :=
    fun v d hne => (hp.changed v d hne).1.1
  refine ⟨p, hp.rewrites, hp.links_iff, hp.read_eq, ?_, ?_, hfresh, ?_, ?_, ?_, ?_⟩
  · intro v d e hregister hd he
    refine ⟨fun heq => ?_, hsame v d e⟩
    have hcovered : ∀ d, (∃ u, s.graph.Links params v d u) →
        Web.Covers (Web.all s.chains s.vars) (v, d) := by
      rintro d ⟨u, hu⟩
      rw [← h.tracks.mem_defs_iff, ← h.tracks.mutually] at hu
      obtain ⟨locs, hentry, -⟩ := LinkMap.exists_of_mem_linked hu
      exact hcovers (v, d) (List.mem_mergeSort.mpr (List.mem_map.mpr ⟨_, hentry, rfl⟩)) hregister
    by_cases hd' : p.defined v d = v
    · exact connected_of_kept h hnodup hall hdone (hcovered d hd) (hcovered e he) hd'
        (heq.symm.trans hd')
    · obtain ⟨u, run, ins, hexec, hreads, -⟩ := hd
      have hv := (h.bounded ins u hexec.holds).1 v hreads
      exact (hp.unique v d v e hv hv (hfresh v d hd') heq).2
  · intro v d e hneg hconnected
    by_contra hne
    exact absurd ((hp.changed v d hne).2.2.2 e hconnected) (Int.not_le.mpr hneg)
  · intro v d w e hv hw heq
    by_cases hle : s.vars.size ≤ p.defined v d
    · exact (hp.unique v d w e hv hw hle heq).1
    · have hvd : p.defined v d = v := by
        by_contra hne
        exact hle (hfresh v d hne)
      have hwe : p.defined w e = w := by
        by_contra hne
        exact hle (heq ▸ hfresh w e hne)
      rw [← hvd, heq, hwe]
  · intro v d hnone
    by_contra hne
    exact hnone (hp.changed v d hne).2.2.1
  · intro v u hnone
    by_contra hne
    exact hnone (hp.supplied v u hne)
  · intro v hregister l
    have hdefined : ∀ d, p.defined v d = v := by
      intro d
      by_contra hne
      rw [(hp.changed v d hne).2.1] at hregister
      cases hregister
    refine ⟨hdefined l, ?_⟩
    by_contra hne
    obtain ⟨d, hd⟩ := hp.supplied v l hne
    exact hne ((hp.read_eq v d l hd).trans (hdefined d))

end Splitting
end DalvikDecompiler
