import DalvikDecompiler.Proofs.Chains.Renaming
import DalvikDecompiler.Proofs.Symbolic.Substitution

/-!
# Chains through the splitting of variables

**Input.** A graph with its variables and with the chains of its runs.

Webs are separated one after another.  A separated web leaves those that wait
closed, because webs of one variable have no definition in common.

**Results.**
* `Ready.rename`: the chains track the graph when a web has another variable.
* `run_tracks`: they do when all webs have been separated.
-/

namespace DalvikDecompiler

open Symbolic (VarId Variables Expr Instr)

namespace Chains

variable {c : Chains}

/-- Every definition with an entry has a use. -/
def Occupied (c : Chains) : Prop :=
  ∀ site, site ∈ c.usesAt.map Prod.fst → ∃ u, u ∈ c.uses site.1 site.2

theorem Occupied.link
    (h : c.Occupied)
    (v : VarId)
    (d u : Loc) :
    (c.link v d u).Occupied := by
  rintro ⟨w, e⟩ hsite
  simp only [Chains.link, LinkMap.add, OrderedMap.keys_insert, OrderedSet.mem_insert] at hsite
  rcases hsite with hsite | heq
  · obtain ⟨x, hx⟩ := h _ hsite
    exact ⟨x, mem_uses_link.mpr (Or.inl hx)⟩
  · obtain ⟨rfl, rfl⟩ := Prod.mk.inj heq
    exact ⟨u, mem_uses_link.mpr (Or.inr ⟨rfl, rfl, rfl⟩)⟩

theorem occupied_ofGraph
    (g : FlowGraph)
    (params : List VarId) :
    (ofGraph g params).Occupied := by
  refine List.foldlRecOn _ _ (by simp [Occupied, empty]) fun c hc id _ => ?_
  refine List.foldlRecOn _ _ hc fun c hc entry _ => ?_
  refine List.foldlRecOn _ _ hc fun c hc v _ => ?_
  exact List.foldlRecOn _ _ hc fun c hc d _ => hc.link v d _

theorem Occupied.linked
    (h : c.Occupied)
    (hc : c.Mutual)
    {site : DefSite}
    (hsite : site ∈ c.definitionsInUse) :
    ∃ u, site.2 ∈ c.defs site.1 u := by
  obtain ⟨u, hu⟩ := h site (List.mem_mergeSort.mp hsite)
  exact ⟨u, (hc site.1 site.2 u).mp hu⟩

end Chains

namespace Splitting

variable {s : Splitting} {params : List VarId} {old new v : VarId} {web : Web}

/-- A state of the splitting whose chains track its graph and whose new variables are new. -/
structure Ready (s : Splitting) (params : List VarId) : Prop where
  tracks : s.chains.Tracks s.graph params
  bounded : s.graph.Bounded s.vars.size
  params_lt : ∀ v, v ∈ params → v < s.vars.size

theorem rename_rewrites
    (web : Web)
    (hg : s.graph.Indexed)
    (hne : old ≠ new) :
    (s.rename old new web).graph.Indexed ∧
      s.graph.Rewrites (s.rename old new web).graph (renameAt old new web) := by
  obtain ⟨hg₁, hrewrites₁⟩ := FlowGraph.Rewrites.foldl_modifyInstr hg
    (fun ins => ins.replaceTarget new) (fun i => by cases i <;> rfl) web.defs
  obtain ⟨hg₂, hrewrites₂⟩ := FlowGraph.Rewrites.foldl_modifyInstr hg₁
    (fun ins => ins.substitute old (.var new))
    (fun i => Instr.substitute_substitute_var hne i) web.uses
  exact ⟨hg₂, hrewrites₁.trans hrewrites₂⟩

/-- A web with places of instructions can be given a variable behind all others. -/
theorem Ready.separable
    (h : s.Ready params)
    (hv : v < s.vars.size)
    (hweb : Web.IsWeb s.chains v web)
    (hnonneg : ∀ d, d ∈ web.defs → 0 ≤ d) :
    Separable s.graph params v s.vars.size web := by
  refine ⟨h.tracks.indexed, Nat.ne_of_lt hv, ?_, ?_, ?_, hnonneg, ?_⟩
  · intro ins loc hins
    obtain ⟨hreads, htarget⟩ := h.bounded ins loc hins
    exact ⟨fun hr => Nat.lt_irrefl _ (hreads _ hr), fun ht => Nat.lt_irrefl _ (htarget _ ht)⟩
  · exact fun hparam => Nat.lt_irrefl _ (h.params_lt _ hparam)
  · exact fun d u hlink => hweb.closed d u ((h.tracks.mem_defs_iff v d u).mpr hlink)
  · intro ins d hd hins
    obtain ⟨u, hu⟩ := hweb.linked d hd
    exact ((h.tracks.mem_defs_iff v d u).mp hu).target_eq h.tracks.indexed hins

/-- The links after a web has been given a variable behind all others. -/
theorem Ready.mem_defs_rename
    (h : s.Ready params)
    (hv : v < s.vars.size)
    (hweb : Web.IsWeb s.chains v web) :
    (s.rename v s.vars.size web).chains.Mutual ∧
      ∀ w d u, d ∈ (s.rename v s.vars.size web).chains.defs w u ↔
        (d ∈ s.chains.defs w u ∧ ¬ (w = v ∧ d ∈ web.defs)) ∨
          (w = s.vars.size ∧ d ∈ web.defs ∧ d ∈ s.chains.defs v u) := by
  refine Chains.mem_foldl_reassign h.tracks.mutually (Nat.ne_of_lt hv) hweb.nodup fun d _ => ?_
  refine List.eq_nil_iff_forall_not_mem.mpr fun u hu => ?_
  rw [h.tracks.mutually, h.tracks.mem_defs_iff] at hu
  obtain ⟨run, ins, hexec, hreads, -⟩ := hu
  exact Nat.lt_irrefl _ ((h.bounded ins u hexec.holds).1 _ hreads)

theorem Ready.rename
    (h : s.Ready params)
    (hv : v < s.vars.size)
    (hweb : Web.IsWeb s.chains v web)
    (hnonneg : ∀ d, d ∈ web.defs → 0 ≤ d) :
    (s.rename v s.vars.size web).chains.Tracks (s.rename v s.vars.size web).graph params ∧
      (s.graph.Defined params → (s.rename v s.vars.size web).graph.Defined params) ∧
      (s.rename v s.vars.size web).graph.Bounded (s.vars.size + 1) := by
  have hsep := h.separable hv hweb hnonneg
  obtain ⟨hindexed, hrewrites⟩ := rename_rewrites web h.tracks.indexed hsep.ne
  have hf := renaming_renameAt hsep.ne web
  obtain ⟨hmutual, hmem⟩ := h.mem_defs_rename hv hweb
  refine ⟨⟨hindexed, hmutual, fun w d u => ?_⟩, hsep.defined_renamed hf hrewrites, ?_⟩
  · -- a link of the variable is in the web at both of its ends or at none
    rw [hmem, hsep.links_iff hf hrewrites, h.tracks.mem_defs_iff, h.tracks.mem_defs_iff]
    have hclosed := hsep.closed d u
    have hne := hsep.ne
    have hfresh : ¬ s.graph.Links params s.vars.size d u := by
      rintro ⟨run, ins, hexec, hreads, -⟩
      exact (hsep.fresh ins u hexec.holds).1 hreads
    grind
  · intro ins loc hins
    obtain ⟨x, hx, hfx⟩ := hrewrites.holds_iff (x := (ins, loc)).mp hins
    obtain ⟨hreads, htarget⟩ := h.bounded x.1 x.2 hx
    constructor
    · intro w hw
      obtain ⟨j, hj, hiff⟩ := hsep.mem_reads_step (w := w) hf hx
      obtain ⟨rfl, -⟩ := Prod.mk.inj (Option.some.inj (hfx.symm.trans hj))
      rcases hiff.mp hw with ⟨rfl, -⟩ | ⟨rfl, -, hold⟩ | ⟨-, -, hw⟩
      · exact Nat.lt_succ_self _
      · exact Nat.lt_succ_of_lt hv
      · exact Nat.lt_succ_of_lt (hreads w hw)
    · intro w hw
      obtain ⟨j, hj, hother, htargets, -⟩ := hf.step x
      obtain ⟨rfl, -⟩ := Prod.mk.inj (Option.some.inj (hfx.symm.trans hj))
      by_cases hd : x.2 ∈ web.defs
      · rw [htargets hd (hsep.target_eq x.1 x.2 hd hx)] at hw
        obtain rfl := Option.some.inj hw
        exact Nat.lt_succ_self _
      · rw [hother hd] at hw
        exact Nat.lt_succ_of_lt (htarget w hw)

/-- A web that waits to be separated, with its variable and its number. -/
abbrev Task := VarId × Web × Nat

/-- The webs that wait are closed in the current chains and have no definition in common. -/
structure Waiting (s : Splitting) (tasks : List Task) : Prop where
  lt_size : ∀ task, task ∈ tasks → task.1 < s.vars.size
  isWeb : ∀ task, task ∈ tasks → Web.IsWeb s.chains task.1 task.2.1
  apart : tasks.Pairwise fun task other =>
    task.1 = other.1 → ∀ d, d ∈ task.2.1.defs → d ∉ other.2.1.defs

theorem separate_cases
    (s : Splitting)
    (task : Task) :
    (∃ d, d ∈ task.2.1.defs ∧ d < 0) ∧ separate task.1 s task.2 = s ∨
      (∀ d, d ∈ task.2.1.defs → 0 ≤ d) ∧
        (separate task.1 s task.2).graph = (s.rename task.1 s.vars.size task.2.1).graph ∧
        (separate task.1 s task.2).chains = (s.rename task.1 s.vars.size task.2.1).chains ∧
        (separate task.1 s task.2).vars.size = s.vars.size + 1 ∧
        (separate task.1 s task.2).vars.params = s.vars.params := by
  obtain ⟨v, web, version⟩ := task
  by_cases hany : (web.defs.any fun d => d < 0) = true
  · obtain ⟨d, hd, hneg⟩ := List.any_eq_true.mp hany
    exact Or.inl ⟨⟨d, hd, by simpa using hneg⟩, if_pos hany⟩
  · have heq : separate v s (web, version) =
        { s with
          vars := (s.vars.addSplit v version).2.modify s.vars.size
            fun fresh => { fresh with type := none } }.rename v s.vars.size web :=
      if_neg hany
    rw [heq]
    refine Or.inr ⟨fun d hd => ?_, rfl, rfl, ?_, rfl⟩
    · by_contra hneg
      exact hany (List.any_eq_true.mpr ⟨d, hd, by simpa using hneg⟩)
    · simp [Variables.addSplit, Variables.modify, Variables.size, Variables.push,
        Splitting.rename]

/-- Separating a web keeps the chains right, and the webs that wait closed. -/
theorem Ready.separate
    {task : Task}
    {tasks : List Task}
    (h : s.Ready params)
    (hwaiting : s.Waiting (task :: tasks)) :
    (separate task.1 s task.2).Ready params ∧ (separate task.1 s task.2).Waiting tasks ∧
      (s.graph.Defined params → (separate task.1 s task.2).graph.Defined params) := by
  have hlt := hwaiting.lt_size task (by simp)
  have hweb := hwaiting.isWeb task (by simp)
  obtain ⟨hapart, hrest⟩ := List.pairwise_cons.mp hwaiting.apart
  rcases separate_cases s task with ⟨-, heq⟩ | ⟨hnonneg, hgraph, hchains, hsize, -⟩
  · rw [heq]
    exact ⟨h, ⟨fun x hx => hwaiting.lt_size x (by simp [hx]),
      fun x hx => hwaiting.isWeb x (by simp [hx]), hrest⟩, id⟩
  · obtain ⟨htracks, hdefined, hbounded⟩ := h.rename hlt hweb hnonneg
    obtain ⟨-, hmem⟩ := h.mem_defs_rename hlt hweb
    rw [← hgraph, ← hchains] at htracks
    rw [← hgraph] at hdefined hbounded
    rw [← hchains] at hmem
    refine ⟨⟨htracks, hsize ▸ hbounded, fun v hv => ?_⟩, ⟨fun x hx => ?_, ?_, hrest⟩, hdefined⟩
    · rw [hsize]
      exact Nat.lt_succ_of_lt (h.params_lt v hv)
    · rw [hsize]
      exact Nat.lt_succ_of_lt (hwaiting.lt_size x (by simp [hx]))
    · intro x hx
      have hweb' := hwaiting.isWeb x (by simp [hx])
      have hne : x.1 ≠ s.vars.size := Nat.ne_of_lt (hwaiting.lt_size x (by simp [hx]))
      have hkept : ∀ d u, d ∈ (Splitting.separate task.1 s task.2).chains.defs x.1 u ↔
          d ∈ s.chains.defs x.1 u ∧ ¬ (x.1 = task.1 ∧ d ∈ task.2.1.defs) := by
        intro d u
        rw [hmem]
        simp [hne]
      refine ⟨hweb'.nodup, fun d u hlink => hweb'.closed d u ((hkept d u).mp hlink).1, ?_⟩
      intro d hd
      obtain ⟨u, hu⟩ := hweb'.linked d hd
      exact ⟨u, (hkept d u).mpr ⟨hu, fun hsame => hapart x hx hsame.1.symm d hsame.2 hd⟩⟩

theorem Ready.foldl_separate
    {tasks : List Task}
    (h : s.Ready params)
    (hwaiting : s.Waiting tasks) :
    let next := tasks.foldl (fun s task => Splitting.separate task.1 s task.2) s
    next.Ready params ∧ (s.graph.Defined params → next.graph.Defined params) ∧
      next.vars.params = s.vars.params := by
  induction tasks generalizing s with
  | nil => exact ⟨h, id, rfl⟩
  | cons task tasks ih =>
      obtain ⟨h', hwaiting', hdefined⟩ := h.separate hwaiting
      obtain ⟨hready, hdefined', hparams⟩ := ih h' hwaiting'
      refine ⟨hready, fun hs => hdefined' (hdefined hs), hparams.trans ?_⟩
      rcases separate_cases s task with ⟨-, heq⟩ | ⟨-, -, -, -, hsame⟩
      · rw [heq]
      · exact hsame

/-- The webs of a run, in the order in which they are separated. -/
def tasks (found : List (VarId × List Web)) : List Task :=
  found.flatMap fun entry => entry.2.zipIdx.map fun web => (entry.1, web)

theorem foldl_tasks
    (found : List (VarId × List Web))
    (s : Splitting) :
    found.foldl (fun s entry => entry.2.zipIdx.foldl (Splitting.separate entry.1) s) s =
      (tasks found).foldl (fun s task => Splitting.separate task.1 s task.2) s := by
  simp only [tasks, List.foldl_flatMap, List.foldl_map]

theorem waiting_tasks
    {found : List (VarId × List Web)}
    (h : s.Ready params)
    (hfound : Web.Separated s.chains s.vars found) :
    s.Waiting (tasks found) := by
  have hmem : ∀ task, task ∈ tasks found →
      ∃ entry, entry ∈ found ∧ task.1 = entry.1 ∧ task.2.1 ∈ entry.2 := by
    intro task htask
    obtain ⟨entry, hentry, htask⟩ := List.mem_flatMap.mp htask
    obtain ⟨web, hweb, rfl⟩ := List.mem_map.mp htask
    exact ⟨entry, hentry, rfl, List.mem_of_getElem? (List.mem_zipIdx_iff_getElem?.mp hweb)⟩
  refine ⟨?_, ?_, ?_⟩
  · intro task htask
    obtain ⟨entry, hentry, heq, -⟩ := hmem task htask
    obtain ⟨d, u, hlink⟩ := hfound.used entry hentry
    rw [h.tracks.mem_defs_iff, ← heq] at hlink
    obtain ⟨run, ins, hexec, hreads, -⟩ := hlink
    exact (h.bounded ins u hexec.holds).1 _ hreads
  · intro task htask
    obtain ⟨entry, hentry, heq, hweb⟩ := hmem task htask
    rw [heq]
    exact (hfound.component entry hentry _ hweb).toIsWeb
  · -- webs of one variable stand in one entry
    refine List.pairwise_flatMap.mpr ⟨fun entry hentry => ?_, ?_⟩
    · refine List.pairwise_map.mpr ?_
      have hapart := hfound.apart entry hentry
      rw [← List.zipIdx_map_fst 0 entry.2, List.pairwise_map] at hapart
      refine hapart.imp ?_
      intro web web' hdisjoint _
      exact hdisjoint
    · refine (List.pairwise_map.mp hfound.nodup).imp fun hne task htask other hother heq => ?_
      obtain ⟨web, -, rfl⟩ := List.mem_map.mp htask
      obtain ⟨web', -, rfl⟩ := List.mem_map.mp hother
      exact absurd heq hne

/-- The webs of the variables that have several. -/
def several (s : Splitting) : List (VarId × List Web) :=
  (Web.all s.chains s.vars).filter fun entry => 2 ≤ entry.2.length

theorem run_eq_foldl
    (s : Splitting) :
    (run s).2 =
      (tasks s.several).foldl (fun s task => Splitting.separate task.1 s task.2) s :=
  foldl_tasks s.several s

theorem several_separated
    (h : Web.Separated s.chains s.vars (Web.all s.chains s.vars)) :
    Web.Separated s.chains s.vars s.several where
  nodup := h.nodup.sublist (List.filter_sublist.map _)
  register entry hentry := h.register entry (List.mem_filter.mp hentry).1
  used entry hentry := h.used entry (List.mem_filter.mp hentry).1
  component entry hentry := h.component entry (List.mem_filter.mp hentry).1
  apart entry hentry := h.apart entry (List.mem_filter.mp hentry).1

/-- **Chains through splitting.**  When all webs have been separated, the chains hold the links of
the graph that is left. -/
theorem run_tracks
    (h : s.Ready params)
    (hused : s.chains.Occupied) :
    (run s).2.chains.Tracks (run s).2.graph params ∧
      (s.graph.Defined params → (run s).2.graph.Defined params) ∧
      (run s).2.vars.params = s.vars.params := by
  obtain ⟨hall, -⟩ := Web.all_separated s.vars h.tracks.mutually
    fun _ hsite => hused.linked h.tracks.mutually hsite
  obtain ⟨hready, hdefined, hparams⟩ :=
    h.foldl_separate (waiting_tasks h (several_separated hall))
  rw [run_eq_foldl]
  exact ⟨hready.tracks, hdefined, hparams⟩

end Splitting

end DalvikDecompiler
