import DalvikDecompiler.Decompiled.Analysis
import DalvikDecompiler.Proofs.Chains.Splitting
import DalvikDecompiler.Proofs.Chains.Typing
import DalvikDecompiler.Proofs.Decompiled.Maintenance
import DalvikDecompiler.Proofs.FlowGraph.Blocks
import DalvikDecompiler.Proofs.Symbolic.Names

/-!
# Names of the variables of a method

**Input.** The variables of a method from its arguments to the end of the
analysis.

Splitting adds parts of registers.  The webs of one register are numbered, and a
register has its webs in one entry, so that no part is made twice.  A part is never
split again, because webs are found before any of them is separated.  Inference
changes types only, which no name depends on.

**Results.**
* `Splitting.run_distinct`: variables that stand for different things do so after
  they have been split, whatever the chains are.
* `Splitting.run_numbersBelow`: the numbers in names stay below the sizes of tables.
* `Stages.ofMethod_names`: different variables of a method have different names at
  each stage.
-/

namespace DalvikDecompiler

open Symbolic (VarId VarOrigin Variable Variables LiftState)

namespace Symbolic.Variables

variable {vars vars' : Variables}

theorem kinds_modify
    (vars : Variables)
    (v : VarId)
    {f : Variable → Variable}
    (hf : ∀ e, (f e).kind = e.kind) :
    (vars.modify v f).kinds = vars.kinds := by
  refine List.ext_getElem? fun w => ?_
  rw [← map_kind_get?, ← map_kind_get?, get?_modify]
  split
  · rw [Option.map_map]
    exact Option.map_congr fun e _ => hf e
  · rfl

theorem Learns.kinds_eq
    (h : vars.Learns vars') :
    vars'.kinds = vars.kinds := by
  unfold kinds
  generalize vars'.entries.toList = entries', vars.entries.toList = entries, h.forall₂ = hforall
  induction hforall with
  | nil => rfl
  | cons hlearns _ ih =>
      rw [List.map_cons, List.map_cons, ih]
      rcases hlearns with rfl | ⟨-, type, rfl⟩ <;> rfl

theorem Distinct.of_kinds_eq
    (h : vars.Distinct)
    (hkinds : vars'.kinds = vars.kinds) :
    vars'.Distinct :=
  ⟨hkinds ▸ h.nodup, hkinds ▸ h.base⟩

/-- A part that has not been made yet is another variable. -/
theorem Distinct.addPart
    {base : VarId}
    {version : Nat}
    {kind : VarOrigin}
    (h : vars.Distinct)
    (hbase : vars.kinds[base]? = some kind)
    (hwhole : kind.IsWhole)
    (hnew : .split base version ∉ vars.kinds)
    (hkinds : vars'.kinds = vars.kinds ++ [.split base version]) :
    vars'.Distinct := by
  have hold : ∀ {v : VarId} {kind : VarOrigin}, vars.kinds[v]? = some kind →
      vars'.kinds[v]? = some kind := fun hv => by
    rw [hkinds, List.getElem?_append_left (List.getElem?_eq_some_iff.mp hv).1, hv]
  refine ⟨?_, fun root number hmem => ?_⟩
  · rw [hkinds]
    exact List.nodup_append.mpr ⟨h.nodup, List.nodup_singleton _, fun _ hold' _ hlast heq =>
      hnew (List.mem_singleton.mp hlast ▸ heq ▸ hold')⟩
  · rw [hkinds] at hmem
    rcases List.mem_append.mp hmem with hmem | hmem
    · obtain ⟨kind', hroot, hwhole'⟩ := h.base root number hmem
      exact ⟨kind', hold hroot, hwhole'⟩
    · obtain ⟨rfl, rfl⟩ := VarOrigin.split.inj (List.mem_singleton.mp hmem)
      exact ⟨kind, hold hbase, hwhole⟩

end Symbolic.Variables

namespace Web

/-- Each variable with webs is a register and has one entry. -/
theorem all_registers
    (c : Chains)
    (vars : Variables) :
    ((all c vars).map Prod.fst).Nodup ∧ ∀ entry, entry ∈ all c vars →
      (vars.get? entry.1).any Variable.isRegister = true := by
  have hkeys : ((all c vars).map Prod.fst).Nodup ∧ ∀ v, v ∈ (all c vars).map Prod.fst →
      (vars.get? v).any Variable.isRegister = true := by
    refine List.foldlRecOn (motive := fun found : List (VarId × List Web) =>
      (found.map Prod.fst).Nodup ∧ ∀ v, v ∈ found.map Prod.fst →
        (vars.get? v).any Variable.isRegister = true) _ _ (by simp) ?_
    rintro found ⟨hnodup, hregister⟩ ⟨v, d⟩ -
    simp only [collect]
    split
    · rename_i hv
      split
      · exact ⟨hnodup, hregister⟩
      · rw [OrderedMap.keys_insert]
        refine ⟨OrderedSet.nodup_insert hnodup, fun w hw => ?_⟩
        rcases OrderedSet.mem_insert.mp hw with hw | rfl
        · exact hregister w hw
        · exact hv
    · exact ⟨hnodup, hregister⟩
  exact ⟨hkeys.1, fun entry hentry => hkeys.2 entry.1 (List.mem_map_of_mem hentry)⟩

theorem length_le_of_lookup_collect
    {c : Chains}
    {vars : Variables}
    {found : List (VarId × List Web)}
    {bound : Nat}
    {v : VarId}
    {webs : List Web}
    (site : DefSite)
    (h : ∀ v webs, found.lookup v = some webs → webs.length ≤ bound)
    (hlookup : (collect c vars found site).lookup v = some webs) :
    webs.length ≤ bound + 1 := by
  obtain ⟨w, d⟩ := site
  simp only [collect] at hlookup
  split at hlookup
  · split at hlookup
    · exact Nat.le_succ_of_le (h v webs hlookup)
    · rw [OrderedMap.lookup_insert] at hlookup
      split at hlookup
      · obtain rfl := Option.some.inj hlookup
        cases hw : found.lookup w with
        | none => simp
        | some webs => simpa using h w webs hw
      · exact Nat.le_succ_of_le (h v webs hlookup)
  · exact Nat.le_succ_of_le (h v webs hlookup)

theorem length_le_of_lookup_foldl
    {c : Chains}
    {vars : Variables}
    {sites : List DefSite}
    {found : List (VarId × List Web)}
    {bound : Nat}
    (h : ∀ v webs, found.lookup v = some webs → webs.length ≤ bound) :
    ∀ v webs, (sites.foldl (collect c vars) found).lookup v = some webs →
      webs.length ≤ bound + sites.length := by
  induction sites generalizing found bound with
  | nil => exact h
  | cons site sites ih =>
      intro v webs hlookup
      have hle := ih (fun _ _ hfound => length_le_of_lookup_collect site h hfound) v webs hlookup
      rw [List.length_cons]
      omega

/-- A variable has at most as many webs as there are definitions in use. -/
theorem length_le_of_mem_all
    {c : Chains}
    {vars : Variables}
    {entry : VarId × List Web}
    (hentry : entry ∈ all c vars) :
    entry.2.length ≤ c.usesAt.length := by
  have hlookup := (OrderedMap.mem_iff_lookup_eq_some (all_registers c vars).1).mp hentry
  have hempty : ∀ v webs, ([] : List (VarId × List Web)).lookup v = some webs →
      webs.length ≤ 0 := by simp
  have hle := length_le_of_lookup_foldl hempty entry.1 entry.2 hlookup
  simpa [Chains.definitionsInUse] using hle

end Web

namespace Splitting

variable {s : Splitting}

/-- The part that a web becomes. -/
def Task.part (task : Task) : VarOrigin :=
  .split task.1 task.2.2

theorem kinds_separate
    (s : Splitting)
    (task : Task) :
    (separate task.1 s task.2).vars.kinds = s.vars.kinds ∨
      (separate task.1 s task.2).vars.kinds = s.vars.kinds ++ [task.part] := by
  obtain ⟨v, web, version⟩ := task
  by_cases hany : (web.defs.any fun d => d < 0) = true
  · have heq : separate v s (web, version) = s := if_pos hany
    exact Or.inl (by rw [heq])
  · have hvars : (separate v s (web, version)).vars =
        (s.vars.addSplit v version).2.modify s.vars.size
        fun fresh => { fresh with type := none } := by
      simp only [separate, if_neg hany]
      rfl
    refine Or.inr ?_
    have hkinds := (s.vars.addSplit v version).2.kinds_modify s.vars.size
      (f := fun fresh => { fresh with type := none }) fun _ => rfl
    rw [hvars, hkinds]
    exact Variables.kinds_push _ _

/-- Separating webs makes their parts, and nothing else. -/
theorem mem_kinds_foldl_separate
    {tasks : List Task}
    {kind : VarOrigin}
    (h : kind ∈ (tasks.foldl (fun s task => separate task.1 s task.2) s).vars.kinds) :
    kind ∈ s.vars.kinds ∨ ∃ task, task ∈ tasks ∧ kind = task.part := by
  induction tasks generalizing s with
  | nil => exact Or.inl h
  | cons task tasks ih =>
      rw [List.foldl_cons] at h
      rcases ih h with hold | ⟨other, hother, rfl⟩
      · rcases kinds_separate s task with hkinds | hkinds <;> rw [hkinds] at hold
        · exact Or.inl hold
        · rcases List.mem_append.mp hold with hold | hnew
          · exact Or.inl hold
          · exact Or.inr ⟨task, List.mem_cons_self, List.mem_singleton.mp hnew⟩
      · exact Or.inr ⟨other, List.mem_cons_of_mem _ hother, rfl⟩

theorem distinct_foldl_separate
    {tasks : List Task}
    (h : s.vars.Distinct)
    (hnodup : (tasks.map Task.part).Nodup)
    (hnew : ∀ task, task ∈ tasks → task.part ∉ s.vars.kinds)
    (hbase : ∀ task, task ∈ tasks →
      ∃ kind, s.vars.kinds[task.1]? = some kind ∧ kind.IsWhole) :
    (tasks.foldl (fun s task => separate task.1 s task.2) s).vars.Distinct := by
  induction tasks generalizing s with
  | nil => exact h
  | cons task tasks ih =>
      obtain ⟨hnot, hrest⟩ := List.nodup_cons.mp hnodup
      obtain ⟨kind, hkind, hwhole⟩ := hbase task List.mem_cons_self
      have hnew' := fun other hother => hnew other (List.mem_cons_of_mem task hother)
      have hbase' := fun other hother => hbase other (List.mem_cons_of_mem task hother)
      rw [List.foldl_cons]
      rcases kinds_separate s task with hkinds | hkinds
      · exact ih (h.of_kinds_eq hkinds) hrest (hkinds ▸ hnew') (hkinds ▸ hbase')
      · refine ih (h.addPart hkind hwhole (hnew task List.mem_cons_self) hkinds) hrest
          (fun other hother hmem => ?_) fun other hother => ?_
        · rw [hkinds] at hmem
          rcases List.mem_append.mp hmem with hmem | hmem
          · exact hnew' other hother hmem
          · exact hnot (List.mem_singleton.mp hmem ▸ List.mem_map_of_mem hother)
        · obtain ⟨kind', hroot, hwhole'⟩ := hbase' other hother
          refine ⟨kind', ?_, hwhole'⟩
          rw [hkinds, List.getElem?_append_left (List.getElem?_eq_some_iff.mp hroot).1, hroot]

/-- The webs of different entries, and those of one entry, become different parts. -/
theorem nodup_tasks
    {found : List (VarId × List Web)}
    (h : (found.map Prod.fst).Nodup) :
    ((tasks found).map Task.part).Nodup := by
  rw [tasks, List.map_flatMap]
  refine List.nodup_flatMap.mpr ⟨fun entry _ => ?_, ?_⟩
  · have hversions : (entry.2.zipIdx.map Prod.snd).Nodup := by
      rw [List.zipIdx_map_snd]
      exact List.nodup_range'
    rw [List.map_map]
    refine List.pairwise_map.mpr ((List.pairwise_map.mp hversions).imp fun hne heq => ?_)
    exact hne (VarOrigin.split.inj heq).2
  · refine (List.pairwise_map.mp h).imp fun hne => ?_
    intro kind hkind hkind'
    obtain ⟨task, htask, rfl⟩ := List.mem_map.mp hkind
    obtain ⟨task', htask', heq⟩ := List.mem_map.mp hkind'
    obtain ⟨_, -, rfl⟩ := List.mem_map.mp htask
    obtain ⟨_, -, rfl⟩ := List.mem_map.mp htask'
    exact hne (VarOrigin.split.inj heq).1.symm

/-- **Splitting makes no variable twice**: with any graph and any chains. -/
theorem run_distinct
    (h : s.vars.Unsplit) :
    (run s).2.vars.Distinct := by
  obtain ⟨hnodup, hregister⟩ := Web.all_registers s.chains s.vars
  have hsome : s.several.Sublist (Web.all s.chains s.vars) := List.filter_sublist
  rw [run_eq_foldl]
  refine distinct_foldl_separate h.distinct (nodup_tasks (hnodup.sublist (hsome.map _)))
    (fun task _ hmem => h.whole _ hmem task.1 task.2.2 rfl) fun task htask => ?_
  obtain ⟨entry, hentry, htask⟩ := List.mem_flatMap.mp htask
  obtain ⟨web, -, rfl⟩ := List.mem_map.mp htask
  obtain ⟨e, he, -⟩ := (Option.any_eq_true _ _).mp (hregister entry (hsome.subset hentry))
  have hkind : s.vars.kinds[entry.1]? = some e.kind := by
    rw [← Variables.map_kind_get?, he, Option.map_some]
  exact ⟨e.kind, hkind, h.whole _ (List.mem_of_getElem? hkind)⟩

/-- Results keep their numbers, and the parts of a register are numbered like its webs. -/
theorem run_numbersBelow
    {results : Nat}
    (h : s.vars.NumbersBelow results 0) :
    (run s).2.vars.NumbersBelow results s.chains.usesAt.length := by
  rw [run_eq_foldl]
  refine ⟨fun n hmem => ?_, fun base version hmem => ?_⟩
  · rcases mem_kinds_foldl_separate hmem with hold | ⟨task, -, heq⟩
    · exact h.result n hold
    · cases heq
  · rcases mem_kinds_foldl_separate hmem with hold | ⟨task, htask, heq⟩
    · exact absurd (h.part base version hold) (Nat.not_lt_zero _)
    · obtain ⟨entry, hentry, htask⟩ := List.mem_flatMap.mp htask
      obtain ⟨⟨web, number⟩, hweb, rfl⟩ := List.mem_map.mp htask
      obtain ⟨-, rfl⟩ := VarOrigin.split.inj heq
      have hlt : version < entry.2.length :=
        (List.getElem?_eq_some_iff.mp (List.mem_zipIdx_iff_getElem?.mp hweb)).1
      exact Nat.lt_of_lt_of_le hlt (Web.length_le_of_mem_all (List.mem_filter.mp hentry).1)

end Splitting

namespace FlowGraph

/-- The variables of a constructed graph are the arguments and what lifting has added. -/
theorem ofMethod_extends
    {m : Bytecode.Method}
    {events : EventLog}
    {g : FlowGraph}
    (h : (ofMethod m (.ofMethod m) events).graph = .ok g) :
    (Variables.ofMethod m).Extends (ofMethod m (.ofMethod m) events).vars := by
  obtain ⟨pieces, l, hlifted, hvars, -⟩ := charts_ofMethod h
  rw [hvars]
  exact hlifted.extends_vars (LiftState.sound_ofMethod m).1

end FlowGraph

namespace Analysis

/-- Inference gives types to the variables that splitting has left. -/
theorem ofMethod_vars
    {options : Options}
    {m : Bytecode.Method}
    {analysis : Analysis}
    (h : (ofMethod options m).result = .ok analysis) :
    ∃ g typed, (FlowGraph.ofMethod m (.ofMethod m) []).graph = .ok g ∧
      let vars := (FlowGraph.ofMethod m (.ofMethod m) []).vars
      analysis.vars = Typing.infer typed m.returnType
        (Splitting.run { graph := g, vars, chains := Chains.ofGraph g vars.params }).2.vars := by
  unfold ofMethod at h
  dsimp only at h
  split at h
  · cases h
  · rename_i g hbuilt
    split at h
    · cases h
    · obtain rfl := Except.ok.inj h
      exact ⟨g, _, hbuilt, rfl⟩

end Analysis

namespace Stages

/-- **Different variables have different names.**  Take a method whose arguments fit into less than
65536 registers, and its variables with any registers and results of calls added.  No two of them
have the same name, and this stays so when they are split, along any chains of any graph.  The
numbers of results are smaller than the number of variables, and those of parts smaller than the
number of definitions in use, so that 32 bits hold them unless a table has more than 2 ^ 32 entries.
The variables of the constructed graph are of this kind, so that the names of a method are different
before and after splitting, and in the result of the analysis. -/
theorem ofMethod_names
    {m : Bytecode.Method}
    (hwidth : m.argumentWidth < 65536) :
    (∀ vars, (Variables.ofMethod m).Extends vars →
      vars.DistinctNames ∧ vars.NumbersBelow vars.size 0 ∧
        ∀ graph chains,
          let split := (Splitting.run { graph, vars, chains }).2.vars
          split.DistinctNames ∧ split.NumbersBelow vars.size chains.usesAt.length) ∧
    (∀ events g, (FlowGraph.ofMethod m (.ofMethod m) events).graph = .ok g →
      let vars := (FlowGraph.ofMethod m (.ofMethod m) events).vars
      let split := Splitting.run { graph := g, vars, chains := Chains.ofGraph g vars.params }
      (Variables.ofMethod m).Extends vars ∧ split.2.vars.DistinctNames) ∧
    ∀ options analysis, (Analysis.ofMethod options m).result = .ok analysis →
      analysis.vars.DistinctNames := by
  have hunsplit := Variables.unsplit_ofMethod hwidth
  have hrun : ∀ vars, (Variables.ofMethod m).Extends vars → ∀ graph chains,
      (Splitting.run { graph, vars, chains }).2.vars.Distinct := fun vars hvars graph chains =>
    Splitting.run_distinct (hunsplit.extend hvars)
  have hnumbers : ∀ vars, (Variables.ofMethod m).Extends vars → vars.NumbersBelow vars.size 0 :=
    fun vars hvars => (hunsplit.extend hvars).numbersBelow
      (hvars.temps_le (Variables.temps_le_ofMethod m))
  refine ⟨fun vars hvars => ⟨?_, hnumbers vars hvars, fun graph chains => ⟨?_, ?_⟩⟩,
    fun events g hbuilt => ?_, fun options analysis hresult => ?_⟩
  · exact (hunsplit.extend hvars).distinct.distinctNames
  · exact (hrun vars hvars graph chains).distinctNames
  · exact Splitting.run_numbersBelow (hnumbers vars hvars)
  · have hvars := FlowGraph.ofMethod_extends hbuilt
    exact ⟨hvars, (hrun _ hvars _ _).distinctNames⟩
  · obtain ⟨g, typed, hbuilt, hvars⟩ := Analysis.ofMethod_vars hresult
    have hsplit := hrun _ (FlowGraph.ofMethod_extends hbuilt) g
      (Chains.ofGraph g (FlowGraph.ofMethod m (.ofMethod m) []).vars.params)
    rw [hvars]
    exact (hsplit.of_kinds_eq (Typing.infer_learns typed _ _).kinds_eq).distinctNames

/-- The register of the method is split in two. -/
theorem ofMethod_names_reusedRegister :
    reusedRegister.argumentWidth < 65536 ∧
      (FlowGraph.ofMethod reusedRegister (.ofMethod reusedRegister) []).graph =
        .ok reusedRegisterGraph ∧
      let split := (Splitting.run
        { graph := reusedRegisterGraph
          vars := reusedRegisterVars
          chains := Chains.ofGraph reusedRegisterGraph reusedRegisterVars.params }).2.vars
      split.ids.map split.name = ["v0", "v0_0", "v0_1"] ∧ split.DistinctNames := by
  have hwidth : reusedRegister.argumentWidth < 65536 := by decide +kernel
  obtain ⟨hgraph, hvars⟩ := ofMethod_reusedRegister
  obtain ⟨-, hbuilt, -⟩ := ofMethod_names hwidth
  have hnames := (hbuilt [] reusedRegisterGraph hgraph).2
  rw [hvars] at hnames
  exact ⟨hwidth, hgraph, by cbv, hnames⟩

end Stages

end DalvikDecompiler
