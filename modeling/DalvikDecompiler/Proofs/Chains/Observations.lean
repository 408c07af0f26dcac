import DalvikDecompiler.Proofs.Chains.DeadCode
import DalvikDecompiler.Proofs.Symbolic.Execution

/-!
# What is seen of a graph without its dead code

**Input.** A graph with the chains of its runs.

Along a run a definition that goes leaves everything as it was, apart from its
variable for as long as it is the last definition.  No step that comes behind it
reads the variable there, as it would be linked with the definition.

**Results.**
* `Retires.run_sameExcept`: two runs, with and without an unused definition.
* `run_sound`: the removal of dead code is complete, removes nothing else and is
  not seen.
-/

namespace DalvikDecompiler

open Symbolic (VarId Instr Interpretation Outcome Event SameExcept)

namespace Symbolic.Interpretation

variable {Value Heap : Type*} (I : Interpretation Value Heap)

/-- Run some code. -/
def run : List RunStep → (VarId → Value) → Heap → Outcome Value Heap (VarId → Value)
  | [], env, heap => .of env heap
  | x :: rest, env, heap => (I.exec env x.1 heap).andThen (run rest)

theorem run_append
    (a b : List RunStep)
    (env : VarId → Value)
    (heap : Heap) :
    I.run (a ++ b) env heap = (I.run a env heap).andThen (I.run b) := by
  induction a generalizing env heap with
  | nil => rfl
  | cons x a ih =>
      have hrest : I.run (a ++ b) = fun env heap => (I.run a env heap).andThen (I.run b) := by
        funext env heap
        exact ih env heap
      rw [List.cons_append, run, run, hrest, Outcome.andThen_andThen]

@[simp] theorem run_singleton
    (x : RunStep)
    (env : VarId → Value)
    (heap : Heap) :
    I.run [x] env heap = I.exec env x.1 heap := by
  simp [run]

/-- A call without its result does what it did. -/
theorem exec_dropTarget
    {I : Interpretation Value Heap}
    {ins : Instr}
    (h : ins.isCall = true)
    (env : VarId → Value)
    (heap : Heap) :
    SameExcept (fun v => ins.target? = some v) (I.exec env ins heap)
      (I.exec env ins.dropTarget heap) := by
  have hsame : (I.exec env ins.dropTarget heap).heap = (I.exec env ins heap).heap ∧
      (I.exec env ins.dropTarget heap).events = (I.exec env ins heap).events := by
    cases ins <;> exact ⟨rfl, rfl⟩
  refine ⟨hsame.1, hsame.2, fun v hv => ?_⟩
  rw [exec_result_of_ne hv, exec_result_of_ne]
  simp [Instr.target?_dropTarget_of_isCall h]

end Symbolic.Interpretation

namespace FlowGraph

variable {Value Heap : Type*} {I : Interpretation Value Heap} {g g' : FlowGraph}
  {params : List VarId} {f : RunStep → Option RunStep} {loc : Loc} {run : List RunStep}

/-- A run without an unused definition is like the run with it, apart from the variable that the
definition was the last one of. -/
theorem Retires.run_sameExcept
    (hf : Retires g f loc)
    (hunused : ∀ v u, ¬ g.Links params v loc u)
    (hgone : ∀ ins env heap, g.Holds ins loc →
      SameExcept (fun v => ins.target? = some v) (I.exec env ins heap)
        (I.run (f (ins, loc)).toList env heap))
    (hrun : g.Begins run)
    (env : VarId → Value)
    (heap : Heap) :
    SameExcept (fun v => lastDefinition v run = some loc) (I.run run env heap)
      (I.run (run.filterMap f) env heap) := by
  induction run using List.reverseRecOn with
  | nil => exact ⟨rfl, rfl, fun _ _ => rfl⟩
  | append_singleton run x ih =>
      have hfront := ih hrun.of_append
      have hexec := hrun.executes
      have hsplit : (run ++ [x]).filterMap f = run.filterMap f ++ (f x).toList := by
        cases hx : f x <;> simp [hx]
      have hlast : ∀ v, lastDefinition v (run ++ [x]) =
          if x.1.target? = some v then some x.2 else lastDefinition v run := by
        intro v
        by_cases hv : x.1.target? = some v <;> simp [lastDefinition_append, lastDefinition, hv]
      rw [hsplit, Interpretation.run_append, Interpretation.run_append]
      refine hfront.andThen ?_
      -- a read of the variable behind the definition would be linked with it
      have hreads : ∀ v, v ∈ x.1.reads →
          (I.run (run.filterMap f) env heap).result v = (I.run run env heap).result v :=
        fun v hv => hfront.result_eq v fun hlast =>
          hunused v x.2 ⟨run, x.1, hexec, hv, Or.inl hlast⟩
      have hsame : SameExcept _ (I.exec (I.run run env heap).result x.1 _)
          (I.exec (I.run (run.filterMap f) env heap).result x.1 _) :=
        Interpretation.exec_congr hreads hfront.result_eq (I.run run env heap).heap
      rw [Interpretation.run_singleton]
      by_cases hloc : x.2 = loc
      · obtain ⟨ins, l⟩ := x
        obtain rfl : l = loc := hloc
        refine (hsame.trans (hgone ins _ _ hexec.holds)).mono fun v hv => ?_
        rw [hlast]
        rcases hv with ⟨hv, hne⟩ | hv
        · rw [if_neg hne, hv]
        · rw [if_pos hv]
      · rw [hf.kept x hloc, Option.toList_some, Interpretation.run_singleton]
        refine hsame.mono fun v hv => ?_
        rw [hlast, if_neg hv.2, hv.1]

end FlowGraph

namespace Pruning

open FlowGraph (Retires Rewrites placedSlot)

/-- Along every walk from the entry the same is seen of two graphs, and they leave the same heap. -/
structure LooksLike {Value Heap : Type*} (I : Interpretation Value Heap) (g g' : FlowGraph) :
    Prop where
  toDigraph_eq : g'.toDigraph = g.toDigraph
  run_eq : ∀ n nodes, g.toDigraph.Walk g.entry n nodes → ∀ env heap,
    (I.run (g'.trace nodes) env heap).events = (I.run (g.trace nodes) env heap).events ∧
      (I.run (g'.trace nodes) env heap).heap = (I.run (g.trace nodes) env heap).heap

section Sight

variable {Value Heap : Type*} {I : Interpretation Value Heap} {g g' g'' : FlowGraph}
  {params : List VarId} {f : RunStep → Option RunStep} {loc : Loc} {c : Chains}

theorem LooksLike.trans
    (h : LooksLike I g g')
    (h' : LooksLike I g' g'') :
    LooksLike I g g'' := by
  refine ⟨h'.toDigraph_eq.trans h.toDigraph_eq, fun n nodes w env heap => ?_⟩
  have hentry : g'.entry = g.entry := congrArg Digraph.entry h.toDigraph_eq
  have w' : g'.toDigraph.Walk g'.entry n nodes := by
    rw [h.toDigraph_eq, hentry]
    exact w
  obtain ⟨hevents, hheap⟩ := h.run_eq n nodes w env heap
  obtain ⟨hevents', hheap'⟩ := h'.run_eq n nodes w' env heap
  exact ⟨hevents'.trans hevents, hheap'.trans hheap⟩

/-- A definition that no link leads to is not missed. -/
theorem looksLike_of_retires
    (hrewrites : Rewrites g g' f)
    (hf : Retires g f loc)
    (hunused : ∀ v u, ¬ g.Links params v loc u)
    (hgone : ∀ ins env heap, g.Holds ins loc →
      SameExcept (fun v => ins.target? = some v) (I.exec env ins heap)
        (I.run (f (ins, loc)).toList env heap)) :
    LooksLike I g g' := by
  refine ⟨hrewrites.toDigraph_eq, fun n nodes w env heap => ?_⟩
  have hsame := hf.run_sameExcept hunused hgone (FlowGraph.begins_trace w) env heap
  rw [hrewrites.trace_eq]
  exact ⟨hsame.events_eq, hsame.heap_eq⟩

theorem stable_looksLike
    (I : Interpretation Value Heap)
    (g : FlowGraph)
    (params : List VarId) :
    Stable params fun s => LooksLike I g s.graph where
  dropTarget {s stale loc ins} h hs hins hcall hunused := by
    refine hs.trans (looksLike_of_retires (.modifyInstr h.indexed loc _)
      (retires_dropTarget h.indexed hins hcall) (h.not_links hins hunused) ?_)
    intro ins' env heap hins'
    obtain rfl := h.indexed.holds_unique hins hins'
    simpa [modifyAt] using Interpretation.exec_dropTarget (I := I) hcall env heap
  removeInstr {s stale loc ins} h hs hins hsome heffect hunused := by
    refine hs.trans (looksLike_of_retires (.removeInstr h.indexed loc)
      (FlowGraph.retires_dropAt _ loc) (h.not_links hins hunused) ?_)
    intro ins' env heap hins'
    obtain rfl := h.indexed.holds_unique hins hins'
    simpa [dropAt, Interpretation.run] using
      Interpretation.exec_of_not_hasEffect (I := I) hsome heffect env heap
  forgetUse _ hs _ := hs

end Sight

universe u v

/-- **Soundness and completeness of the removal of dead code.**  Removals follow each other as far
as they can, whatever larger bound they have; every definition that is left has a use or an effect;
nothing has gone but unused results of calls and unused definitions without an effect; whatever
operators, calls, reads and writes mean, the same effects and tests with the same values are seen
along every walk from the entry; and the count is the number of instructions that are gone. -/
theorem run_sound
    (g : FlowGraph)
    (params : List VarId)
    (c : Chains)
    (h : c.Tracks g params) :
    (∀ (s : Pruning) (loc : Loc) (depth : Nat), s.graph.instrCount < depth →
      removeDead depth s loc = removeDead (s.graph.instrCount + 1) s loc) ∧
    (∀ ins loc v, (run g c).graph.Holds ins loc → ins.target? = some v →
      (run g c).chains.isUsed v loc = true ∨ ins.hasEffect = true) ∧
    (∃ f, Prunes params g (run g c).graph f) ∧
    (∀ (Value : Type u) (Heap : Type v) (I : Interpretation Value Heap) (n : NodeId)
      (nodes : List NodeId), g.toDigraph.Walk g.entry n nodes → ∀ env heap,
        (I.run ((run g c).graph.trace nodes) env heap).events =
            (I.run (g.trace nodes) env heap).events ∧
          (I.run ((run g c).graph.trace nodes) env heap).heap =
            (I.run (g.trace nodes) env heap).heap) ∧
    (run g c).removed + (run g c).graph.instrCount = g.instrCount := by
  refine ⟨fun s loc depth hdepth => removeDead_of_lt hdepth (Nat.lt_succ_self _),
    fun ins loc v hins hv => run_justified h loc ins v hins hv, run_prunes h, ?_, run_removed g c⟩
  intro Value Heap I
  exact ((stable_looksLike I g params).run h ⟨rfl, fun _ _ _ _ _ => ⟨rfl, rfl⟩⟩).holds.run_eq

/-- A call whose result is only read for a sum that nothing reads, with a constant as the other
part of the sum, in front of a loop that reads the constant. -/
def uselessSum : FlowGraph :=
  { FlowGraph.empty with
    slots := #[
      placedSlot .statement
        [(.assign (some 0) (.const (.int 1)), 0),
          (.assign (some 1) (.staticCall ⟨"LP;", "tick", "()I"⟩ []), 1),
          (.assign (some 2) (.binary .add (.var 0) (.var 1) "I"), 2)] [1] [],
      placedSlot .statement
        [(.assign (some 2) (.unary .neg (.var 0) "I"), 3), (.ifCompareZero .eq (.var 0), 4)]
        [1, 2] [0, 1],
      placedSlot .statement [(.ret none, 5)] [] [1]]
    order := [0, 1, 2]
    locIndex := [(0, 0), (1, 0), (2, 0), (3, 1), (4, 1), (5, 2)] }

theorem uselessSum_indexed :
    uselessSum.Indexed := by
  refine .of_lt ⟨FlowGraph.wellFormed_of_lt (by decide) (by decide), ?_, by decide, by decide,
    by decide⟩ (by decide) (by decide)
  simp [uselessSum, FlowGraph.toDigraph, Digraph.reversePostorder, Digraph.postorder,
    Digraph.leaveOrder, FlowGraph.size, FlowGraph.flowSuccs, FlowGraph.succs,
    FlowGraph.handlerSuccs, FlowGraph.empty, placedSlot, List.range_succ]

/-- The sums go, and the call stays without its result; the loop is seen as it was. -/
theorem run_sound_uselessSum :
    (Chains.ofGraph uselessSum []).Tracks uselessSum [] ∧
      (run uselessSum (Chains.ofGraph uselessSum [])).removed = 2 ∧
      (∃ f, Prunes [] uselessSum (run uselessSum (Chains.ofGraph uselessSum [])).graph f) ∧
      ∀ (I : Interpretation Int Int) env heap,
        (I.run ((run uselessSum (Chains.ofGraph uselessSum [])).graph.trace [0, 1, 1]) env
            heap).events =
          (I.run (uselessSum.trace [0, 1, 1]) env heap).events := by
  have htracks : (Chains.ofGraph uselessSum []).Tracks uselessSum [] :=
    .ofGraph uselessSum_indexed
  obtain ⟨-, -, hprunes, hseen, -⟩ := run_sound uselessSum [] _ htracks
  have hwalk : uselessSum.toDigraph.Walk 0 1 [0, 1, 1] :=
    (Digraph.Walk.here.step (by decide)).step (by decide)
  exact ⟨htracks, by cbv, hprunes, fun I env heap => (hseen Int Int I 1 _ hwalk env heap).1⟩

end Pruning
end DalvikDecompiler
