import DalvikDecompiler.Proofs.Chains.Effects
import DalvikDecompiler.Proofs.Decompiled.Maintenance

/-!
# Effects through the stages of analysis

**Input.** The graph of a method on which no variable is read before it has
been defined.

**Results.**
* `Stages.propagated_effects`: propagation adds no effect to any walk, keeps
  their order and drops nothing but calls, and no call on a walk on which every
  value that is computed is read.
* `Stages.skippedCall_dropped`: on a walk that turns away from the use of a call
  the call is dropped.
-/

namespace DalvikDecompiler
namespace Stages

open FlowGraph (placedSlot sampleInstruction)
open Symbolic (VarId Variables LiftState Effect)

/-- Propagation keeps the effects of the graph that is left when dead code has been removed. -/
theorem ofGraph_keepsEffects
    {g : FlowGraph}
    {vars : Variables}
    (hindexed : g.Indexed)
    (hbounded : g.Bounded vars.size)
    (hparams : ∀ v, v ∈ vars.params → v < vars.size)
    (hdefined : g.Defined vars.params)
    (returns name : String)
    (passes : Nat) :
    let stages := Stages.ofGraph g vars returns name passes
    Propagation.KeepsEffects stages.pruned.graph stages.propagated.graph := by
  obtain ⟨-, ⟨htracks, hdefined'⟩, -⟩ :=
    ofGraph_tracks hindexed hbounded hparams hdefined returns name passes
  obtain ⟨-, -, hpropagated⟩ := ofGraph_stages g vars returns name passes
  generalize Stages.ofGraph g vars returns name passes = stages at *
  intro stages
  rw [hpropagated]
  exact Propagation.run_keepsEffects htracks hdefined'

/-- **Effects of propagated code.**  For the graph of every method and every walk from its entry,
the effects along the walk after propagation are some of those before, in the same order; all that
is missing are calls; and nothing is missing if every value that the code of the walk computes,
constants apart, is read on the walk before its variable is defined again. -/
theorem propagated_effects
    (m : Bytecode.Method)
    (events : EventLog)
    (returns name : String)
    (passes : Nat)
    (g : FlowGraph)
    (hbuilt : (FlowGraph.ofMethod m (.ofMethod m) events).graph = .ok g)
    (hdefined : g.Defined (FlowGraph.ofMethod m (.ofMethod m) events).vars.params) :
    let vars := (FlowGraph.ofMethod m (.ofMethod m) events).vars
    let stages := Stages.ofGraph g vars returns name passes
    let before := stages.pruned.graph
    let after := stages.propagated.graph
    after.toDigraph = before.toDigraph ∧
      ∀ n nodes, before.toDigraph.Walk before.entry n nodes →
        (effects (after.trace nodes)).Sublist (effects (before.trace nodes)) ∧
        (effects (after.trace nodes)).filter (!·.isCall) =
          (effects (before.trace nodes)).filter (!·.isCall) ∧
        (Consumed (before.trace nodes) →
          effects (after.trace nodes) = effects (before.trace nodes)) := by
  obtain ⟨hsound, hlt⟩ := LiftState.sound_ofMethod m
  obtain ⟨hindexed, hbounded, hparams, hlt'⟩ := FlowGraph.ofMethod_indexed hsound hlt hbuilt
  rw [← hparams] at hlt'
  have hkeeps := ofGraph_keepsEffects hindexed hbounded hlt' hdefined returns name passes
  exact ⟨hkeeps.toDigraph_eq, fun n nodes w =>
    ⟨hkeeps.sublist w, hkeeps.others w, fun hconsumed => (hkeeps.consumed w hconsumed).2⟩⟩

/-- A method that calls another one and returns the result. -/
def forwardedResult : Bytecode.Method :=
  { owner := "LT;"
    name := "f"
    descriptor := "()I"
    access := ⟨AccessFlags.staticBit⟩
    registers := 1
    blocks :=
      [{ name := ""
         start := 0
         stop := 5
         instructions :=
          [sampleInstruction .invokeStatic [.method ⟨"LP;", "a", "()I"⟩] 0 3 none,
           sampleInstruction .moveResult [.register 0] 3 1 none,
           sampleInstruction .returnValue [.register 0] 4 1 none]
         children := [] }]
    exceptions := .empty }

/-- The node of the only block, before its instructions have places. -/
def forwardedResultNode : Node :=
  { Node.plain "" .ret with
    ins := [.assign (some 0) (.staticCall ⟨"LP;", "a", "()I"⟩ []), .moveResult 1 (.var 0),
      .ret (some (.var 1))] }

def forwardedResultVars : Variables :=
  { Variables.empty with
    entries := #[.fresh (.temp 0) (some "I"), .fresh (.register 0) none]
    registers := [(0, 1)]
    temps := 1 }

/-- The graph of the method. -/
def forwardedResultGraph : FlowGraph :=
  { FlowGraph.empty with
    slots := #[{ node := { forwardedResultNode with locs := [0, 1, 2], num := 1 }
                 live := true
                 succs := []
                 preds := []
                 handlerSuccs := []
                 handlerPreds := [] }]
    exit := some 0
    order := [0]
    locIndex := [(0, 0), (1, 0), (2, 0)] }

-- The descriptor of the called method is taken apart by well-founded recursion.
unseal Descriptor.splitTypes in
theorem ofMethod_forwardedResult :
    (FlowGraph.ofMethod forwardedResult (.ofMethod forwardedResult) []).graph =
        .ok forwardedResultGraph ∧
      (FlowGraph.ofMethod forwardedResult (.ofMethod forwardedResult) []).vars =
        forwardedResultVars := by
  have hvars : Variables.ofMethod forwardedResult = .empty := by cbv
  have hvisited : (FlowGraph.Construction.visitAll forwardedResult 2).run (.start .empty []) =
      .ok () { graph := (FlowGraph.empty.addNode forwardedResultNode).2
               lifter := { vars := forwardedResultVars, pending := some 0 }
               events := []
               nodeOf := [(0, 0)]
               queue := []
               seen := [0] } := rfl
  have hcomplete : (FlowGraph.complete forwardedResult
      { (FlowGraph.empty.addNode forwardedResultNode).2 with entry := 0 } []).1 =
      forwardedResultGraph := by cbv
  rw [hvars]
  have hbuilt := FlowGraph.ofMethod_of_visited rfl rfl hvisited
  exact ⟨hbuilt.1.trans (congrArg _ hcomplete), hbuilt.2⟩

theorem forwardedResult_defined :
    forwardedResultGraph.Defined forwardedResultVars.params := by
  obtain ⟨hgraph, hvars⟩ := ofMethod_forwardedResult
  obtain ⟨hsound, hlt⟩ := LiftState.sound_ofMethod forwardedResult
  obtain ⟨hindexed, hbounded, -⟩ := FlowGraph.ofMethod_indexed hsound hlt hgraph
  rw [hvars] at hbounded
  refine FlowGraph.defined_of_chains hindexed.numbered [0, 1] ?_ (by decide +kernel)
  intro ins u hins v hv
  exact List.mem_range.mpr ((hbounded ins u hins).1 v hv)

/-- The chains of the graph. -/
def forwardedResultChains : Chains :=
  { defsAt := [((0, 1), [0]), ((1, 2), [1])]
    usesAt := [((0, 0), [1]), ((1, 1), [2])] }

/-- No variable of the graph has several webs, and every definition is used. -/
theorem pruned_forwardedResult :
    let split := (Splitting.mk forwardedResultGraph forwardedResultVars
      (Chains.ofGraph forwardedResultGraph forwardedResultVars.params)).run.2
    (Pruning.run split.graph split.chains).graph = forwardedResultGraph := by
  have hchains : Chains.ofGraph forwardedResultGraph forwardedResultVars.params =
      forwardedResultChains := by cbv
  have hinUse : forwardedResultChains.definitionsInUse = [(0, 0), (1, 1)] := by cbv
  have hwebs : Web.all forwardedResultChains forwardedResultVars = [(1, [⟨[1], [2]⟩])] := by
    rw [Web.all, hinUse]
    rfl
  have hsplit : (Splitting.mk forwardedResultGraph forwardedResultVars
      forwardedResultChains).run.2 =
      ⟨forwardedResultGraph, forwardedResultVars, forwardedResultChains⟩ := by
    simp [Splitting.run, hwebs]
  rw [hchains, hsplit]
  cbv

/-- The call is made once, where its result is returned. -/
theorem propagated_effects_forwardedResult :
    (FlowGraph.ofMethod forwardedResult (.ofMethod forwardedResult) []).graph =
        .ok forwardedResultGraph ∧
      forwardedResultGraph.Defined
        (FlowGraph.ofMethod forwardedResult (.ofMethod forwardedResult) []).vars.params ∧
      let stages := Stages.ofGraph forwardedResultGraph
        (FlowGraph.ofMethod forwardedResult (.ofMethod forwardedResult) []).vars "I" "f" 64
      effects (stages.propagated.graph.trace [0]) = [.call none ⟨"LP;", "a", "()I"⟩, .ret] := by
  obtain ⟨hgraph, hvars⟩ := ofMethod_forwardedResult
  have hdefined : forwardedResultGraph.Defined
      (FlowGraph.ofMethod forwardedResult (.ofMethod forwardedResult) []).vars.params :=
    hvars ▸ forwardedResult_defined
  refine ⟨hgraph, hdefined, ?_⟩
  obtain ⟨-, h⟩ := propagated_effects forwardedResult [] "I" "f" 64 forwardedResultGraph hgraph
    hdefined
  obtain ⟨hsplit, hpruned, -⟩ := ofGraph_stages forwardedResultGraph
    (FlowGraph.ofMethod forwardedResult (.ofMethod forwardedResult) []).vars "I" "f" 64
  generalize Stages.ofGraph forwardedResultGraph _ "I" "f" 64 = stages at *
  intro stages
  have hsame : stages.pruned.graph = forwardedResultGraph := by
    rw [hpruned, hsplit, hvars]
    exact pruned_forwardedResult
  rw [hsame] at h
  have hwalk : forwardedResultGraph.toDigraph.Walk forwardedResultGraph.entry 0 [0] := .here
  exact (h 0 [0] hwalk).2.2 (by decide)

/-- A call whose result is returned on one side of a branch, while the other side returns a
constant. -/
def skippedCall : FlowGraph :=
  { FlowGraph.empty with
    slots := #[
      placedSlot .statement
        [(.assign (some 1) (.staticCall ⟨"LP;", "a", "()I"⟩ []), 0),
          (.ifCompareZero .eq (.var 0), 1)] [1, 2] [],
      placedSlot .statement [(.ret (some (.var 1)), 3)] [] [0],
      placedSlot .statement [(.ret (some (.const (.int 7))), 2)] [] [0]]
    order := [0, 2, 1]
    locIndex := [(0, 0), (1, 0), (2, 2), (3, 1)] }

theorem skippedCall_indexed :
    skippedCall.Indexed := by
  refine .of_lt ⟨FlowGraph.wellFormed_of_lt (by decide) (by decide), ?_, by decide, by decide,
    by decide⟩ (by decide) (by decide)
  simp [skippedCall, FlowGraph.toDigraph, Digraph.reversePostorder, Digraph.postorder,
    Digraph.leaveOrder, FlowGraph.size, FlowGraph.flowSuccs, FlowGraph.succs,
    FlowGraph.handlerSuccs, FlowGraph.empty, placedSlot, List.range_succ]

theorem skippedCall_defined :
    skippedCall.Defined [0] := by
  have hchains : (Chains.ofGraph skippedCall ([0] ++ [1])).defsAt =
      [((0, 1), [-1]), ((1, 3), [0])] := by cbv
  refine FlowGraph.defined_of_chains skippedCall_indexed.numbered [1] ?_ (by rw [hchains]; decide)
  rintro ins u ⟨id, hid⟩
  have hsize : id < 3 := by
    by_contra hsize
    rw [FlowGraph.code_eq_nil_of_size_le (Nat.le_of_not_lt hsize)] at hid
    exact List.not_mem_nil hid
  have hall : ∀ id, id < 3 → ∀ x, x ∈ skippedCall.code id → ∀ v, v ∈ x.1.reads → v ∈ [0, 1] := by
    decide
  exact hall id hsize (ins, u) hid

/-- Where the result is not returned, the call is made before propagation and not behind it. -/
theorem skippedCall_dropped :
    skippedCall.Indexed ∧ skippedCall.Defined [0] ∧
      skippedCall.toDigraph.Walk skippedCall.entry 2 [0, 2] ∧
      effects (skippedCall.trace [0, 2]) = [.call none ⟨"LP;", "a", "()I"⟩, .ret] ∧
      effects ((Propagation.run skippedCall (Chains.ofGraph skippedCall [0])).graph.trace [0, 2]) =
        [.ret] :=
  ⟨skippedCall_indexed, skippedCall_defined, Digraph.Walk.here.step (by decide), by decide,
    by cbv⟩

end Stages
end DalvikDecompiler
