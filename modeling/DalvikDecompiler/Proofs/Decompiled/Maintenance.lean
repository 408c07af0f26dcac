import DalvikDecompiler.Decompiled.Analysis
import DalvikDecompiler.Proofs.Chains.DeadCode
import DalvikDecompiler.Proofs.Chains.Moves
import DalvikDecompiler.Proofs.Chains.Parts
import DalvikDecompiler.Proofs.FlowGraph.Construction

/-!
# Chains through the stages of analysis

**Input.** The graph of a method with the chains built from it.

Splitting, the removal of dead code and propagation rewrite the graph and
change its chains along with it.

**Results.**
* `Stages.chains_agree`: after each of these stages, the chains are those built
  from the graph anew, if no variable is read before it has been defined.
* `Splitting.ofMethod_divides`: splitting divides the variables of registers
  into the connected parts of their definitions and uses, and changes nothing
  else.
-/

namespace DalvikDecompiler

open FlowGraph (sampleInstruction)
open Symbolic (VarId Variables LiftState)

namespace Stages

/-- The stages that rewrite the code, one after another. -/
theorem ofGraph_stages
    (g : FlowGraph)
    (vars : Variables)
    (returns name : String)
    (passes : Nat) :
    let stages := Stages.ofGraph g vars returns name passes
    stages.split =
        (Splitting.run { graph := g, vars, chains := Chains.ofGraph g vars.params }).2 ∧
      stages.pruned = Pruning.run stages.split.graph stages.split.chains ∧
      stages.propagated = Propagation.run stages.pruned.graph stages.pruned.chains := by
  unfold Stages.ofGraph
  -- the stages must stay folded: what they compute is of no concern here
  with_reducible exact ⟨rfl, rfl, rfl⟩

/-- The chains follow the graph from stage to stage, and no stage makes a variable be read before
it has been defined. -/
theorem ofGraph_tracks
    {g : FlowGraph}
    {vars : Variables}
    (hindexed : g.Indexed)
    (hbounded : g.Bounded vars.size)
    (hparams : ∀ v, v ∈ vars.params → v < vars.size)
    (hdefined : g.Defined vars.params)
    (returns name : String)
    (passes : Nat) :
    let stages := Stages.ofGraph g vars returns name passes
    let params := stages.split.vars.params
    stages.split.chains.Tracks stages.split.graph params ∧
      (stages.pruned.chains.Tracks stages.pruned.graph params ∧
        stages.pruned.graph.Defined params) ∧
      stages.propagated.chains.Tracks stages.propagated.graph params := by
  obtain ⟨hsplit, hpruned, hpropagated⟩ := ofGraph_stages g vars returns name passes
  generalize Stages.ofGraph g vars returns name passes = stages at *
  intro stages params
  have hstart : Splitting.Ready { graph := g, vars, chains := Chains.ofGraph g vars.params }
      vars.params :=
    ⟨.ofGraph hindexed, hbounded, hparams⟩
  obtain ⟨htracks, hdefined', hsame⟩ :=
    Splitting.run_tracks hstart (Chains.occupied_ofGraph g vars.params)
  rw [← hsplit] at htracks hdefined' hsame
  replace hdefined' := hdefined' hdefined
  have htracks' := Pruning.run_tracks htracks
  have hdefined'' := Pruning.run_defined htracks hdefined'
  rw [← hpruned] at htracks' hdefined''
  obtain ⟨htracks'', -⟩ := Propagation.run_tracks htracks' hdefined''
  rw [← hpropagated] at htracks''
  have hparams' : params = vars.params := hsame
  rw [hparams']
  exact ⟨htracks, ⟨htracks', hdefined''⟩, htracks''⟩

/-- **Maintained chains.**  For the graph of every method, the chains that splitting, the removal
of dead code and propagation leave behind hold the links that the graph they leave has. -/
theorem chains_agree
    (m : Bytecode.Method)
    (events : EventLog)
    (returns name : String)
    (passes : Nat)
    (g : FlowGraph)
    (hbuilt : (FlowGraph.ofMethod m (.ofMethod m) events).graph = .ok g)
    (hdefined : g.Defined (FlowGraph.ofMethod m (.ofMethod m) events).vars.params) :
    let vars := (FlowGraph.ofMethod m (.ofMethod m) events).vars
    let stages := Stages.ofGraph g vars returns name passes
    let params := stages.split.vars.params
    stages.split.chains.Agrees (Chains.ofGraph stages.split.graph params) ∧
      stages.pruned.chains.Agrees (Chains.ofGraph stages.pruned.graph params) ∧
      stages.propagated.chains.Agrees (Chains.ofGraph stages.propagated.graph params) := by
  obtain ⟨hsound, hlt⟩ := LiftState.sound_ofMethod m
  obtain ⟨hindexed, hbounded, hparams, hlt'⟩ := FlowGraph.ofMethod_indexed hsound hlt hbuilt
  rw [← hparams] at hlt'
  obtain ⟨hsplit, ⟨hpruned, -⟩, hpropagated⟩ :=
    ofGraph_tracks hindexed hbounded hlt' hdefined returns name passes
  exact ⟨hsplit.agrees, hpruned.agrees, hpropagated.agrees⟩

/-- A method that keeps a constant and then its negation in one register. -/
def reusedRegister : Bytecode.Method :=
  { owner := "LT;"
    name := "f"
    descriptor := "()I"
    access := ⟨AccessFlags.staticBit⟩
    registers := 1
    blocks :=
      [{ name := ""
         start := 0
         stop := 3
         instructions :=
          [sampleInstruction .const4 [.register 0, .literal 3] 0 1 none,
           sampleInstruction .negInt [.register 0, .register 0] 1 1 none,
           sampleInstruction .returnValue [.register 0] 2 1 none]
         children := [] }]
    exceptions := .empty }

/-- The node of the only block, before its instructions have places. -/
def reusedRegisterNode : Node :=
  { Node.plain "" .ret with
    ins := [.assign (some 0) (.const (.int 3)), .assign (some 0) (.unary .neg (.var 0) "I"),
      .ret (some (.var 0))] }

def reusedRegisterVars : Variables :=
  { Variables.empty with entries := #[.fresh (.register 0) none], registers := [(0, 0)] }

/-- The graph of the method. -/
def reusedRegisterGraph : FlowGraph :=
  { FlowGraph.empty with
    slots := #[{ node := { reusedRegisterNode with locs := [0, 1, 2], num := 1 }
                 live := true
                 succs := []
                 preds := []
                 handlerSuccs := []
                 handlerPreds := [] }]
    exit := some 0
    order := [0]
    locIndex := [(0, 0), (1, 0), (2, 0)] }

theorem ofMethod_reusedRegister :
    (FlowGraph.ofMethod reusedRegister (.ofMethod reusedRegister) []).graph =
        .ok reusedRegisterGraph ∧
      (FlowGraph.ofMethod reusedRegister (.ofMethod reusedRegister) []).vars =
        reusedRegisterVars := by
  have hvars : Variables.ofMethod reusedRegister = .empty := by cbv
  have hvisited : (FlowGraph.Construction.visitAll reusedRegister 2).run (.start .empty []) =
      .ok () { graph := (FlowGraph.empty.addNode reusedRegisterNode).2
               lifter := { vars := reusedRegisterVars, pending := none }
               events := []
               nodeOf := [(0, 0)]
               queue := []
               seen := [0] } := rfl
  have hcomplete : (FlowGraph.complete reusedRegister
      { (FlowGraph.empty.addNode reusedRegisterNode).2 with entry := 0 } []).1 =
      reusedRegisterGraph := by cbv
  rw [hvars]
  have hbuilt := FlowGraph.ofMethod_of_visited rfl rfl hvisited
  exact ⟨hbuilt.1.trans (congrArg _ hcomplete), hbuilt.2⟩

theorem reusedRegister_defined :
    reusedRegisterGraph.Defined reusedRegisterVars.params := by
  obtain ⟨hgraph, hvars⟩ := ofMethod_reusedRegister
  obtain ⟨hsound, hlt⟩ := LiftState.sound_ofMethod reusedRegister
  obtain ⟨hindexed, hbounded, -⟩ := FlowGraph.ofMethod_indexed hsound hlt hgraph
  rw [hvars] at hbounded
  refine FlowGraph.defined_of_chains hindexed.numbered [0] ?_ (by decide +kernel)
  intro ins u hins v hv
  have hv : v < 1 := (hbounded ins u hins).1 v hv
  simpa [reusedRegisterVars, Variables.empty] using hv

/-- The two values get variables of their own, and are then propagated. -/
theorem chains_agree_reusedRegister :
    (FlowGraph.ofMethod reusedRegister (.ofMethod reusedRegister) []).graph =
        .ok reusedRegisterGraph ∧
      reusedRegisterGraph.Defined
        (FlowGraph.ofMethod reusedRegister (.ofMethod reusedRegister) []).vars.params ∧
      let stages := Stages.ofGraph reusedRegisterGraph
        (FlowGraph.ofMethod reusedRegister (.ofMethod reusedRegister) []).vars "I" "f" 64
      stages.propagated.chains.Agrees
        (Chains.ofGraph stages.propagated.graph stages.split.vars.params) := by
  obtain ⟨hgraph, hvars⟩ := ofMethod_reusedRegister
  have hdefined : reusedRegisterGraph.Defined
      (FlowGraph.ofMethod reusedRegister (.ofMethod reusedRegister) []).vars.params :=
    hvars ▸ reusedRegister_defined
  exact ⟨hgraph, hdefined,
    (chains_agree reusedRegister [] "I" "f" 64 reusedRegisterGraph hgraph hdefined).2.2⟩

end Stages

namespace Splitting

open Web (Connected)

/-- **Splitting divides variables into their connected parts.**  For the graph of every method with
the chains built from it: each definition supplies the reads that it supplied before, which the
chains still say, and is of the variable that is read there.  Used definitions of a register are of
one variable afterwards exactly if a chain of shared uses connects them, and of the old one if an
argument is among them.  No other variable, and nothing else in any instruction, has changed. -/
theorem ofMethod_divides
    (m : Bytecode.Method)
    (events : EventLog)
    (g : FlowGraph)
    (hbuilt : (FlowGraph.ofMethod m (.ofMethod m) events).graph = .ok g) :
    let vars := (FlowGraph.ofMethod m (.ofMethod m) events).vars
    let split := (run { graph := g, vars, chains := Chains.ofGraph g vars.params }).2
    split.chains.Agrees (Chains.ofGraph split.graph vars.params) ∧
    ∃ p : Parts, p.Divides g split.graph vars.params vars ∧
      (∀ d u, (∃ w, split.graph.Links vars.params w d u) ↔ ∃ v, g.Links vars.params v d u) ∧
      ∀ v d u, g.Links vars.params v d u →
        (∀ ins, split.graph.instrAt d = some ins → ins.target? = some (p.defined v d)) ∧
        ∃ ins, split.graph.instrAt u = some ins ∧ p.defined v d ∈ ins.reads := by
  obtain ⟨hsound, hlt⟩ := LiftState.sound_ofMethod m
  obtain ⟨hindexed, hbounded, hparams, hlt'⟩ := FlowGraph.ofMethod_indexed hsound hlt hbuilt
  rw [← hparams] at hlt'
  have hnodup := LiftState.nodup_params_ofMethod m
  rw [← hparams] at hnodup
  generalize (FlowGraph.ofMethod m (.ofMethod m) events).vars = vars at *
  intro _ split
  have hready : Ready { graph := g, vars, chains := Chains.ofGraph g vars.params } vars.params :=
    ⟨.ofGraph hindexed, hbounded, hlt'⟩
  have hoccupied := Chains.occupied_ofGraph g vars.params
  obtain ⟨p, hdivides⟩ := run_divides hready hoccupied hnodup
  have htracks := (run_tracks hready hoccupied).1
  have hindexed' := htracks.indexed
  refine ⟨htracks.agrees, p, hdivides, fun d u => ⟨?_, ?_⟩, fun v d u hlink => ?_⟩
  · rintro ⟨w, hlink⟩
    obtain ⟨v, hlink, -⟩ := (hdivides.links_iff w d u).mp hlink
    exact ⟨v, hlink⟩
  · rintro ⟨v, hlink⟩
    exact ⟨_, (hdivides.links_iff _ d u).mpr ⟨v, hlink, rfl⟩⟩
  · have hlink' := (hdivides.links_iff _ d u).mpr ⟨v, hlink, rfl⟩
    refine ⟨fun ins hins => hlink'.target_eq hindexed' (hindexed'.instrAt_eq_some_iff.mp hins), ?_⟩
    obtain ⟨run, ins, hexec, hreads, -⟩ := hlink'
    exact ⟨ins, hindexed'.instrAt_eq_some_iff.mpr hexec.holds, hreads⟩

/-- The constant and its negation are not connected, so they are kept in two variables. -/
theorem ofMethod_divides_reusedRegister :
    (FlowGraph.ofMethod Stages.reusedRegister (.ofMethod Stages.reusedRegister) []).graph =
        .ok Stages.reusedRegisterGraph ∧
      let vars := Stages.reusedRegisterVars
      let split := (run
        { graph := Stages.reusedRegisterGraph
          vars
          chains := Chains.ofGraph Stages.reusedRegisterGraph vars.params }).2
      ∃ p : Parts,
        p.Divides Stages.reusedRegisterGraph split.graph vars.params vars ∧
          p.defined 0 0 ≠ p.defined 0 1 := by
  obtain ⟨hgraph, hvars⟩ := Stages.ofMethod_reusedRegister
  obtain ⟨-, p, hdivides, -⟩ :=
    ofMethod_divides Stages.reusedRegister [] Stages.reusedRegisterGraph hgraph
  obtain ⟨hsound, hlt⟩ := LiftState.sound_ofMethod Stages.reusedRegister
  have hnumbered := (FlowGraph.ofMethod_indexed hsound hlt hgraph).1.numbered
  rw [hvars] at hdivides
  have hlinks : ∀ v d u, d ∈ (Chains.ofGraph Stages.reusedRegisterGraph []).defs v u ↔
      Stages.reusedRegisterGraph.Links Stages.reusedRegisterVars.params v d u :=
    fun _ _ _ => Chains.mem_defs_ofGraph hnumbered
  have hfirst := (hlinks 0 0 1).mp (by decide +kernel)
  have hsecond := (hlinks 0 1 2).mp (by decide +kernel)
  refine ⟨hgraph, p, hdivides, fun hsame => ?_⟩
  have hconnected :=
    (hdivides.defined_eq_iff 0 0 1 (by decide +kernel) ⟨1, hfirst⟩ ⟨2, hsecond⟩).mp hsame
  have hapart : ∀ d u, Stages.reusedRegisterGraph.Links Stages.reusedRegisterVars.params 0 d u →
      (d = 0 ↔ u = 1) := by
    intro d u hlink
    obtain ⟨locs, hentry, hmem⟩ := LinkMap.exists_of_mem_linked ((hlinks 0 d u).mpr hlink)
    have hall : ∀ entry ∈ (Chains.ofGraph Stages.reusedRegisterGraph []).defsAt,
        ∀ d ∈ entry.2, d = 0 ↔ entry.1.2 = 1 := by decide +kernel
    exact hall _ hentry d hmem
  exact absurd ((hconnected.iff hapart).mp rfl) (by decide)

end Splitting
end DalvikDecompiler
