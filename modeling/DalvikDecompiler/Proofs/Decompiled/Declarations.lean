import DalvikDecompiler.Proofs.Chains.Declarations
import DalvikDecompiler.Proofs.Chains.Occupied
import DalvikDecompiler.Proofs.Decompiled.Dominance
import DalvikDecompiler.Proofs.Decompiled.Names

/-!
# Declarations of a method

**Input.** A method whose graph reads no variable before it is defined.

Declarations are placed behind splitting, the removal of dead code and propagation,
by the chains that these stages have kept and the dominator tree of the graph they
have left.  All of this is exact, and the arguments of the method are still marked
as such.

**Results.**
* `propagated_exact`: what declarations are placed by.
* `ofMethod_placed`: each variable has its place, in the graph of a method and in the
  graph in which the analysis places declarations.  In a method that chooses one of two
  constants, this is the node that branches.
-/

namespace DalvikDecompiler

open Symbolic (VarId Variables LiftState)

namespace DominatorTree

/-- The tree that is computed for a graph whose order is current is exact. -/
theorem exact_dominatorTree
    {g : FlowGraph}
    (hg : g.Numbered) :
    Exact g.toDigraph g.dominatorTree := by
  have hcurrent : g.order = g.toDigraph.reversePostorder g.toDigraph.entry := hg.current
  rw [FlowGraph.dominatorTree, hcurrent]
  rcases Nat.lt_or_ge g.toDigraph.entry g.toDigraph.size with hlt | hge
  · exact exact_of_entry_lt hg.wellFormed hlt
  · rw [(compute_of_size_le hge).1, (compute_of_size_le hge).2]
    exact exact_of_size_le hg.wellFormed hge

end DominatorTree

namespace Splitting

theorem kinds_prefix_run
    (s : Splitting) :
    s.vars.kinds <+: (run s).2.vars.kinds := by
  rw [run_eq_foldl]
  refine List.foldlRecOn (motive := fun s' : Splitting => s.vars.kinds <+: s'.vars.kinds) _ _
    List.prefix_rfl fun s' h task _ => ?_
  rcases kinds_separate s' task with heq | heq
  · rwa [heq]
  · rw [heq]
    exact h.trans (List.prefix_append _ _)

end Splitting

namespace Stages

open Declaration (Defines Placed)
open FlowGraph (sampleInstruction)

variable {g : FlowGraph} {vars : Variables}

theorem ofGraph_typed
    (g : FlowGraph)
    (vars : Variables)
    (returns name : String)
    (passes : Nat) :
    let stages := Stages.ofGraph g vars returns name passes
    stages.vars = Typing.infer stages.propagated.graph returns stages.split.vars ∧
      stages.earlyTree = stages.propagated.graph.dominatorTree := by
  unfold Stages.ofGraph
  with_reducible exact ⟨rfl, rfl⟩

/-- When declarations are placed, no variable is read before it is defined, the chains hold the
links of the graph, and arguments are marked as such. -/
theorem propagated_exact
    (hindexed : g.Indexed)
    (hbounded : g.Bounded vars.size)
    (hparams : ∀ v, v ∈ vars.params → v < vars.size)
    (hmarked : ∀ v, v ∈ vars.params → vars.isParam v = true)
    (hdefined : g.Defined vars.params)
    (returns name : String)
    (passes : Nat) :
    let stages := Stages.ofGraph g vars returns name passes
    let params := stages.split.vars.params
    stages.propagated.graph.Defined params ∧
      stages.propagated.chains.Tracks stages.propagated.graph params ∧
      stages.propagated.chains.Occupied ∧
      ∀ v, v ∈ params → stages.vars.isParam v = true := by
  obtain ⟨-, ⟨hpruned, hdefined'⟩, -⟩ :=
    ofGraph_tracks hindexed hbounded hparams hdefined returns name passes
  obtain ⟨hsplit, hpruning, hpropagated⟩ := ofGraph_stages g vars returns name passes
  obtain ⟨htyped, -⟩ := ofGraph_typed g vars returns name passes
  generalize Stages.ofGraph g vars returns name passes = stages at *
  intro stages params
  have hoccupied := Chains.occupied_ofGraph g vars.params
  have hready : Splitting.Ready { graph := g, vars, chains := Chains.ofGraph g vars.params }
      vars.params :=
    ⟨.ofGraph hindexed, hbounded, hparams⟩
  have hsame : params = vars.params := by
    obtain ⟨-, -, hsame⟩ := Splitting.run_tracks hready hoccupied
    rwa [← hsplit] at hsame
  have hsplit' : stages.split.chains.Occupied :=
    hsplit ▸ Splitting.run_occupied hoccupied
  have hpruned' : stages.pruned.chains.Occupied :=
    hpruning ▸ Pruning.run_occupied hsplit'
  obtain ⟨htracks, hdefined''⟩ := Propagation.run_tracks hpruned hdefined'
  rw [← hpropagated] at htracks hdefined''
  refine ⟨hdefined'', htracks, hpropagated ▸ Propagation.run_occupied hpruned', fun v hv => ?_⟩
  have hkinds : vars.kinds <+: stages.vars.kinds := by
    rw [htyped, (Typing.infer_learns _ _ _).kinds_eq, hsplit]
    exact Splitting.kinds_prefix_run { graph := g, vars, chains := Chains.ofGraph g vars.params }
  exact Variables.isParam_of_prefix hkinds (hmarked v (hsame ▸ hv))

/-- **Declarations dominate what they declare.**  Take a method whose graph reads no variable before
it is defined, and a variable that is no argument and has a used definition outside of handlers.
With chains that hold the links of the graph and an exact dominator tree, the variable has its place
in one node: this node dominates all its used definitions outside of handlers and all uses that no
definition in a handler supplies, no other node that it dominates does the first of these, and it
declares the variable unless it holds a definition.  It is the same for the graph in which the
analysis places declarations, with the chains and the tree that it has there. -/
theorem ofMethod_placed
    {m : Bytecode.Method}
    {events : EventLog}
    {g : FlowGraph}
    (hbuilt : (FlowGraph.ofMethod m (.ofMethod m) events).graph = .ok g)
    (hdefined : g.Defined (FlowGraph.ofMethod m (.ofMethod m) events).vars.params) :
    let vars := (FlowGraph.ofMethod m (.ofMethod m) events).vars
    (∀ (c : Chains) (tree : DominatorTree) (v : VarId),
      c.Tracks g vars.params →
      c.Occupied →
      DominatorTree.Exact g.toDigraph tree →
      vars.isParam v = false →
      (∃ n, Defines g vars.params v n) →
      ∃ home, Placed g vars.params vars c tree v home) ∧
    ∀ (returns name : String) (passes : Nat) (v : VarId),
      let stages := Stages.ofGraph g vars returns name passes
      let params := stages.split.vars.params
      stages.vars.isParam v = false →
      (∃ n, Defines stages.propagated.graph params v n) →
      ∃ home, Placed stages.propagated.graph params stages.vars stages.propagated.chains
        stages.earlyTree v home := by
  obtain ⟨hsound, hlt⟩ := LiftState.sound_ofMethod m
  obtain ⟨hindexed, hbounded, hparams, hlt'⟩ := FlowGraph.ofMethod_indexed hsound hlt hbuilt
  rw [← hparams] at hlt'
  have hextends := FlowGraph.ofMethod_extends hbuilt
  have hmarked : ∀ v, v ∈ (FlowGraph.ofMethod m (.ofMethod m) events).vars.params →
      (FlowGraph.ofMethod m (.ofMethod m) events).vars.isParam v = true := fun v hv =>
    Variables.isParam_of_prefix hextends.kinds_prefix
      (Variables.isParam_of_mem_params (hparams ▸ hv))
  generalize (FlowGraph.ofMethod m (.ofMethod m) events).vars = vars at *
  intro _
  constructor
  · intro c tree v hc hused htree hv hsome
    exact Declaration.exists_placed hdefined hc hused htree hmarked hv hsome
  · intro returns name passes v
    obtain ⟨hdefined', htracks, hoccupied, hmarked'⟩ :=
      propagated_exact hindexed hbounded hlt' hmarked hdefined returns name passes
    obtain ⟨-, hearly⟩ := ofGraph_typed g vars returns name passes
    generalize Stages.ofGraph g vars returns name passes = stages at *
    intro stages params hv hsome
    have htree : DominatorTree.Exact stages.propagated.graph.toDigraph stages.earlyTree :=
      hearly ▸ DominatorTree.exact_dominatorTree htracks.indexed.numbered
    exact Declaration.exists_placed hdefined' htracks hoccupied htree hmarked' hv hsome

/-- A method that keeps one of two constants in a register, on two ways that meet. -/
def chosenConstant : Bytecode.Method :=
  let block (start stop : UInt32) (instructions : List Bytecode.Instruction)
      (children : List (UInt32 × UInt64)) : Bytecode.Block :=
    { name := "", start, stop, instructions, children }
  { owner := "LT;"
    name := "f"
    descriptor := "(I)I"
    access := ⟨AccessFlags.staticBit⟩
    registers := 2
    blocks :=
      [block 0 2 [sampleInstruction .ifEqz [.register 1] 0 2 (some 4)] [(2, 1), (4, 2)],
       block 2 4
        [sampleInstruction .const4 [.register 0, .literal 1] 2 1 none,
         sampleInstruction .goto [] 3 1 (some 2)]
        [(5, 3)],
       block 4 5 [sampleInstruction .const4 [.register 0, .literal 2] 4 1 none] [(5, 3)],
       block 5 6 [sampleInstruction .returnValue [.register 0] 5 1 none] []]
    exceptions := .empty }

/-- The argument, in the second register, and the first register. -/
def chosenConstantVars : Variables :=
  { Variables.empty with
    entries := #[.fresh (.param 1) (some "I"), .fresh (.register 0) none]
    registers := [(1, 0), (0, 1)]
    params := [0] }

/-- A node of the method, before its instruction has a place. -/
def chosenConstantSlot (start : UInt32) (kind : NodeKind) (ins : Symbolic.Instr)
    (succs preds : List NodeId) : Slot :=
  { node := { Node.plain "" kind with start, ins := [ins] }
    live := true
    succs
    preds
    handlerSuccs := []
    handlerPreds := [] }

/-- Construction when the first block has its children. -/
def chosenConstantFirst (kind : NodeKind) : FlowGraph.Construction :=
  { graph :=
      { FlowGraph.empty with
        slots := #[
          chosenConstantSlot 0 kind (.ifCompareZero .eq (.var 0)) [1, 2] [],
          chosenConstantSlot 2 .statement (.assign (some 1) (.const (.int 1))) [] [0],
          chosenConstantSlot 4 .statement (.assign (some 1) (.const (.int 2))) [] [0]] }
    lifter := { vars := chosenConstantVars, pending := none }
    events := []
    nodeOf := [(0, 0), (1, 1), (2, 2)]
    queue := [1, 2]
    seen := [0, 1, 2] }

/-- The nodes of the method, after `placed` has been applied to each. -/
def chosenConstantSlots (placed : Nat → Loc → Slot → Slot) : Array Slot :=
  #[placed 1 0
      (chosenConstantSlot 0 (.conditional ⟨2, 1⟩) (.ifCompareZero .eq (.var 0)) [1, 2] []),
    placed 3 2 (chosenConstantSlot 2 .statement (.assign (some 1) (.const (.int 1))) [3] [0]),
    placed 2 1 (chosenConstantSlot 4 .statement (.assign (some 1) (.const (.int 2))) [3] [0]),
    placed 4 3 (chosenConstantSlot 5 .ret (.ret (some (.var 1))) [] [1, 2])]

/-- Construction when all blocks have been visited. -/
def chosenConstantLast : FlowGraph.Construction :=
  { chosenConstantFirst .statement with
    graph := { FlowGraph.empty with slots := chosenConstantSlots fun _ _ slot => slot }
    nodeOf := [(0, 0), (1, 1), (2, 2), (3, 3)]
    queue := []
    seen := [0, 1, 2, 3] }

/-- The graph of the method. -/
def chosenConstantGraph : FlowGraph :=
  { FlowGraph.empty with
    slots := chosenConstantSlots fun num loc slot =>
      { slot with node := { slot.node with num, locs := [loc] } }
    exit := some 3
    order := [0, 2, 1, 3]
    locIndex := [(0, 0), (1, 2), (2, 1), (3, 3)] }

theorem ofMethod_chosenConstant :
    (FlowGraph.ofMethod chosenConstant (.ofMethod chosenConstant) []).graph =
        .ok chosenConstantGraph ∧
      (FlowGraph.ofMethod chosenConstant (.ofMethod chosenConstant) []).vars =
        chosenConstantVars := by
  let start : FlowGraph.Construction :=
    .start
      { Variables.empty with
        entries := #[.fresh (.param 1) (some "I")]
        registers := [(1, 0)]
        params := [0] } []
  let entered : FlowGraph.Construction :=
    { start with
      graph :=
        { FlowGraph.empty with
          slots := #[chosenConstantSlot 0 .statement (.ifCompareZero .eq (.var 0)) [] []] }
      nodeOf := [(0, 0)]
      queue := [] }
  have hstart : FlowGraph.Construction.start (.ofMethod chosenConstant) [] = start := by cbv
  -- the visit of the first block as a whole is too much for one evaluation
  have hnode : (FlowGraph.Construction.nodeOfBlock chosenConstant 0).run
      { start with queue := [] } = .ok 0 entered := rfl
  have hchildren : (FlowGraph.Construction.linkChildren chosenConstant 0 [(2, 1), (4, 2)]).run
      entered = .ok [1, 2] (chosenConstantFirst .statement) := rfl
  have hhandlers : (FlowGraph.Construction.linkHandlers chosenConstant 0 []).run
      (chosenConstantFirst .statement) = .ok () (chosenConstantFirst .statement) := rfl
  have hvisit : (FlowGraph.Construction.visit chosenConstant 0 chosenConstant.blocks[0]).run
      { start with queue := [] } = .ok () (chosenConstantFirst (.conditional ⟨2, 1⟩)) :=
    FlowGraph.Construction.run_visit hnode hchildren hhandlers rfl
  have hvisited : (FlowGraph.Construction.visitAll chosenConstant 5).run start =
      .ok () chosenConstantLast :=
    calc (FlowGraph.Construction.visitAll chosenConstant 5).run start
      _ = (FlowGraph.Construction.visitAll chosenConstant 4).run
            (chosenConstantFirst (.conditional ⟨2, 1⟩)) := FlowGraph.run_visitAll rfl rfl hvisit
      _ = .ok () chosenConstantLast := rfl
  have hcomplete : (FlowGraph.complete chosenConstant
      { chosenConstantLast.graph with entry := 0 } []).1 = chosenConstantGraph := by
    cbv
  have hbuilt := FlowGraph.ofMethod_of_visited rfl (by decide +kernel) (hstart ▸ hvisited)
  exact ⟨hbuilt.1.trans (congrArg _ hcomplete), hbuilt.2⟩

theorem chosenConstant_defined :
    chosenConstantGraph.Defined chosenConstantVars.params := by
  obtain ⟨hgraph, hvars⟩ := ofMethod_chosenConstant
  obtain ⟨hsound, hlt⟩ := LiftState.sound_ofMethod chosenConstant
  obtain ⟨hindexed, hbounded, -⟩ := FlowGraph.ofMethod_indexed hsound hlt hgraph
  rw [hvars] at hbounded
  have hstart : Reaching.start chosenConstantGraph [0, 1] =
      { sites := [(0, -1), (1, -2), (1, 1), (1, 2)]
        arguments := [-1, -2]
        places := [-2, -1, 1, 2]
        out := #[[], [], [], []] } := by cbv
  have hchains : (Chains.ofGraph chosenConstantGraph [0, 1]).defsAt =
      [((0, 0), [-1]), ((1, 3), [1, 2])] := by
    rw [Chains.ofGraph, Reaching.compute, hstart]
    rfl
  refine FlowGraph.defined_of_chains hindexed.numbered [1] (fun ins u hins v hv => ?_) ?_
  · have hv : v < 2 := (hbounded ins u hins).1 v hv
    exact List.mem_range.mpr hv
  · change ∀ entry, entry ∈ (Chains.ofGraph chosenConstantGraph [0, 1]).defsAt → _
    rw [hchains]
    decide

/-- Both ways behind the branch hold a definition that the return uses. -/
theorem chosenConstant_defines
    {branch : NodeId}
    (h : branch = 1 ∨ branch = 2) :
    chosenConstantGraph.toDigraph.Walk chosenConstantGraph.entry branch [0, branch] ∧
      Defines chosenConstantGraph chosenConstantVars.params 1 branch := by
  have hlink : ∀ d, chosenConstantGraph.toDigraph.Walk chosenConstantGraph.entry 3 [0, branch, 3] →
      chosenConstantGraph.trace [0, branch, 3] =
        chosenConstantGraph.trace [0, branch] ++ [(.ret (some (.var 1)), 3)] →
      lastDefinition 1 (chosenConstantGraph.trace [0, branch]) = some d →
      chosenConstantGraph.Links chosenConstantVars.params 1 d 3 := fun d hwalk htrace hlast =>
    ⟨_, _, ⟨3, _, [], hwalk, htrace⟩, by decide, Or.inl hlast⟩
  rcases h with rfl | rfl
  · have hwalk : chosenConstantGraph.toDigraph.Walk chosenConstantGraph.entry 1 [0, 1] :=
      Digraph.Walk.here.step (by decide)
    exact ⟨hwalk, by decide, 2, 3, by decide, hlink 2 (hwalk.step (by decide)) rfl (by decide)⟩
  · have hwalk : chosenConstantGraph.toDigraph.Walk chosenConstantGraph.entry 2 [0, 2] :=
      Digraph.Walk.here.step (by decide)
    exact ⟨hwalk, by decide, 1, 3, by decide, hlink 1 (hwalk.step (by decide)) rfl (by decide)⟩

/-- The constants are stored behind the branch, which declares their variable. -/
theorem ofMethod_placed_chosenConstant :
    (FlowGraph.ofMethod chosenConstant (.ofMethod chosenConstant) []).graph =
        .ok chosenConstantGraph ∧
      let vars := (FlowGraph.ofMethod chosenConstant (.ofMethod chosenConstant) []).vars
      let chains := Chains.ofGraph chosenConstantGraph vars.params
      let tree := chosenConstantGraph.dominatorTree
      chosenConstantGraph.Defined vars.params ∧
        Placed chosenConstantGraph vars.params vars chains tree 1 0 ∧
        1 ∈ ((Declaration.place chosenConstantGraph vars chains tree).node 0).declares := by
  obtain ⟨hgraph, hvars⟩ := ofMethod_chosenConstant
  have hdefined : chosenConstantGraph.Defined
      (FlowGraph.ofMethod chosenConstant (.ofMethod chosenConstant) []).vars.params :=
    hvars ▸ chosenConstant_defined
  obtain ⟨hsound, hlt⟩ := LiftState.sound_ofMethod chosenConstant
  obtain ⟨hindexed, -, -⟩ := FlowGraph.ofMethod_indexed hsound hlt hgraph
  obtain ⟨hplaced, -⟩ := ofMethod_placed hgraph hdefined
  rw [hvars] at hplaced hdefined ⊢
  obtain ⟨hfirst, hone⟩ := chosenConstant_defines (Or.inl rfl)
  obtain ⟨hsecond, htwo⟩ := chosenConstant_defines (Or.inr rfl)
  obtain ⟨home, hhome⟩ := hplaced (Chains.ofGraph chosenConstantGraph chosenConstantVars.params)
    chosenConstantGraph.dominatorTree 1 (.ofGraph hindexed) (Chains.occupied_ofGraph _ _)
    (DominatorTree.exact_dominatorTree hindexed.numbered) rfl ⟨1, hone⟩
  obtain rfl : home = 0 := by
    have habove := hhome.dominates_defines 1 hone _ hfirst
    have habove' := hhome.dominates_defines 2 htwo _ hsecond
    simp only [List.mem_cons, List.not_mem_nil, or_false] at habove habove'
    rcases habove with rfl | rfl
    · rfl
    · exact absurd habove' (by decide)
  have hnot : ¬Defines chosenConstantGraph chosenConstantVars.params 1 0 := by
    rintro ⟨-, d, u, hd, hlink⟩
    obtain rfl := List.mem_singleton.mp hd
    have hins : chosenConstantGraph.Holds (.ifCompareZero .eq (.var 0)) 0 :=
      ⟨0, List.mem_cons_self⟩
    cases hlink.target_eq hindexed hins
  exact ⟨hgraph, hdefined, hhome, (hhome.declares_iff 0).mpr (Or.inr ⟨rfl, hnot⟩)⟩

end Stages
end DalvikDecompiler
