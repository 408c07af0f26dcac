import DalvikDecompiler.Decompiled.Analysis
import DalvikDecompiler.Proofs.Chains.Amending
import DalvikDecompiler.Proofs.Decompiled.Maintenance
import DalvikDecompiler.Proofs.FlowGraph.Linking
import DalvikDecompiler.Proofs.FlowGraph.ProtectedDominance

/-!
# The dominator tree of an analysed method

**Input.** A method with a body.

Splitting variables, removing dead code, propagating values and placing declarations change what
nodes hold.  Cleaning up and structuring then change the nodes, and the tree is computed in between.

**Results.**
* `ofGraph_amends`, `ofGraph_retouches`: the stages that rewrite code leave all else of the nodes,
  and the edges, alone.
* `ofGraph_ordinary`: the graph is ordinary when its tree is computed.
* `Analysis.ofMethod_dominators`: the tree of an analysed method fits its graph apart from the nodes
  that protected regions are entered through.
-/

namespace DalvikDecompiler

open FlowGraph (Amends Recoded Retouches SameKind retouches_modifyNode)

theorem Declaration.place_retouches
    (g : FlowGraph)
    (vars : Symbolic.Variables)
    (c : Chains)
    (tree : DominatorTree) :
    Retouches Recoded g (place g vars c tree) :=
  place_induction (.refl Recoded.refl g)
    (fun _ id _ h => h.trans Recoded.trans (retouches_modifyNode id Recoded.refl fun _ => rfl))
    vars c tree

namespace Stages

variable {g : FlowGraph} {vars : Symbolic.Variables}

/-- The stages that change nodes, one after another. -/
theorem ofGraph_shapes
    (g : FlowGraph)
    (vars : Symbolic.Variables)
    (returns name : String)
    (passes : Nat) :
    let stages := Stages.ofGraph g vars returns name passes
    stages.declared = Declaration.place stages.propagated.graph stages.vars
        stages.propagated.chains stages.earlyTree ∧
      stages.clean = stages.declared.splitBranches.2.compact.2.reorder ∧
      stages.tree = stages.clean.dominatorTree ∧
      stages.structured = stages.clean.structured stages.tree passes name := by
  unfold Stages.ofGraph
  with_reducible exact ⟨rfl, rfl, rfl, rfl⟩

/-- The stages that rewrite code, one after another. -/
theorem ofGraph_amends
    (g : FlowGraph)
    (vars : Symbolic.Variables)
    (returns name : String)
    (passes : Nat) :
    let stages := Stages.ofGraph g vars returns name passes
    Amends g stages.split.graph ∧ Amends stages.split.graph stages.pruned.graph ∧
      Amends stages.pruned.graph stages.propagated.graph := by
  obtain ⟨hsplit, hpruned, hpropagated⟩ := ofGraph_stages g vars returns name passes
  generalize Stages.ofGraph g vars returns name passes = stages at *
  exact ⟨hsplit ▸ Splitting.run_amends { graph := g, vars, chains := Chains.ofGraph g vars.params },
    hpruned ▸ Pruning.run_amends _ _, hpropagated ▸ Propagation.run_amends _ _⟩

theorem ofGraph_retouches
    (g : FlowGraph)
    (vars : Symbolic.Variables)
    (returns name : String)
    (passes : Nat) :
    Retouches Recoded g (Stages.ofGraph g vars returns name passes).declared := by
  obtain ⟨hsplit, hpruned, hpropagated⟩ := ofGraph_amends g vars returns name passes
  obtain ⟨hdeclared, -⟩ := ofGraph_shapes g vars returns name passes
  generalize Stages.ofGraph g vars returns name passes = stages at *
  have hlast : Retouches Recoded stages.propagated.graph stages.declared :=
    hdeclared ▸ Declaration.place_retouches _ _ _ _
  exact ((hsplit.trans hpruned).trans hpropagated).retouches.trans Recoded.trans hlast

/-- **The graph is ordinary when its tree is computed**, and the tree is that of the graph. -/
theorem ofGraph_ordinary
    (h : g.Ordinary)
    (vars : Symbolic.Variables)
    (returns name : String)
    (passes : Nat) :
    let stages := Stages.ofGraph g vars returns name passes
    stages.clean.Ordinary ∧ stages.tree.Fits stages.clean.toDigraph ∧
      ∀ n, stages.clean.size ≤ n → stages.tree.immediateDominator n = none := by
  have hdeclared := h.retouch
    ((ofGraph_retouches g vars returns name passes).mono fun _ _ => Recoded.sameKind)
  obtain ⟨-, hclean, htree, -⟩ := ofGraph_shapes g vars returns name passes
  generalize Stages.ofGraph g vars returns name passes = stages at *
  intro stages
  have hordinary : stages.clean.Ordinary := hclean ▸ hdeclared.clean
  have horder : stages.clean.order = stages.clean.toDigraph.reversePostorder stages.clean.entry :=
    hclean ▸ FlowGraph.order_reorder _
  refine ⟨hordinary, htree ▸ FlowGraph.fits_dominatorTree hordinary.wired horder,
    fun n houtside => ?_⟩
  rw [htree, FlowGraph.dominatorTree, horder]
  exact DominatorTree.compute_beyond hordinary.wired.wellFormed
    (FlowGraph.lt_size_of_isLive hordinary.entry_live) n houtside

end Stages

namespace Analysis

/-- What the stages make of the graph of a method. -/
def stagesOf (options : Options) (m : Bytecode.Method) (g : FlowGraph) : Stages :=
  Stages.ofGraph g (FlowGraph.ofMethod m (.ofMethod m) []).vars m.returnType m.qualifiedName
    options.passes

variable {options : Options} {m : Bytecode.Method} {g : FlowGraph}

theorem ofMethod_stagesOf
    (hbuilt : (FlowGraph.ofMethod m (.ofMethod m) []).graph = .ok g)
    (hinTime : options.isOutOfTime = false) :
    (ofMethod options m).result = .ok
      { graph := (stagesOf options m g).structured.graph
        vars := (stagesOf options m g).vars
        tree := (stagesOf options m g).structured.tree
        summary := (stagesOf options m g).structured.summary } := by
  unfold ofMethod stagesOf
  simp only [hbuilt, hinTime, Bool.false_eq_true, if_false]

/-- **The dominator tree of an analysed method.**  For the graph of every method, the tree fits the
structured graph apart from the nodes that protected regions are entered through, and is exact where
there are none, if the entry and all handlers are tested first wherever they are tested. -/
theorem ofMethod_dominators
    (hbuilt : (FlowGraph.ofMethod m (.ofMethod m) []).graph = .ok g)
    (hinTime : options.isOutOfTime = false)
    (hopens : ∀ n, (stagesOf options m g).clean.Landing n →
      (stagesOf options m g).structured.graph.Opens (stagesOf options m g).clean.size n) :
    ∃ a, (ofMethod options m).result = .ok a ∧ a.graph = (stagesOf options m g).structured.graph ∧
      a.tree.FitsApart a.graph ∧
      ((∀ n, a.graph.toDigraph.Reachable a.graph.entry n → (a.graph.node n).kind.entered? = none) →
        a.tree.Fits a.graph.toDigraph) := by
  have hresult := ofMethod_stagesOf hbuilt hinTime
  unfold stagesOf at *
  obtain ⟨hordinary, hfits, hbeyond⟩ := Stages.ofGraph_ordinary (FlowGraph.ofMethod_ordinary hbuilt)
    (FlowGraph.ofMethod m (.ofMethod m) []).vars m.returnType m.qualifiedName options.passes
  obtain ⟨-, -, -, hstructured⟩ := Stages.ofGraph_shapes g
    (FlowGraph.ofMethod m (.ofMethod m) []).vars m.returnType m.qualifiedName options.passes
  generalize Stages.ofGraph g _ _ _ _ = stages at *
  have hapart : stages.structured.tree.FitsApart stages.structured.graph := by
    rw [hstructured] at hopens ⊢
    exact FlowGraph.structured_fitsApart hordinary hfits hbeyond options.passes
      m.qualifiedName hopens
  exact ⟨_, hresult, rfl, hapart, hapart.fits⟩

section Examples

open FlowGraph (protectedSlot sampleInstruction)

/-- A method that a handler protects as a whole. -/
def protectedCall : Bytecode.Method :=
  { owner := "LT;"
    name := "f"
    descriptor := "()V"
    access := ⟨AccessFlags.staticBit⟩
    registers := 0
    blocks :=
      [{ name := ""
         start := 0
         stop := 4
         instructions :=
          [sampleInstruction .invokeStatic [.method ⟨"LP;", "a", "()V"⟩] 0 3 none,
           sampleInstruction .returnVoid [] 3 1 none]
         children := [] },
       { name := ""
         start := 4
         stop := 5
         instructions := [sampleInstruction .returnVoid [] 4 1 none]
         children := [] }]
    exceptions := ⟨[{ start := 0, stop := 4, handlers := [⟨none, 1⟩] }]⟩ }

/-- The nodes of the method, before they have numbers. -/
def protectedCallNodes : FlowGraph :=
  { FlowGraph.empty with
    slots := #[
      protectedSlot .ret [.assign none (.staticCall ⟨"LP;", "a", "()V"⟩ []),
        .ret none] [] [] [1] [],
      { protectedSlot .ret [.ret none] [] [] [] [0] with
        node := { Node.plain "" .ret with start := 4, ins := [.ret none], inCatch := true } }] }

/-- The graph of the method. -/
def protectedCallGraph : FlowGraph :=
  (FlowGraph.complete protectedCall protectedCallNodes []).1

-- The descriptor of the called method is taken apart by well-founded recursion.
unseal Descriptor.splitTypes in
theorem ofMethod_protectedCall :
    (FlowGraph.ofMethod protectedCall (.ofMethod protectedCall) []).graph =
        .ok protectedCallGraph ∧
      (FlowGraph.ofMethod protectedCall (.ofMethod protectedCall) []).vars = .empty := by
  have hvars : Symbolic.Variables.ofMethod protectedCall = .empty := by cbv
  let last : FlowGraph.Construction :=
    { graph := protectedCallNodes
      lifter := { vars := .empty, pending := none }
      events := []
      nodeOf := [(0, 0), (1, 1)]
      queue := []
      seen := [0, 1] }
  -- the handler waits when the block that it protects has been visited
  let first : FlowGraph.Construction :=
    { last with
      graph := protectedCallNodes.modifyNode 1 fun n => { n with kind := .statement }
      queue := [1] }
  have hvisited : (FlowGraph.Construction.visitAll protectedCall 3).run (.start .empty []) =
      .ok () last :=
    calc (FlowGraph.Construction.visitAll protectedCall 3).run (.start .empty [])
      _ = (FlowGraph.Construction.visitAll protectedCall 2).run first :=
          FlowGraph.run_visitAll rfl rfl rfl
      _ = .ok () last := rfl
  rw [hvars]
  have hbuilt := FlowGraph.ofMethod_of_visited rfl (by decide +kernel) hvisited
  exact hbuilt

/-- The region starts at the entry and is entered through a node of its own. -/
theorem structured_protectedCall :
    let s := (stagesOf .standard protectedCall protectedCallGraph).structured
    (s.graph.entry, s.tree.entry, s.graph.liveIds.map fun n => (s.graph.node n).kind.base) =
      (2, 0, [.ret, .ret, .tryBlock 0 [3] none, .catchBlock 1 none none]) := by
  unfold stagesOf
  rw [ofMethod_protectedCall.2]
  cbv

/-- The tree is that of the node which the region starts at and of its handler. -/
theorem ofMethod_dominators_protectedCall :
    (FlowGraph.ofMethod protectedCall (.ofMethod protectedCall) []).graph =
        .ok protectedCallGraph ∧
      Options.standard.isOutOfTime = false ∧
      (∀ n, (stagesOf .standard protectedCall protectedCallGraph).clean.Landing n →
        (stagesOf .standard protectedCall protectedCallGraph).structured.graph.Opens
          (stagesOf .standard protectedCall protectedCallGraph).clean.size n) ∧
      ∃ a, (ofMethod .standard protectedCall).result = .ok a ∧ a.graph.entry = 2 ∧
        a.tree.FitsApart a.graph := by
  obtain ⟨hbuilt, -⟩ := ofMethod_protectedCall
  have hshape := structured_protectedCall
  simp only [Prod.mk.injEq] at hshape
  obtain ⟨hentry, -, hkinds⟩ := hshape
  have hopens (n : NodeId) :
      (stagesOf .standard protectedCall protectedCallGraph).structured.graph.Opens
        (stagesOf .standard protectedCall protectedCallGraph).clean.size n := by
    refine FlowGraph.opens_of_unmerged (fun m hmem sc hjoined => ?_) _ n
    have hlisted := List.mem_map_of_mem (f := fun n =>
      ((stagesOf .standard protectedCall protectedCallGraph).structured.graph.node n).kind.base)
        hmem
    rw [hkinds, hjoined] at hlisted
    simp at hlisted
  obtain ⟨a, hresult, hgraph, hfits, -⟩ := ofMethod_dominators hbuilt rfl fun n _ => hopens n
  exact ⟨hbuilt, rfl, fun n _ => hopens n, a, hresult, hgraph ▸ hentry, hfits⟩

/-- The tree starts at the node which the region starts at, and the graph at the node through which
it is entered. -/
theorem protectedCall_misplaced :
    ¬ ∀ (options : Options) (m : Bytecode.Method) (a : Analysis),
      (ofMethod options m).result = .ok a → a.tree.Fits a.graph.toDigraph := by
  intro hexact
  have hshape := structured_protectedCall
  simp only [Prod.mk.injEq] at hshape
  obtain ⟨hentry, hstart, -⟩ := hshape
  have hresult : (ofMethod .standard protectedCall).result = .ok _ :=
    ofMethod_stagesOf ofMethod_protectedCall.1 rfl
  have hfits := hexact _ _ _ hresult
  have hsame : (0 : NodeId) = 2 := hstart.symm.trans (hfits.entry_eq.trans hentry)
  cases hsame

end Examples

end Analysis
end DalvikDecompiler
