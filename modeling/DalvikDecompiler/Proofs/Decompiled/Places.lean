import DalvikDecompiler.Proofs.Decompiled.References
import DalvikDecompiler.Proofs.FlowGraph.StructuredPlaces

/-!
# Places lead to the same instructions in all stages

**Input.** The graph of a method, and what the stages of analysis make of it.

A constructed graph numbers its instructions.  From then on, instructions are found, changed and
removed by these numbers, while passes remove them, split and join nodes, and take nodes away.

**Results.**
* `ofMethod_exact`: the index of a constructed graph is exact.
* `Stages.ofGraph_addresses`: each stage keeps it exact, and finds at a place what has become of the
  instruction that was given this place.
* `ofMethod_addresses`: this holds for all stages of every method that has a graph.
-/

namespace DalvikDecompiler
namespace FlowGraph

open Bytecode (Method)
open Symbolic (Instr)

section Constructed

variable {m : Method} {g : FlowGraph} {vars : Symbolic.Variables} {events : EventLog}

theorem nodup_keys_numberFrom
    (ids : List NodeId)
    (g : FlowGraph)
    (next : Loc)
    (hnodup : (g.locIndex.map Prod.fst).Nodup) :
    ((g.numberFrom next ids).locIndex.map Prod.fst).Nodup := by
  induction ids generalizing g next with
  | nil => exact hnodup
  | cons id rest ih =>
      rw [numberFrom_cons]
      exact ih _ _ (nodup_keys_foldl_insert _ id hnodup)

/-- A constructed graph has one entry for each place. -/
theorem ofMethod_nodup_keys
    (hbuilt : (ofMethod m vars events).graph = .ok g) :
    (g.locIndex.map Prod.fst).Nodup := by
  obtain ⟨hblocks, hmissing, c, hrun⟩ := visited_of_ofMethod hbuilt
  rw [(ofMethod_of_visited hblocks hmissing hrun).1] at hbuilt
  obtain rfl := Except.ok.inj hbuilt
  rw [complete_fst]
  exact nodup_keys_numberFrom _ _ 0 List.nodup_nil

/-- **The index of a constructed graph is exact.** -/
theorem ofMethod_exact
    (hbuilt : (ofMethod m vars events).graph = .ok g) :
    g.Exact := by
  obtain ⟨pieces, -, -, -, hcharts, harranged⟩ := charts_ofMethod hbuilt
  have hunique : (g.order.flatMap fun n => (g.node n).locs).Nodup :=
    harranged.places_eq ▸ nodup_placesFrom 0 _
  obtain ⟨hnodup, hdisjoint⟩ := List.nodup_flatMap.1 hunique
  have hlisted {n : NodeId} (hlive : g.isLive n = true) : n ∈ g.order :=
    (harranged.mem_iff n).2 hlive
  refine ⟨⟨fun n hlive => harranged.length_eq n (hlisted hlive), fun n hlive =>
    hnodup n (hlisted hlive),
    fun n n' hlive hlive' l hmem hmem' => ?_⟩, ofMethod_nodup_keys hbuilt, fun l n => ?_⟩
  · by_contra hapart
    have hseparate : Std.Symm fun n n' : NodeId =>
        List.Disjoint (g.node n).locs (g.node n').locs := ⟨fun _ _ => List.Disjoint.symm⟩
    exact hdisjoint.forall (hlisted hlive) (hlisted hlive') hapart hmem hmem'
  · rw [harranged.nodeAt_iff, iff_and_self, hcharts.isLive_iff, ← hcharts.size_eq]
    exact Indexed.lt_size_of_mem

end Constructed

/-- The index of a graph is exact, and what it finds at a place descends from the instruction that
another graph has there. -/
structure Addresses (g g' : FlowGraph) : Prop where
  exact : g'.Exact
  descends : ∀ l ins, g'.instrAt l = some ins →
    ∃ before, g.instrAt l = some before ∧ Descends before ins

section Addressing

variable {g g' g'' : FlowGraph}

theorem Amends.addresses
    (h : Amends g g')
    (hexact : g.Exact) :
    Addresses g g' :=
  ⟨h.exact hexact, fun _ _ => h.instrAt hexact⟩

/-- Instructions are moved or lost, but not changed. -/
theorem Addresses.of_carries
    (h : Addresses g g')
    (hexact : g''.Exact)
    (hcarries : ∀ x, g''.Carries x → g'.Carries x) :
    Addresses g g'' where
  exact := hexact
  descends l ins hfound :=
    h.descends l ins (h.exact.instrAt_eq_some_iff.2
      (hcarries _ (hexact.instrAt_eq_some_iff.1 hfound)))

theorem Addresses.draws
    (h : Addresses g g')
    (hdraws : Draws g' g'') :
    Addresses g g'' :=
  h.of_carries hdraws.exact hdraws.carries

theorem Addresses.retouch
    (h : Addresses g g')
    (htouch : Retouches SameLines g' g'')
    (hindex : g''.locIndex = g'.locIndex) :
    Addresses g g'' :=
  h.of_carries (h.exact.retouch htouch hindex) fun _ => (inherits_of_touch htouch).carries

end Addressing

end FlowGraph

open FlowGraph (Addresses SameLines Retouches retouches_modifyNode)

namespace Stages

variable {g : FlowGraph}

/-- **Each stage finds at a place what has become of the instruction there.** -/
theorem ofGraph_addresses
    (h : g.Exact)
    (hintact : g.Intact fun _ => False)
    (vars : Symbolic.Variables)
    (returns name : String)
    (passes : Nat) :
    let stages := Stages.ofGraph g vars returns name passes
    ∀ stage ∈ [stages.split.graph, stages.pruned.graph, stages.propagated.graph, stages.declared,
      stages.branched, stages.branched.compact.2, stages.clean, stages.structured.graph],
      Addresses g stage := by
  obtain ⟨hsplit, hpruned, hpropagated⟩ := ofGraph_amends g vars returns name passes
  obtain ⟨hdeclared, -, -, hstructured⟩ := ofGraph_shapes g vars returns name passes
  obtain ⟨hbranched, hclean⟩ := ofGraph_cleanup g vars returns name passes
  obtain ⟨hintact₁, hintact₂, -, hintact₄, -⟩ := ofGraph_intact hintact vars returns name passes
  generalize Stages.ofGraph g vars returns name passes = stages at *
  intro stages
  have hfirst : Addresses g stages.split.graph := hsplit.addresses h
  have hsecond : Addresses g stages.pruned.graph := (hsplit.trans hpruned).addresses h
  have hthird : Addresses g stages.propagated.graph :=
    ((hsplit.trans hpruned).trans hpropagated).addresses h
  have hfourth : Addresses g stages.declared := by
    rw [hdeclared]
    exact Declaration.place_induction hthird (fun g' id v h => h.retouch
      (retouches_modifyNode id (fun _ => ⟨rfl, rfl⟩) fun _ => ⟨rfl, rfl⟩) rfl) _ _ _
  have hfifth : Addresses g stages.branched := by
    obtain ⟨hexact, hcarries⟩ := hfourth.exact.splitBranches hintact₁.wired
    rw [hbranched]
    exact hfourth.of_carries hexact fun x => (hcarries x).1
  have hsixth : Addresses g stages.branched.compact.2 := by
    obtain ⟨hexact, hcarries⟩ := hfifth.exact.compact hintact₂.wired
    exact hfifth.of_carries hexact fun x => (hcarries x).1
  have hseventh : Addresses g stages.clean := by
    rw [hclean]
    exact hsixth.retouch (FlowGraph.sameLines_reorder _) (FlowGraph.frame_reorder _).2
  have hlast : Addresses g stages.structured.graph := by
    rw [hstructured]
    exact hseventh.draws (hseventh.exact.structured hintact₄ passes name)
  simp only [List.forall_mem_cons, List.not_mem_nil, false_implies, implies_true, and_true]
  exact ⟨hfirst, hsecond, hthird, hfourth, hfifth, hsixth, hseventh, hlast⟩

end Stages

namespace Analysis

variable {m : Bytecode.Method} {vars vars' : Symbolic.Variables} {events : EventLog} {g : FlowGraph}

/-- **Places lead to the same instructions in all stages.**  For every method that has a graph, and
for this graph and what each stage makes of it: every node holds as many places as instructions, no
place is held twice, and the index finds each place that a node of the graph holds, and no other
one.  What is found at a place descends from the instruction that had been given this place, and
changing or removing the instruction at a place does so, and leaves those at all other places
alone. -/
theorem ofMethod_addresses
    (hbuilt : (FlowGraph.ofMethod m vars events).graph = .ok g)
    (returns name : String)
    (passes : Nat) :
    let stages := Stages.ofGraph g vars' returns name passes
    ∀ stage ∈ [g, stages.split.graph, stages.pruned.graph, stages.propagated.graph,
      stages.declared, stages.branched, stages.branched.compact.2, stages.clean,
      stages.structured.graph],
      stage.Exact ∧
        (∀ l ins, stage.instrAt l = some ins →
          ∃ before, g.instrAt l = some before ∧ Descends before ins) ∧
        (∀ l f k, (stage.modifyInstr l f).instrAt k =
          if k = l then (stage.instrAt k).map f else stage.instrAt k) ∧
        ∀ l k, (stage.removeInstr l).instrAt k = if k = l then none else stage.instrAt k := by
  have hexact := FlowGraph.ofMethod_exact hbuilt
  have hlater := Stages.ofGraph_addresses hexact (FlowGraph.ofMethod_intact hbuilt)
    vars' returns name
    passes
  generalize Stages.ofGraph g vars' returns name passes = stages at hlater
  intro stages stage hmem
  have haddresses : Addresses g stage := by
    rcases List.mem_cons.1 hmem with rfl | hmem
    · exact ⟨hexact, fun _ ins hfound => ⟨ins, hfound, .refl⟩⟩
    · exact hlater stage hmem
  exact ⟨haddresses.exact, haddresses.descends, haddresses.exact.instrAt_modifyInstr,
    haddresses.exact.instrAt_removeInstr⟩

/-- The call of a method that is protected as a whole is found at its place when the regions have
been entered. -/
theorem ofMethod_addresses_protectedCall :
    (FlowGraph.ofMethod protectedCall (.ofMethod protectedCall) []).graph =
        .ok protectedCallGraph ∧
      (stagesOf .standard protectedCall protectedCallGraph).structured.graph.Exact := by
  obtain ⟨hbuilt, -⟩ := ofMethod_protectedCall
  refine ⟨hbuilt, ?_⟩
  unfold stagesOf
  have hall := @ofMethod_addresses protectedCall _
    (FlowGraph.ofMethod protectedCall (.ofMethod protectedCall) []).vars _ _ hbuilt
    protectedCall.returnType protectedCall.qualifiedName Options.standard.passes
  exact (hall _ (by simp)).1

end Analysis
end DalvikDecompiler
