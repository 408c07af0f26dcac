import DalvikDecompiler.Proofs.Decompiled.References
import DalvikDecompiler.Proofs.Emission.Termination
import DalvikDecompiler.Proofs.Emission.WalkVisits
import DalvikDecompiler.Proofs.FlowGraph.Kinds

/-!
# Methods are written in finitely many steps and in full

**Input.** The structured graph of a method.

The conditions that structuring joins stand in smaller slots than what it makes of them, and stay
there when they leave the graph.  Writing a condition therefore comes to an end.  So does the walk
through the graph, unless an exit is the head of a loop: a protected exit can be one, as its handler
may lead back to it.  A walk that comes to an end has visited all that its code leads to.

**Results.**
* `ofMethod_terminates`: writing a method comes to an end, if no exit is the head of a loop.
* `throwingLoop_unending`: a method that is written for ever.
* `ofMethod_visits`: the visited nodes of a method.
-/

namespace DalvikDecompiler
namespace Analysis

open Emission (ExitsEnd PartsBelow Source Writing)
open FlowGraph (protectedSlot sampleInstruction)

variable {m : Bytecode.Method} {vars vars' : Symbolic.Variables} {events : EventLog} {g : FlowGraph}

/-- The parts of a condition stand in smaller slots, also when they have been joined themselves. -/
theorem ofMethod_partsBelow
    (hbuilt : (FlowGraph.ofMethod m vars events).graph = .ok g)
    (returns name : String)
    (passes : Nat) :
    PartsBelow (Stages.ofGraph g vars' returns name passes).structured.graph := by
  obtain ⟨-, -, -, -, hstructured⟩ :=
    Stages.ofGraph_intact (FlowGraph.ofMethod_intact hbuilt) vars' returns name passes
  exact fun id sc hjoined => hstructured.refers.parts id sc (NodeKind.condition?_of_base hjoined)

/-- **Writing a method comes to an end**, with any labels, if no exit is the head of a loop.  Each
call goes on from no other node, or discovers a node and goes on only where it has been visited;
conditions go on to smaller slots; and what has been written is not cut off anywhere. -/
theorem ofMethod_terminates
    (hbuilt : (FlowGraph.ofMethod m vars events).graph = .ok g)
    (returns name : String)
    (passes : Nat)
    (hexits : ExitsEnd (Stages.ofGraph g vars' returns name passes).structured.graph)
    (w : Writing) :
    let graph := (Stages.ofGraph g vars' returns name passes).structured.graph
    (∀ labels, (Source.mk w graph labels).Terminates) ∧
      ∀ vars naming, ∃ labels naming' block s,
        (Emission.emit w graph vars naming).method.body = some block ∧ s.gotoTargets = labels ∧
          ∀ bottom depth, graph.size < depth →
            ((Source.mk w graph labels).walkOver bottom depth .outermost graph.entry).run
              (.start vars naming') = (block, s) :=
  Emission.emit_terminates hexits (ofMethod_partsBelow hbuilt returns name passes) w

/-- It is enough to look at the slots. -/
theorem exitsEnd_of_lt
    {graph : FlowGraph}
    (hslots : ∀ id < graph.size, (graph.node id).kind.isExit = true →
      (graph.node id).kind.isLoop = false) :
    ExitsEnd graph := by
  intro id hexit
  by_cases hknown : id < graph.size
  · exact hslots id hknown hexit
  · rw [FlowGraph.node_of_size_le (not_lt.1 hknown)]
    rfl

theorem exitsEnd_protectedCall :
    ExitsEnd (stagesOf .standard protectedCall protectedCallGraph).structured.graph := by
  have heads : (List.range (stagesOf .standard protectedCall
      protectedCallGraph).structured.graph.size).map (fun id =>
        ((stagesOf .standard protectedCall protectedCallGraph).structured.graph.node
          id).kind.isLoop)
      = [false, false, false, false] := by
    unfold stagesOf
    rw [ofMethod_protectedCall.2]
    cbv
  generalize (stagesOf .standard protectedCall protectedCallGraph).structured.graph = graph at heads
  refine exitsEnd_of_lt fun id hknown _ => ?_
  have hmem := List.mem_map_of_mem (f := fun id => (graph.node id).kind.isLoop)
    (List.mem_range.2 hknown)
  rw [heads] at hmem
  simpa using hmem

/-- No exit of the method that a handler protects as a whole is the head of a loop. -/
theorem ofMethod_terminates_protectedCall :
    (FlowGraph.ofMethod protectedCall (.ofMethod protectedCall) []).graph =
        .ok protectedCallGraph ∧
      ExitsEnd (stagesOf .standard protectedCall protectedCallGraph).structured.graph ∧
      ∀ labels, (Source.mk ⟨protectedCall, true⟩
        (stagesOf .standard protectedCall protectedCallGraph).structured.graph
          labels).Terminates := by
  obtain ⟨hbuilt, -⟩ := ofMethod_protectedCall
  have hexits := exitsEnd_protectedCall
  refine ⟨hbuilt, hexits, ?_⟩
  unfold stagesOf at hexits ⊢
  exact (ofMethod_terminates hbuilt protectedCall.returnType protectedCall.qualifiedName
    Options.standard.passes hexits ⟨protectedCall, true⟩).1

/-- A method that throws, and whose handler goes back to the throw whether or not its test succeeds.
The handler is protected by the throw in turn. -/
def throwingLoop : Bytecode.Method :=
  { owner := "LT;"
    name := "f"
    descriptor := "()V"
    access := ⟨AccessFlags.staticBit⟩
    registers := 1
    blocks :=
      [{ name := ""
         start := 0
         stop := 2
         instructions :=
          [sampleInstruction .const4 [.register 0, .literal 0] 0 1 none,
           sampleInstruction .throw [.register 0] 1 1 none]
         children := [] },
       { name := ""
         start := 2
         stop := 4
         instructions := [sampleInstruction .ifEqz [.register 0] 2 2 (some (-2))]
         children := [(4, 2), (0, 0)] },
       { name := ""
         start := 4
         stop := 5
         instructions := [sampleInstruction .goto [] 4 1 (some (-4))]
         children := [(0, 0)] }]
    exceptions :=
      ⟨[{ start := 0, stop := 2, handlers := [⟨none, 1⟩] },
        { start := 2, stop := 4, handlers := [⟨none, 0⟩] }]⟩ }

def throwingLoopVars : Symbolic.Variables :=
  { Symbolic.Variables.empty with entries := #[.fresh (.register 0) none], registers := [(0, 0)] }

/-- Construction when the first block has been visited and its handler waits. -/
def throwingLoopFirst : FlowGraph.Construction :=
  let exit :=
    protectedSlot .throw [.assign (some 0) (.const (.int 0)), .throw (.var 0)] [] [] [1] []
  let test := protectedSlot .statement [.ifCompareZero .eq (.var 0)] [] [] [] [0]
  { graph :=
      { FlowGraph.empty with
        slots := #[exit, { test with node := { test.node with start := 2, inCatch := true } }] }
    lifter := { vars := throwingLoopVars, pending := none }
    events := []
    nodeOf := [(0, 0), (1, 1)]
    queue := [1]
    seen := [0, 1] }

/-- Construction when all blocks have been visited. -/
def throwingLoopLast : FlowGraph.Construction :=
  let exit :=
    protectedSlot .throw [.assign (some 0) (.const (.int 0)), .throw (.var 0)] [] [1, 2] [1] [1]
  let test :=
    protectedSlot (.conditional ⟨0, 2⟩) [.ifCompareZero .eq (.var 0)] [2, 0] [] [0] [0]
  let jump := protectedSlot .statement [] [0] [1] [] []
  { throwingLoopFirst with
    graph :=
      { FlowGraph.empty with
        slots := #[
          { exit with node := { exit.node with inCatch := true } },
          { test with node := { test.node with start := 2, inCatch := true } },
          { jump with node := { jump.node with start := 4 } }] }
    nodeOf := [(0, 0), (1, 1), (2, 2)]
    queue := []
    seen := [0, 1, 2] }

/-- The graph of the method. -/
def throwingLoopGraph : FlowGraph :=
  (FlowGraph.complete throwingLoop throwingLoopLast.graph []).1

theorem ofMethod_throwingLoop :
    (FlowGraph.ofMethod throwingLoop (.ofMethod throwingLoop) []).graph = .ok throwingLoopGraph ∧
      (FlowGraph.ofMethod throwingLoop (.ofMethod throwingLoop) []).vars = throwingLoopVars := by
  have hvars : Symbolic.Variables.ofMethod throwingLoop = .empty := by cbv
  have hvisited : (FlowGraph.Construction.visitAll throwingLoop 4).run (.start .empty []) =
      .ok () throwingLoopLast :=
    calc (FlowGraph.Construction.visitAll throwingLoop 4).run (.start .empty [])
      _ = (FlowGraph.Construction.visitAll throwingLoop 3).run throwingLoopFirst :=
          FlowGraph.run_visitAll rfl rfl rfl
      _ = .ok () throwingLoopLast := rfl
  rw [hvars]
  exact FlowGraph.ofMethod_of_visited rfl (by decide +kernel) hvisited

/-- The loop goes round through the handler, both ways out of which lead back to its head. -/
theorem structured_throwingLoop :
    let graph := (stagesOf .standard throwingLoop throwingLoopGraph).structured.graph
    (graph.entry, (graph.node 0).kind, (graph.node 0).loopFollow) =
      (0, .loop .throw .postTest, some 0) := by
  unfold stagesOf
  rw [ofMethod_throwingLoop.2]
  cbv

/-- **Writing a method need not come to an end**, although no block that returns or throws has
children.  However deep a walk from the entry may get, it comes to its bottom. -/
theorem throwingLoop_unending :
    (FlowGraph.ofMethod throwingLoop (.ofMethod throwingLoop) []).graph = .ok throwingLoopGraph ∧
      (∀ block ∈ throwingLoop.blocks, (FlowGraph.lastOpcode block).isReturn = true ∨
        (FlowGraph.lastOpcode block).isThrow = true → block.children = []) ∧
      let graph := (stagesOf .standard throwingLoop throwingLoopGraph).structured.graph
      ∀ labels, ¬ (Source.mk ⟨throwingLoop, true⟩ graph labels).Terminates ∧
        ∀ bottom depth s, ∃ s',
          (((Source.mk ⟨throwingLoop, true⟩ graph labels).walkOver bottom depth .outermost
            graph.entry).run s).2 = ((bottom .outermost graph.entry).run s').2 := by
  have hshape := structured_throwingLoop
  simp only [Prod.mk.injEq] at hshape
  generalize (stagesOf .standard throwingLoop throwingLoopGraph).structured.graph = graph at hshape
  obtain ⟨hentry, hkind, hfollows⟩ := hshape
  refine ⟨ofMethod_throwingLoop.1, by decide, fun labels => ?_⟩
  have hexit : (graph.node 0).kind.isExit = true := by rw [hkind]; rfl
  have hloop : (graph.node 0).kind.isLoop = true := by rw [hkind]; rfl
  refine ⟨Emission.not_terminates hexit hloop hfollows, fun bottom depth s => ?_⟩
  rw [hentry]
  exact @Emission.exists_run_walkOver ⟨⟨throwingLoop, true⟩, graph, labels⟩ .outermost 0
    hexit hloop hfollows rfl rfl bottom depth s

/-- **All of a method that its code leads to is visited**, and nothing but nodes of its graph that
lie on a way from the entry, if no exit is the head of a loop.  So the visited nodes are those of
the graph, if code leads to all of them. -/
theorem ofMethod_visits
    (hbuilt : (FlowGraph.ofMethod m vars events).graph = .ok g)
    (returns name : String)
    (passes : Nat)
    (hexits : ExitsEnd (Stages.ofGraph g vars' returns name passes).structured.graph)
    (w : Writing)
    (vars : Symbolic.Variables)
    (naming : Java.Naming) :
    let graph := (Stages.ofGraph g vars' returns name passes).structured.graph
    let visited := (Emission.emit w graph vars naming).visited
    (∀ id, Emission.Led graph id → id ∈ visited) ∧
      (∀ id ∈ visited, Emission.OnWay graph id ∧ id ∈ graph.liveIds) ∧
      ((∀ id ∈ graph.liveIds, Emission.Led graph id) →
        ∀ id, id ∈ visited ↔ id ∈ graph.liveIds) := by
  intro graph visited
  obtain ⟨-, -, -, -, hintact⟩ :=
    Stages.ofGraph_intact (FlowGraph.ofMethod_intact hbuilt) vars' returns name passes
  obtain ⟨hled, honWay⟩ := Emission.emit_visits_led hintact hexits w vars naming
  have hlive (id : NodeId) (hmem : id ∈ visited) : id ∈ graph.liveIds :=
    FlowGraph.mem_liveIds_iff.2 ((honWay id hmem).isLive hintact)
  exact ⟨hled, fun id hmem => ⟨honWay id hmem, hlive id hmem⟩, fun hall id =>
    ⟨hlive id, fun hmem => hled id (hall id hmem)⟩⟩

/-- A loop without an end that a handler protects. -/
def protectedLoop : Bytecode.Method :=
  { owner := "LT;"
    name := "f"
    descriptor := "()V"
    access := ⟨AccessFlags.staticBit⟩
    registers := 0
    blocks :=
      [{ name := ""
         start := 0
         stop := 1
         instructions := [sampleInstruction .goto [] 0 1 (some 0)]
         children := [(0, 0)] },
       { name := ""
         start := 1
         stop := 2
         instructions := [sampleInstruction .returnVoid [] 1 1 none]
         children := [] }]
    exceptions := ⟨[{ start := 0, stop := 1, handlers := [⟨none, 1⟩] }]⟩ }

/-- The nodes of the method, before they have numbers. -/
def protectedLoopNodes : FlowGraph :=
  { FlowGraph.empty with
    slots := #[
      protectedSlot .statement [] [0] [0] [1] [],
      { protectedSlot .ret [.ret none] [] [] [] [0] with
        node := { Node.plain "" .ret with start := 1, ins := [.ret none], inCatch := true } }] }

/-- The graph of the method. -/
def protectedLoopGraph : FlowGraph :=
  (FlowGraph.complete protectedLoop protectedLoopNodes []).1

theorem ofMethod_protectedLoop :
    (FlowGraph.ofMethod protectedLoop (.ofMethod protectedLoop) []).graph =
        .ok protectedLoopGraph ∧
      (FlowGraph.ofMethod protectedLoop (.ofMethod protectedLoop) []).vars = .empty := by
  have hvars : Symbolic.Variables.ofMethod protectedLoop = .empty := by cbv
  let last : FlowGraph.Construction :=
    { graph := protectedLoopNodes
      lifter := { vars := .empty, pending := none }
      events := []
      nodeOf := [(0, 0), (1, 1)]
      queue := []
      seen := [0, 1] }
  -- the handler waits when the loop that it protects has been visited
  let first : FlowGraph.Construction :=
    { last with
      graph := protectedLoopNodes.modifyNode 1 fun n => { n with kind := .statement }
      queue := [1] }
  have hvisited : (FlowGraph.Construction.visitAll protectedLoop 3).run (.start .empty []) =
      .ok () last :=
    calc (FlowGraph.Construction.visitAll protectedLoop 3).run (.start .empty [])
      _ = (FlowGraph.Construction.visitAll protectedLoop 2).run first :=
          FlowGraph.run_visitAll rfl rfl rfl
      _ = .ok () last := rfl
  rw [hvars]
  have hbuilt := FlowGraph.ofMethod_of_visited rfl (by decide +kernel) hvisited
  exact hbuilt

/-- The loop stays a loop, behind the region through which it is entered. -/
theorem structured_protectedLoop :
    let graph := (stagesOf .standard protectedLoop protectedLoopGraph).structured.graph
    (graph.entry, graph.liveIds, (List.range graph.size).map fun id => (graph.node id).kind) =
      (2, [0, 1, 2, 3],
        [.loop .statement .endless, .ret, .tryBlock 0 [3] none, .catchBlock 1 none none]) := by
  unfold stagesOf
  rw [ofMethod_protectedLoop.2]
  cbv

/-- Code leads from the region to the loop and to the handler, and from there to the exit. -/
theorem led_protectedLoop :
    let graph := (stagesOf .standard protectedLoop protectedLoopGraph).structured.graph
    ExitsEnd graph ∧ ∀ id ∈ graph.liveIds, Emission.Led graph id := by
  have hshape := structured_protectedLoop
  simp only [Prod.mk.injEq] at hshape
  generalize (stagesOf .standard protectedLoop protectedLoopGraph).structured.graph =
    graph at hshape
  obtain ⟨hentry, hlives, hkinds⟩ := hshape
  have hsize : graph.size = 4 := by simpa using congrArg List.length hkinds
  have hplain : ∀ kind ∈ [NodeKind.loop .statement .endless, .ret, .tryBlock 0 [3] none,
      .catchBlock 1 none none], (kind.isExit = true → kind.isLoop = false) ∧
        kind.isTestedBehind = false ∧ ∀ h ∈ kind.catches, h = 3 := by
    decide
  have hslots (id : NodeId) (hknown : id < graph.size) := hplain _ <|
    hkinds ▸ List.mem_map_of_mem (f := fun id => (graph.node id).kind) (List.mem_range.2 hknown)
  rw [hsize] at hkinds
  simp only [List.range, List.range.loop, List.map, List.cons.injEq, and_true] at hkinds
  obtain ⟨-, -, hregion, handler⟩ := hkinds
  have hleads {n next : NodeId} (honward : next ∈ graph.onward n) :
      Emission.WritesNext graph n next := by
    refine .of_onward honward (fun id hlive => ?_) fun id hlive h hmem => ?_ <;>
      obtain ⟨-, huntested, hcatches⟩ := hslots id (FlowGraph.lt_size_of_isLive hlive)
    · exact huntested
    · rw [hcatches h hmem, handler]
      rfl
  have htwo : Emission.Led graph 2 := hentry ▸ .refl
  have hthree : Emission.Led graph 3 :=
    htwo.tail (hleads (by simp [FlowGraph.onward, hregion, FlowGraph.onwardAs]))
  refine ⟨exitsEnd_of_lt fun id hknown => (hslots id hknown).1, ?_⟩
  rw [hlives]
  simp only [List.forall_mem_cons]
  refine ⟨?_, ?_, htwo, hthree, List.forall_mem_nil _⟩
  · exact htwo.tail (hleads (by simp [FlowGraph.onward, hregion, FlowGraph.onwardAs]))
  · exact hthree.tail (hleads (by simp [FlowGraph.onward, handler, FlowGraph.onwardAs]))

/-- All of the loop, of the region around it and of its handler is visited. -/
theorem ofMethod_visits_protectedLoop :
    let graph := (stagesOf .standard protectedLoop protectedLoopGraph).structured.graph
    (FlowGraph.ofMethod protectedLoop (.ofMethod protectedLoop) []).graph =
        .ok protectedLoopGraph ∧
      ExitsEnd graph ∧ (∀ id ∈ graph.liveIds, Emission.Led graph id) ∧
      ∀ vars naming id, id ∈ (Emission.emit ⟨protectedLoop, true⟩ graph vars naming).visited ↔
        id ∈ [0, 1, 2, 3] := by
  intro graph
  obtain ⟨hbuilt, -⟩ := ofMethod_protectedLoop
  obtain ⟨hexits, hled⟩ := led_protectedLoop
  have hshape := structured_protectedLoop
  simp only [Prod.mk.injEq] at hshape
  refine ⟨hbuilt, hexits, hled, fun vars naming id => ?_⟩
  rw [← hshape.2.1]
  exact (ofMethod_visits hbuilt protectedLoop.returnType protectedLoop.qualifiedName
    Options.standard.passes hexits ⟨protectedLoop, true⟩ vars naming).2.2 hled id

end Analysis
end DalvikDecompiler
