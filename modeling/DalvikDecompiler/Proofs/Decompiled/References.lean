import DalvikDecompiler.Proofs.Decompiled.Dominance
import DalvikDecompiler.Proofs.FlowGraph.Blocks
import DalvikDecompiler.Proofs.FlowGraph.StructuredReferences

/-!
# No stage leaves a reference to a node that has gone

**Input.** The graph of a method, and what the stages of analysis make of it.

Cleaning up, merging branches and entering regions remove nodes or put others in their place.  The
nodes that stay hold numbers of nodes in their edges, in the way they end and in what structuring
has written down in them.

**Results.**
* `ofMethod_intact`: the references of a constructed graph are sound.
* `Closed`: what a graph without dangling references is like.
* `Stages.ofGraph_intact`: the stages keep references sound.
* `ofMethod_closed`: after every stage that changes nodes, no reference dangles.
-/

namespace DalvikDecompiler
namespace FlowGraph

open Bytecode (Block Method)

section Constructed

variable {m : Method} {block : Block} {children : List NodeId} {kind : NodeKind} {g : FlowGraph}
variable {vars : Symbolic.Variables} {events : EventLog}

namespace Construction

/-- The node of a block refers to the nodes of its children only, and neither to handlers nor to
parts of a condition. -/
theorem mem_of_kindOf
    (hfound : kindOf m block children = .ok kind) :
    (∀ r ∈ kind.refs, r ∈ children) ∧ kind.catches = [] ∧ kind.condition? = none := by
  obtain ⟨-, htargets⟩ := toward_mem_of_kindOf hfound
  obtain (rfl | rfl | rfl) | ⟨b, rfl⟩ | ⟨keys, rfl⟩ := ends_of_kindOf hfound
  · exact ⟨nofun, rfl, rfl⟩
  · exact ⟨nofun, rfl, rfl⟩
  · exact ⟨nofun, rfl, rfl⟩
  · refine ⟨fun r hmem => ?_, rfl, rfl⟩
    rcases List.mem_cons.1 hmem with rfl | hmem
    · exact htargets b rfl true
    · exact List.mem_singleton.1 hmem ▸ htargets b rfl false
  · refine ⟨fun r hmem => ?_, rfl, rfl⟩
    simpa [NodeKind.refs, SwitchTable.unordered] using hmem

end Construction

/-- Completing a graph writes nothing down in its nodes. -/
theorem notes_complete
    (m : Method)
    (g : FlowGraph)
    (events : EventLog)
    (n : NodeId) :
    ((complete m g events).1.node n).notes = (g.node n).notes := by
  obtain ⟨num, hrenumbered⟩ := (retouches_reorder g).kept n
  have hplaced := (retouches_complete m g events).kept n
  rw [Placed, hrenumbered] at hplaced
  generalize (complete m g events).1.node n = node' at hplaced ⊢
  generalize g.node n = node at hplaced ⊢
  rw [hplaced]
  rfl

/-- The exit of a graph that is completed is one of its nodes. -/
theorem isLive_of_exit_complete
    {e : NodeId}
    (horder_live : ∀ n ∈ (complete m g events).1.order, (complete m g events).1.isLive n = true)
    (hfound : (complete m g events).1.exit = some e) :
    (complete m g events).1.isLive e = true := by
  rw [complete_fst] at *
  change ((g.reorder.markHandlerCode.numberInstructions).exitAndEvent m).1 = some e at hfound
  unfold exitAndEvent at hfound
  dsimp only at hfound
  split at hfound
  · next exit honly =>
      obtain rfl := Option.some.inj hfound
      have hmem : exit ∈ [exit] := List.mem_singleton_self exit
      rw [← honly] at hmem
      exact mem_liveIds_iff.1 (List.mem_of_mem_filter hmem)
  · cases hfound
  · exact horder_live e (List.mem_of_getLast? hfound)

/-- Nothing is written down in the nodes of a constructed graph. -/
theorem ofMethod_notes
    (hbuilt : (ofMethod m vars events).graph = .ok g)
    (n : NodeId) :
    (g.node n).notes = [] := by
  obtain ⟨hblocks, hmissing, c, hrun⟩ := visited_of_ofMethod hbuilt
  rw [(ofMethod_of_visited hblocks hmissing hrun).1] at hbuilt
  obtain rfl := Except.ok.inj hbuilt
  have hknown : 0 < m.blocks.length := List.length_pos_iff.2 (by simpa using hblocks)
  obtain ⟨visits, hdrawn, -, -⟩ := (Construction.drawn_start m vars events).visitAll
    (Construction.inRange_of_firstMissing hmissing) hknown hrun (by omega)
  rw [notes_complete]
  exact hdrawn.notes_eq n

/-- **The references of a constructed graph are sound**, and its nodes know no handlers. -/
theorem ofMethod_intact
    (hbuilt : (ofMethod m vars events).graph = .ok g) :
    g.Intact fun _ => False := by
  have hordinary := ofMethod_ordinary hbuilt
  obtain ⟨pieces, -, -, -, hcharts, harranged⟩ := charts_ofMethod hbuilt
  have horder_live (n : NodeId) (hmem : n ∈ g.order) : g.isLive n = true :=
    (harranged.mem_iff n).1 hmem
  have hrendered {n : NodeId} (hlive : g.isLive n = true) :
      ∃ block, Construction.kindOf m block (childNodes pieces block) = .ok (g.node n).kind ∧
        ∀ r ∈ childNodes pieces block, r ∈ g.succs n := by
    obtain ⟨block, -, hrenders⟩ :=
      hcharts.renders n _ (List.getElem?_eq_getElem ((hcharts.isLive_iff n).1 hlive))
    refine ⟨block, hrenders.kind_eq, fun r hmem => ?_⟩
    rw [hrenders.succs_eq]
    exact OrderedSet.mem_ofList.2 hmem
  refine ⟨hordinary.wired, ⟨hordinary.entry_live, fun e hfound => ?_, ?_, ?_, ?_⟩, horder_live⟩
  · obtain ⟨hblocks, hmissing, c, hrun⟩ := visited_of_ofMethod hbuilt
    rw [(ofMethod_of_visited hblocks hmissing hrun).1] at hbuilt
    obtain rfl := Except.ok.inj hbuilt
    exact isLive_of_exit_complete horder_live hfound
  · intro n hlive r hmem
    obtain ⟨block, hkind, hsuccs⟩ := hrendered hlive
    rw [Node.refs, ofMethod_notes hbuilt, List.append_nil] at hmem
    have hchild := (Construction.mem_of_kindOf hkind).1 r hmem
    exact (hordinary.wired.live n r (.inl (hsuccs r hchild))).2
  · intro n hlive
    obtain ⟨block, hkind, -⟩ := hrendered hlive
    simp [(Construction.mem_of_kindOf hkind).2.1]
  · intro n sc hfound
    cases hlive : g.isLive n with
    | true =>
        obtain ⟨block, hkind, -⟩ := hrendered hlive
        rw [(Construction.mem_of_kindOf hkind).2.2] at hfound
        cases hfound
    | false =>
        have hbeyond : g.size ≤ n := by
          rw [hcharts.size_eq]
          exact not_lt.1 ((hcharts.isLive_iff n).not.1 (by simp [hlive]))
        rw [node_of_size_le hbeyond] at hfound
        cases hfound

/-- **No reference dangles**: all nodes that the graph, its order or one of its nodes refers to are
part of it, but for the two parts of a condition, which have smaller numbers than the condition. -/
structure Closed (g : FlowGraph) : Prop where
  entry_live : g.isLive g.entry = true
  exit_live : ∀ e, g.exit = some e → g.isLive e = true
  order_live : ∀ n ∈ g.order, g.isLive n = true
  edges_live : ∀ n, g.isLive n = true →
    ∀ r ∈ g.succs n ++ g.handlerSuccs n ++ g.preds n ++ g.handlerPreds n, g.isLive r = true
  refs_live : ∀ n, g.isLive n = true → ∀ r ∈ (g.node n).refs, g.isLive r = true
  catches_live : ∀ n, g.isLive n = true → ∀ r ∈ (g.node n).kind.catches, g.isLive r = true
  parts_lt : ∀ n, g.isLive n = true → ∀ sc, (g.node n).kind.condition? = some sc →
    sc.first < n ∧ sc.second < n

theorem SelfContained.closed
    (h : g.SelfContained) :
    g.Closed where
  entry_live := h.entry_live
  exit_live := h.refers.exit
  order_live := h.order_live
  edges_live n _ r hmem := by
    rcases List.mem_append.1 hmem with hmem | hmem
    · rcases List.mem_append.1 hmem with hmem | hmem
      · exact (h.wired.live n r (List.mem_append.1 hmem)).2
      · exact (h.wired.live r n (.inl (h.wired.mem_preds.1 hmem))).1
    · exact (h.wired.live r n (.inr (h.wired.mem_handlerPreds.1 hmem))).1
  refs_live := h.refers.refs
  catches_live := h.refers.catches
  parts_lt n _ := h.refers.parts n

theorem Intact.closed
    (h : g.Intact fun _ => False) :
    g.Closed :=
  SelfContained.closed (h.mono fun _ => False.elim)

/-- Rewriting code leaves order and exit alone. -/
theorem Amends.frame
    {g' : FlowGraph}
    (h : Amends g g') :
    g'.exit = g.exit ∧ g'.order = g.order := by
  induction h with
  | refl => exact ⟨rfl, rfl⟩
  | @modify g' f loc hbefore hrevision ih =>
      obtain ⟨hexit, horder⟩ := frame_modifyInstr g' loc f
      exact ⟨hexit.trans ih.1, horder.trans ih.2⟩
  | @remove g' loc hbefore ih =>
      obtain ⟨hexit, horder⟩ := frame_removeInstr g' loc
      exact ⟨hexit.trans ih.1, horder.trans ih.2⟩

end Constructed

end FlowGraph

namespace Stages

open FlowGraph (Intact IntactWith Recoded)

variable {g : FlowGraph}

/-- The stages that rewrite code leave order and exit alone. -/
theorem ofGraph_frame
    (g : FlowGraph)
    (vars : Symbolic.Variables)
    (returns name : String)
    (passes : Nat) :
    (Stages.ofGraph g vars returns name passes).declared.exit = g.exit ∧
      (Stages.ofGraph g vars returns name passes).declared.order = g.order := by
  obtain ⟨hsplit, hpruned, hpropagated⟩ := ofGraph_amends g vars returns name passes
  obtain ⟨hdeclared, -⟩ := ofGraph_shapes g vars returns name passes
  generalize Stages.ofGraph g vars returns name passes = stages at *
  obtain ⟨hexit, horder⟩ := ((hsplit.trans hpruned).trans hpropagated).frame
  rw [hdeclared]
  exact Declaration.place_induction (P := fun g' => g'.exit = g.exit ∧ g'.order = g.order)
    ⟨hexit, horder⟩ (fun _ _ _ h => h) _ _ _

/-- The stages that clean a graph up, one after another. -/
theorem ofGraph_cleanup
    (g : FlowGraph)
    (vars : Symbolic.Variables)
    (returns name : String)
    (passes : Nat) :
    let stages := Stages.ofGraph g vars returns name passes
    stages.branched = stages.declared.splitBranches.2 ∧
      stages.clean = stages.branched.compact.2.reorder := by
  unfold Stages.ofGraph
  with_reducible exact ⟨rfl, rfl⟩

/-- **The stages keep references sound.** -/
theorem ofGraph_intact
    (h : g.Intact fun _ => False)
    (vars : Symbolic.Variables)
    (returns name : String)
    (passes : Nat) :
    let stages := Stages.ofGraph g vars returns name passes
    (stages.declared.Intact fun _ => False) ∧ (stages.branched.Intact fun _ => False) ∧
      (stages.branched.compact.2.Intact fun _ => False) ∧ stages.clean.IntactWith stages.tree ∧
      stages.structured.graph.SelfContained := by
  have htouch := ofGraph_retouches g vars returns name passes
  obtain ⟨hexit, horder⟩ := ofGraph_frame g vars returns name passes
  obtain ⟨-, -, htree, hstructured⟩ := ofGraph_shapes g vars returns name passes
  obtain ⟨hbranched, hclean⟩ := ofGraph_cleanup g vars returns name passes
  generalize Stages.ofGraph g vars returns name passes = stages at *
  intro stages
  have hdeclared : stages.declared.Intact fun _ => False :=
    h.retouch (htouch.mono fun _ _ => Recoded.sameRefs) hexit fun n hmem =>
      h.order_live n (horder ▸ hmem)
  have hsplit : stages.branched.Intact fun _ => False := hbranched ▸ hdeclared.splitBranches
  have hsimple := hsplit.compact
  have hcleaned : stages.clean.Intact fun _ => False := hclean ▸ hsimple.reorder
  have hcurrent : stages.clean.order = stages.clean.toDigraph.reversePostorder stages.clean.entry :=
    hclean ▸ FlowGraph.order_reorder _
  have hnamed : stages.clean.IntactWith stages.tree := by
    refine ⟨hcleaned, fun n d hfound => hcleaned.order_live d ?_⟩
    rw [htree, FlowGraph.dominatorTree, hcurrent] at hfound
    rw [hcurrent]
    exact DominatorTree.mem_of_compute hcleaned.wired.wellFormed
      (FlowGraph.lt_size_of_isLive hcleaned.entry_live) hfound
  refine ⟨hdeclared, hsplit, hsimple, hnamed, ?_⟩
  rw [hstructured]
  exact hnamed.structured passes name

end Stages

namespace Analysis

variable {m : Bytecode.Method} {vars vars' : Symbolic.Variables} {events : EventLog} {g : FlowGraph}

/-- **No stage leaves a reference to a node that has gone.**  For every method that has a graph, all
nodes that the graph refers to are part of it when it has been constructed, when branches have been
split off, when it has been simplified and when its structure has been found. -/
theorem ofMethod_closed
    (hbuilt : (FlowGraph.ofMethod m vars events).graph = .ok g)
    (returns name : String)
    (passes : Nat) :
    let stages := Stages.ofGraph g vars' returns name passes
    g.Closed ∧ stages.branched.Closed ∧ stages.branched.compact.2.Closed ∧ stages.clean.Closed ∧
      stages.structured.graph.Closed := by
  have hconstructed := FlowGraph.ofMethod_intact hbuilt
  obtain ⟨-, hbranched, hsimple, hclean, hstructured⟩ :=
    Stages.ofGraph_intact hconstructed vars' returns name passes
  exact ⟨hconstructed.closed, hbranched.closed, hsimple.closed, hclean.intact.closed,
    hstructured.closed⟩

/-- The handler of a method that is protected as a whole is entered through a node of its own, which
the region names. -/
theorem ofMethod_closed_protectedCall :
    (FlowGraph.ofMethod protectedCall (.ofMethod protectedCall) []).graph =
        .ok protectedCallGraph ∧
      (stagesOf .standard protectedCall protectedCallGraph).structured.graph.Closed :=
  ⟨ofMethod_protectedCall.1, (ofMethod_closed ofMethod_protectedCall.1 _ _ _).2.2.2.2⟩

end Analysis
end DalvikDecompiler
