import DalvikDecompiler.Proofs.FlowGraph.Construction
import DalvikDecompiler.Proofs.FlowGraph.Linking
import DalvikDecompiler.Proofs.FlowGraph.StructuredDominance
import DalvikDecompiler.Proofs.Symbolic.Words

/-!
# Names in flow graphs

**Input.** A flow graph in which no name has a line break.

New nodes are made of the parts of others, and all other edits change edges,
numbers of nodes or marks.  So every name stands in the code that a graph was
built from.

**Results.**
* `Node.Unbroken`, `FlowGraph.Unbroken`: no name in a node or in a graph has
  breaks.
* `Unbroken.splitBranches`, `Unbroken.compact`: cleaning up brings none in.
* `Unbroken.structured`: neither does structuring.
* `ofMethod_unbroken`: nor does building a graph from a method.
-/

namespace DalvikDecompiler

open Symbolic (VarId Variables Instr)

theorem NodeKind.caught?_remap
    (kind : NodeKind)
    (f : NodeId → NodeId) :
    (kind.remap f).caught? = kind.caught? := by
  induction kind with
  | loop inner _ ih => exact ih
  | _ => rfl

/-- No name in a node has breaks. -/
structure Node.Unbroken (n : Node) : Prop where
  ins : ∀ i ∈ n.ins, i.Unbroken
  catchType : ∀ t ∈ n.catchType, Text.Unbroken t
  kind : ∀ t ∈ n.kind.caught?, Text.Unbroken t

namespace Node

variable {n n' : Node}

theorem Unbroken.congr
    (h : n.Unbroken)
    (hins : n'.ins = n.ins)
    (hcatchType : n'.catchType = n.catchType)
    (hkind : n'.kind.caught? = n.kind.caught?) :
    n'.Unbroken :=
  ⟨hins ▸ h.ins, hcatchType ▸ h.catchType, hkind ▸ h.kind⟩

theorem unbroken_plain
    (name : String) :
    (plain name .statement).Unbroken :=
  ⟨nofun, nofun, nofun⟩

theorem Unbroken.remap
    (h : n.Unbroken)
    (f : NodeId → NodeId) :
    (n.remap f).Unbroken :=
  h.congr rfl rfl (NodeKind.caught?_remap n.kind f)

theorem Unbroken.shell
    (h : n.Unbroken)
    (name : String)
    (kind : NodeKind)
    (hcaught : ∀ t ∈ kind.caught?, Text.Unbroken t) :
    (n.shell name kind).Unbroken :=
  ⟨nofun, h.catchType, hcaught⟩

theorem Unbroken.declareAll
    (h : n.Unbroken)
    (names : List VarId) :
    (names.foldl declare n).Unbroken := by
  obtain ⟨declares, hsame⟩ := FlowGraph.exists_foldl_declare_eq n names
  rw [hsame]
  exact h.congr rfl rfl rfl

end Node

/-- No name in a flow graph has breaks, vacant slots included. -/
structure FlowGraph.Unbroken (g : FlowGraph) : Prop where
  node : ∀ n, (g.node n).Unbroken

namespace FlowGraph

variable {g g' : FlowGraph} {a b id old new : NodeId}

theorem unbroken_iff :
    g.Unbroken ↔ ∀ slot ∈ g.slots, slot.node.Unbroken := by
  refine ⟨fun h slot hmem => ?_, fun h => ⟨fun n => ?_⟩⟩
  · obtain ⟨n, hthere⟩ := Array.mem_iff_getElem?.1 hmem
    exact node_eq_of_slots hthere ▸ h.node n
  · cases hthere : g.slots[n]? with
    | none =>
        rw [FlowGraph.node, hthere]
        exact Node.unbroken_plain ""
    | some slot =>
        rw [node_eq_of_slots hthere]
        exact h slot (Array.mem_of_getElem? hthere)

theorem Unbroken.of_slots
    (h : g.Unbroken)
    (hsame : g'.slots = g.slots) :
    g'.Unbroken :=
  unbroken_iff.2 (hsame ▸ unbroken_iff.1 h)

theorem unbroken_empty :
    empty.Unbroken :=
  unbroken_iff.2 fun _ hmem => absurd hmem (Array.not_mem_empty _)

theorem Unbroken.retouch
    {keeps : Node → Node → Prop}
    (h : g.Unbroken)
    (htouch : Retouches keeps g g')
    (hkept : ∀ n n', keeps n n' → n.Unbroken → n'.Unbroken) :
    g'.Unbroken :=
  ⟨fun n => hkept _ _ (htouch.kept n) (h.node n)⟩

/-! ## Edits -/

section Edits

theorem Unbroken.modifySlot
    {f : Slot → Slot}
    (h : g.Unbroken)
    (hf : ∀ slot, slot.node.Unbroken → (f slot).node.Unbroken) :
    (g.modifySlot id f).Unbroken := by
  rw [unbroken_iff] at h ⊢
  intro slot hmem
  obtain ⟨n, hthere⟩ := Array.mem_iff_getElem?.1 hmem
  rw [FlowGraph.modifySlot, Array.getElem?_modify] at hthere
  split at hthere
  · obtain ⟨before, held, rfl⟩ := Option.map_eq_some_iff.1 hthere
    exact hf before (h before (Array.mem_of_getElem? held))
  · exact h slot (Array.mem_of_getElem? hthere)

theorem Unbroken.modifyNode
    {f : Node → Node}
    (h : g.Unbroken)
    (hf : ∀ n, n.Unbroken → (f n).Unbroken) :
    (g.modifyNode id f).Unbroken :=
  h.modifySlot fun slot => hf slot.node

/-- Only edges are changed. -/
theorem Unbroken.rewire
    {f : Slot → Slot}
    (h : g.Unbroken)
    (hsame : ∀ slot, (f slot).node = slot.node) :
    (g.modifySlot id f).Unbroken :=
  h.modifySlot fun slot hs => (hsame slot).symm ▸ hs

theorem Unbroken.addNode
    {added : Node}
    (h : g.Unbroken)
    (hadded : added.Unbroken) :
    (g.addNode added).2.Unbroken := by
  refine ⟨fun n => ?_⟩
  rw [node_addNode]
  split
  · exact hadded
  · exact h.node n

/-- Steps that each bring no breaks in bring none in together. -/
theorem Unbroken.foldl
    {α : Type}
    {step : FlowGraph → α → FlowGraph}
    {xs : List α}
    (h : g.Unbroken)
    (heach : ∀ g x, g.Unbroken → (step g x).Unbroken) :
    (xs.foldl step g).Unbroken :=
  List.foldlRecOn xs step h fun g hg x _ => heach g x hg

theorem Unbroken.addEdge
    (h : g.Unbroken) :
    (g.addEdge a b).Unbroken := by
  unfold FlowGraph.addEdge
  split
  · exact h
  · exact .rewire (.rewire h fun _ => rfl) fun _ => rfl

theorem Unbroken.addHandlerEdge
    (h : g.Unbroken) :
    (g.addHandlerEdge a b).Unbroken := by
  unfold FlowGraph.addHandlerEdge
  split
  · exact h
  · exact .rewire (.rewire h fun _ => rfl) fun _ => rfl

theorem Unbroken.moveIncoming
    (h : g.Unbroken) :
    (g.moveIncoming old new).Unbroken := by
  have hfrom_pred (g : FlowGraph) (pred : NodeId) (hg : g.Unbroken) :
      (moveIncomingFrom old new g pred).Unbroken :=
    .rewire (.rewire hg fun _ => rfl) fun _ => rfl
  have hfrom_protected (g : FlowGraph) (pred : NodeId) (hg : g.Unbroken) :
      ((g.dropHandlerSucc pred old).addHandlerEdge pred new).Unbroken :=
    .addHandlerEdge (.rewire hg fun _ => rfl)
  exact .foldl (.rewire (.foldl (.rewire h fun _ => rfl) hfrom_pred) fun _ => rfl) hfrom_protected

theorem Unbroken.moveOutgoing
    (h : g.Unbroken) :
    (g.moveOutgoing old new).Unbroken := by
  have hto_succ (g : FlowGraph) (succ : NodeId) (hg : g.Unbroken) :
      ((g.dropPred old succ).addEdge new (if succ = old then new else succ)).Unbroken :=
    .addEdge (.rewire hg fun _ => rfl)
  have hto_handler (g : FlowGraph) (handler : NodeId) (hg : g.Unbroken) :
      ((g.dropHandlerPred old handler).addHandlerEdge new handler).Unbroken :=
    .addHandlerEdge (.rewire hg fun _ => rfl)
  exact .foldl (.rewire (.foldl (.rewire h fun _ => rfl) hto_succ) fun _ => rfl) hto_handler

theorem Unbroken.removeNode
    (h : g.Unbroken) :
    (g.removeNode id).Unbroken := by
  refine ⟨fun n => ?_⟩
  rw [(removes_removeNode g id).node_eq]
  exact h.node n

theorem Unbroken.retarget
    (h : g.Unbroken) :
    (g.retarget old new).Unbroken := by
  refine ⟨fun n => ?_⟩
  cases hlive : g.isLive n with
  | true =>
      rw [node_retarget _ _ _ _ hlive]
      exact (h.node n).remap _
  | false =>
      rw [node_retarget_of_not_live _ _ _ _ hlive]
      exact h.node n

theorem Unbroken.reorder
    (h : g.Unbroken) :
    g.reorder.Unbroken :=
  h.retouch (retouches_reorder g) fun _ _ hsame hn => by
    obtain ⟨num, rfl⟩ := hsame
    exact hn.congr rfl rfl rfl

theorem Unbroken.modifyInstr
    {f : Instr → Instr}
    {loc : Loc}
    (h : g.Unbroken)
    (hf : ∀ ins, ins.Unbroken → (f ins).Unbroken) :
    (g.modifyInstr loc f).Unbroken := by
  unfold FlowGraph.modifyInstr
  split
  · exact h
  · split
    · exact h
    · refine h.modifyNode fun n hn => ⟨fun ins hmem => ?_, hn.catchType, hn.kind⟩
      obtain ⟨k, hthere⟩ := List.mem_iff_getElem?.1 hmem
      rw [List.getElem?_modify] at hthere
      obtain ⟨before, held, rfl⟩ := Option.map_eq_some_iff.1 hthere
      have hold := hn.ins before (List.mem_of_getElem? held)
      split
      · exact hf before hold
      · exact hold

theorem Unbroken.removeInstr
    {loc : Loc}
    (h : g.Unbroken) :
    (g.removeInstr loc).Unbroken := by
  unfold FlowGraph.removeInstr
  split
  · exact h
  · have hindexed : { g with locIndex := OrderedMap.erase loc g.locIndex }.Unbroken :=
      h.of_slots rfl
    dsimp only
    split
    · exact hindexed
    · exact hindexed.modifyNode fun n hn =>
        ⟨fun ins hmem => hn.ins ins (List.mem_of_mem_eraseIdx hmem), hn.catchType, hn.kind⟩

theorem Unbroken.instrAt
    (h : g.Unbroken)
    {loc : Loc}
    {ins : Instr}
    (hfound : g.instrAt loc = some ins) :
    ins.Unbroken := by
  unfold FlowGraph.instrAt at hfound
  obtain ⟨id, -, hfound⟩ := Option.bind_eq_some_iff.1 hfound
  obtain ⟨position, -, hfound⟩ := Option.bind_eq_some_iff.1 hfound
  exact (h.node id).ins ins (List.mem_of_getElem? hfound)

end Edits

/-! ## Cleaning up -/

section Cleanup

theorem Unbroken.splitBranch
    (h : g.Unbroken)
    (id : NodeId) :
    (g.splitBranch id).Unbroken := by
  have hown := h.node id
  have hpre : (preOf (g.node id)).Unbroken :=
    ⟨fun ins hmem => hown.ins ins (List.mem_of_mem_take hmem), hown.catchType, nofun⟩
  have hcond : (condOf (g.node id)).Unbroken :=
    ⟨fun ins hmem => hown.ins ins (List.mem_of_mem_drop hmem), nofun, hown.kind⟩
  rw [splitBranch_eq]
  have hmoved : ((((g.addNode (preOf (g.node id))).2.addNode (condOf (g.node id))).2.moveIncoming id
      g.size).moveOutgoing id (g.size + 1)).Unbroken :=
    ((h.addNode hpre).addNode hcond).moveIncoming.moveOutgoing
  exact .removeNode (.retarget (.addEdge (.foldl hmoved fun _ _ hg => hg.addHandlerEdge)))

theorem Unbroken.splitBranches
    (h : g.Unbroken) :
    g.splitBranches.2.Unbroken := by
  unfold FlowGraph.splitBranches
  dsimp only
  split
  · exact h
  · exact .of_slots (.foldl h fun _ id hg => hg.splitBranch id) rfl

theorem Unbroken.bypass
    (h : g.Unbroken)
    (id succ : NodeId) :
    (g.bypass id succ).Unbroken :=
  .removeNode (.retarget (.moveIncoming (.modifyNode h fun _ hn => hn.declareAll _)))

theorem Unbroken.join
    (h : g.Unbroken)
    (id succ : NodeId) :
    (g.join id succ).Unbroken := by
  have habsorbed := (h.node succ).ins
  have hemptied : (g.modifyNode succ fun n =>
      { n with ins := [], locs := [], declares := [] }).Unbroken :=
    h.modifyNode fun _ hn => ⟨nofun, hn.catchType, hn.kind⟩
  unfold FlowGraph.join
  dsimp only
  refine .removeNode (.retarget (.moveOutgoing
    (.rewire (.rewire (.modifyNode hemptied fun n hn => ?_) fun _ => rfl) fun _ => rfl)))
  exact Node.Unbroken.declareAll
    (n := { n with ins := n.ins ++ (g.node succ).ins, locs := n.locs ++ (g.node succ).locs })
    ⟨List.forall_mem_append.2 ⟨hn.ins, habsorbed⟩, hn.catchType, hn.kind⟩ _

theorem Unbroken.compactNode
    {state : FlowGraph × Bool}
    (h : state.1.Unbroken)
    (id : NodeId) :
    (compactNode state id).1.Unbroken := by
  obtain ⟨g, changed⟩ := state
  unfold FlowGraph.compactNode
  dsimp only
  split
  · split
    · exact h
    · split
      · exact h.bypass id _
      · split
        · exact h.join id _
        · exact h
  · exact h

theorem Unbroken.compactRounds
    (rounds : Nat)
    {state : FlowGraph × Bool}
    (h : state.1.Unbroken) :
    (compactRounds rounds state).1.Unbroken := by
  induction rounds generalizing state with
  | zero => exact h
  | succ rounds ih =>
      obtain ⟨g, changed⟩ := state
      have hround : (g.liveIds.foldl FlowGraph.compactNode (g, false)).1.Unbroken :=
        List.foldlRecOn (motive := fun state : FlowGraph × Bool => state.1.Unbroken) _ _ h
          fun _ hs id _ => hs.compactNode id
      unfold FlowGraph.compactRounds
      dsimp only
      split
      · exact ih hround
      · exact hround

theorem Unbroken.compact
    (h : g.Unbroken) :
    g.compact.2.Unbroken := by
  have hlast : (FlowGraph.compactRounds (g.size + 1) (g, false)).1.Unbroken := .compactRounds _ h
  unfold FlowGraph.compact
  dsimp only
  split
  · exact hlast.of_slots rfl
  · exact hlast

end Cleanup

/-! ## Structuring -/

section Structuring

variable {tree : DominatorTree} {first : NodeId} {merge : Merge}

theorem Unbroken.marks
    (h : g.Unbroken)
    (hmarks : Marks g g') :
    g'.Unbroken :=
  h.retouch hmarks.touch fun _ _ hsame hn => hn.congr hsame.ins_eq hsame.catchType_eq
    hsame.caught_eq

theorem Unbroken.mergeBranches
    (h : g.Unbroken)
    (first : NodeId)
    (merge : Merge) :
    (g.mergeBranches first merge).2.Unbroken := by
  have hadded := ((h.node first).shell ((g.node first).name ++ "+" ++ (g.node merge.second).name)
    (.shortCircuit
      { first
        second := merge.second
        isAnd := merge.isAnd
        isNot := merge.isNot
        branches := merge.branches }) nofun).declareAll
    ((g.node first).declares ++ (g.node merge.second).declares)
  exact (h.addNode hadded).moveIncoming.moveOutgoing.moveOutgoing.removeNode.removeNode.retarget
    |>.retarget

theorem Unbroken.prepared
    (h : g.Unbroken)
    (tree : DominatorTree)
    (passes : Nat) :
    (g.prepared tree passes).1.Unbroken := by
  have hmarked := h.marks (marked_marks g tree)
  have hmerged : ((g.marked tree).merged tree passes).Unbroken :=
    Merging.passes_induction (P := fun g _ => g.Unbroken)
      (fun _ _ first _ merge hg _ _ _ _ => hg.mergeBranches first merge)
      (fun _ _ hg => hg.reorder) passes
      { graph := g.marked tree, tree, merged := 0, dangling := false } hmarked
  exact hmerged.reorder.marks (prepared_marks g tree passes)

theorem Unbroken.enterTry
    (h : g.Unbroken)
    (start : NodeId) :
    (g.enterTry start).2.Unbroken := by
  have hadded : ({ (g.node start).shell ((g.node start).name ++ "-try") .statement with
      startsLoop := false
      latch := none
      loopNodes := [] } : Node).Unbroken :=
    ⟨nofun, (h.node start).catchType, nofun⟩
  unfold FlowGraph.enterTry
  dsimp only
  rw [fst_addNode]
  generalize (g.node start).shell ((g.node start).name ++ "-try") .statement = shell at hadded ⊢
  generalize { shell with startsLoop := false, latch := none, loopNodes := [] : Node } = node
    at hadded ⊢
  have hnamed : ((g.addNode node).2.retarget start g.size).Unbroken := (h.addNode hadded).retarget
  have hentered : (((g.addNode node).2.retarget start g.size).modifyNode g.size fun n =>
      { n with kind := .tryBlock start [] (g.regionFollow start) }).Unbroken :=
    hnamed.modifyNode fun _ hn => ⟨hn.ins, hn.catchType, nofun⟩
  exact hentered.moveIncoming.addEdge

theorem Unbroken.enterCatch
    (h : g.Unbroken)
    (handler : NodeId) :
    (g.enterCatch handler).2.Unbroken := by
  have hdropped : (g.dropBinding handler).Unbroken := by
    unfold dropBinding
    split
    · exact h
    · exact h.removeInstr
    · exact h.modifyNode fun n hn =>
        ⟨fun ins hmem => hn.ins ins (List.mem_of_mem_drop hmem), hn.catchType, hn.kind⟩
  have hown := hdropped.node handler
  exact hdropped.addNode (hown.shell _ _ hown.catchType)

theorem Unbroken.addCatch
    (h : g.Unbroken)
    (region handler : NodeId) :
    (g.addCatch region handler).Unbroken := by
  refine h.modifyNode fun n hn => ?_
  split
  · exact ⟨hn.ins, hn.catchType, nofun⟩
  · exact hn

theorem Unbroken.region
    {s : Protection}
    (h : s.graph.Unbroken)
    (start : NodeId) :
    (s.region start).2.graph.Unbroken := by
  have hentered := h.enterTry start
  unfold Protection.region
  generalize s.graph.enterTry start = made at hentered ⊢
  split
  · exact h
  · exact hentered

theorem Unbroken.protect
    (h : g.Unbroken)
    (tree : DominatorTree) :
    (g.protect tree).graph.Unbroken := by
  refine List.foldlRecOn (motive := fun s : Protection => s.graph.Unbroken) _ _ h
    fun s hs handler _ => ?_
  unfold Protection.addHandler
  split
  · exact hs
  · next start _ =>
      have hregion := hs.region start
      generalize s.region start = made at hregion ⊢
      have hcaught := hregion.enterCatch handler
      dsimp only
      generalize made.2.graph.enterCatch handler = catching at hcaught ⊢
      exact hcaught.addCatch _ _

/-- **Structuring brings no breaks in.** -/
theorem Unbroken.structured
    (h : g.Unbroken)
    (tree : DominatorTree)
    (passes : Nat)
    (method : String) :
    (g.structured tree passes method).graph.Unbroken := by
  rw [(structured_eq g tree passes method).1]
  exact (h.prepared tree passes).protect _

end Structuring

/-! ## Construction -/

namespace Construction

variable {m : Bytecode.Method} {node : NodeId}

/-- No name in what has been constructed has breaks. -/
structure Unbroken (c : Construction) : Prop where
  graph : c.graph.Unbroken
  vars : c.lifter.vars.Unbroken

/-- Steps of construction that bring no breaks in, and what holds of what they return. -/
abbrev Says
    {α : Type}
    (x : ConstructM α)
    (post : α → Prop) :
    Prop :=
  Yields Unbroken x post

theorem says_liftOne
    {ins : Bytecode.Instruction}
    (h : ins.Unbroken) :
    Says (liftOne m ins) fun made => ∀ i ∈ made, i.Unbroken := by
  have hreported : Says (reportUnknown m ins) fun _ => True :=
    .modifyGet fun _ hc => ⟨⟨hc.graph, hc.vars⟩, trivial⟩
  unfold liftOne
  split
  on_goal 1 => refine hreported.bind fun _ _ => ?_
  -- With or without a report, the instruction is lifted in the same way.
  all_goals
    refine .get_bind fun c hc => ?_
    cases hlifted : (Symbolic.LiftState.lift ins).run c.lifter with
    | error error lifter =>
        rintro s made s' - ⟨⟩
    | ok made lifter =>
        obtain ⟨hvars, hnamed⟩ :=
          Symbolic.LiftState.says_lift h c.lifter made lifter hc.vars hlifted
        rintro s _ _ - ⟨⟩
        exact ⟨⟨hc.graph, hvars⟩, hnamed⟩

theorem says_liftAll
    {instructions : List Bytecode.Instruction}
    (h : ∀ ins ∈ instructions, ins.Unbroken) :
    Says (liftAll m instructions) fun made => ∀ i ∈ made, i.Unbroken := by
  induction instructions with
  | nil => exact .pure nofun
  | cons ins rest ih =>
      obtain ⟨hfirst, hothers⟩ := List.forall_mem_cons.1 h
      refine (says_liftOne hfirst).bind fun lifted hl => (ih hothers).bind fun more hm => .pure ?_
      exact List.forall_mem_append.2 ⟨fun i hmem => hl i (Option.mem_toList.1 hmem), hm⟩

theorem says_nodeOfBlock
    (h : m.Unbroken)
    (index : Nat) :
    Says (nodeOfBlock m index) fun _ => True := by
  refine .get_bind fun c _ => ?_
  split
  · exact .pure trivial
  · exact .pure trivial
  · next block _ held =>
      refine (says_liftAll (h.instructions block (List.mem_of_getElem? held))).bind fun ins hi => ?_
      exact .modifyGet fun c hc => ⟨⟨hc.graph.addNode ⟨hi, nofun, nofun⟩, hc.vars⟩, trivial⟩

theorem says_enqueue
    (index : Nat) :
    Says (enqueue index) fun _ => True := by
  refine .modifyGet fun c hc => ⟨?_, trivial⟩
  dsimp only
  split
  · exact hc
  · exact ⟨hc.graph, hc.vars⟩

theorem says_modifyGraph
    {f : FlowGraph → FlowGraph}
    (hf : ∀ g, g.Unbroken → (f g).Unbroken) :
    Says (modifyGraph f) fun _ => True :=
  .modifyGet fun _ hc => ⟨⟨hf _ hc.graph, hc.vars⟩, trivial⟩

theorem says_linkChildren
    (h : m.Unbroken)
    (node : NodeId)
    (children : List (UInt32 × UInt64)) :
    Says (linkChildren m node children) fun _ => True := by
  induction children with
  | nil => exact .pure trivial
  | cons child children ih =>
      exact (says_nodeOfBlock h _).bind fun _ _ =>
        (says_modifyGraph fun _ hg => hg.addEdge).bind fun _ _ =>
          (says_enqueue _).bind fun _ _ => ih.bind fun _ _ => .pure trivial

/-- The type of exceptions that a handler takes is named in the method. -/
theorem says_linkHandlers
    (h : m.Unbroken)
    (node : NodeId)
    {handlers : List Bytecode.Handler}
    (hh : ∀ handler ∈ handlers, ∀ t ∈ handler.exceptionType, Text.Unbroken t) :
    Says (linkHandlers m node handlers) fun _ => True := by
  induction handlers with
  | nil => exact .pure trivial
  | cons handler handlers ih =>
      obtain ⟨hfirst, hothers⟩ := List.forall_mem_cons.1 hh
      refine (says_nodeOfBlock h _).bind fun target _ =>
        (says_modifyGraph fun g hg => ?_).bind fun _ _ =>
          (says_enqueue _).bind fun _ _ => ih hothers
      refine hg.addHandlerEdge.modifyNode fun n hn => ⟨hn.ins, fun t hfound => ?_, hn.kind⟩
      rcases Option.or_eq_some_iff.1 hfound with hown | ⟨-, hnew⟩
      · exact hn.catchType t hown
      · exact hfirst t hnew

theorem says_visit
    (h : m.Unbroken)
    (index : Nat)
    (block : Bytecode.Block) :
    Says (visit m index block) fun _ => True := by
  have handlers : ∀ handler ∈ m.exceptions.handlersFor block.start,
      ∀ t ∈ handler.exceptionType, Text.Unbroken t := fun handler hmem => by
    obtain ⟨range, hinside, hmem⟩ := List.mem_flatMap.1 hmem
    exact h.handlers range (List.mem_filter.1 hinside).1 handler hmem
  refine (says_nodeOfBlock h index).bind fun node _ => (says_linkChildren h node _).bind
    fun children _ => (says_linkHandlers h node handlers).bind fun _ _ => ?_
  split
  · next kind hfound =>
      have hcaught : kind.caught? = none := by
        obtain (rfl | rfl | rfl) | ⟨b, rfl⟩ | ⟨keys, rfl⟩ := ends_of_kindOf hfound <;> rfl
      exact says_modifyGraph fun g hg => hg.modifyNode fun n hn =>
        ⟨hn.ins, hn.catchType, fun t hthere => by cases hcaught.symm.trans hthere⟩
  · exact .throw _

theorem says_visitAll
    (h : m.Unbroken)
    (steps : Nat) :
    Says (visitAll m steps) fun _ => True := by
  induction steps with
  | zero => exact .pure trivial
  | succ steps ih =>
      refine .get_bind fun c hc => ?_
      split
      · exact .pure trivial
      · next index rest _ =>
          have hpopped : Says (set { c with queue := rest } : ConstructM Unit) fun _ => True := by
            rintro s _ _ - ⟨⟩
            exact ⟨⟨hc.graph, hc.vars⟩, trivial⟩
          refine hpopped.bind fun _ _ => ?_
          split
          · next block _ => exact (says_visit h index block).bind fun _ _ => ih
          · exact ih

end Construction

theorem Unbroken.complete
    {g : FlowGraph}
    (h : g.Unbroken)
    (m : Bytecode.Method)
    (events : EventLog) :
    (complete m g events).1.Unbroken :=
  h.reorder.retouch (retouches_complete m g events) fun _ _ hplaced hn => by
    rw [hplaced]
    exact hn.congr rfl rfl rfl

/-- **The graph of a method names what the method names.** -/
theorem ofMethod_unbroken
    {m : Bytecode.Method}
    {events : EventLog}
    {g : FlowGraph}
    (h : m.Unbroken)
    (hbuilt : (ofMethod m (.ofMethod m) events).graph = .ok g) :
    g.Unbroken ∧ (ofMethod m (.ofMethod m) events).vars.Unbroken := by
  obtain ⟨hblocks, hmissing, c, hrun⟩ := visited_of_ofMethod hbuilt
  obtain ⟨hgraph, hvars⟩ := ofMethod_of_visited hblocks hmissing hrun
  rw [hgraph] at hbuilt
  obtain rfl := Except.ok.inj hbuilt
  have hstart : (Construction.start (Variables.ofMethod m) events).Unbroken :=
    ⟨unbroken_empty, Symbolic.Variables.unbroken_ofMethod h⟩
  have hlast := (Construction.says_visitAll h _ _ _ _ hstart hrun).1
  have hentered : Unbroken { c.graph with entry := (c.nodeOf.lookup 0).getD 0 } :=
    hlast.graph.of_slots rfl
  rw [hvars]
  exact ⟨hentered.complete m c.events, hlast.vars⟩

end FlowGraph
end DalvikDecompiler
