import DalvikDecompiler.Decompiled.Analysis
import DalvikDecompiler.Proofs.FlowGraph.BlockEdges
import DalvikDecompiler.Proofs.FlowGraph.Topological

/-!
# The graph of the blocks that can be reached

**Input.** A method, any variables, and the events so far.

**Results.**
* `mem_mentioned_iff`: the blocks that are mentioned are those that can be reached from the first
  one, along children and along handlers.
* `flatMap_locs_numberFrom`: places are given out without gaps.
* `charts_of_visited`: when all visits succeed, the graph is that of the blocks that can be reached.
* `ofMethod_blocks`: which methods have no graph, and what the graph of a method is.
-/

namespace DalvikDecompiler
namespace FlowGraph

open OrderedSet (ofList)
open Symbolic (Instr Variables LiftState)
open Symbolic.LiftState (Pair Lifted)
open Bytecode (Block Method)
open Construction (Piece Records Drawn InRange mentions mentioned)

section Reaching

variable {m : Method} {visits index n : Nat}

/-- The blocks that can be reached from the first one, along children and along handlers. -/
def Reached (m : Method) (index : Nat) : Prop :=
  Relation.ReflTransGen (fun i j => j ∈ mentions m i) 0 index

theorem reached_of_mentioned
    (hmem : index ∈ mentioned m visits) :
    Reached m index := by
  induction visits generalizing index with
  | zero => exact List.mem_singleton.1 hmem ▸ .refl
  | succ visits ih =>
      rw [mentioned] at hmem
      split at hmem
      · next first hthere =>
          rcases OrderedSet.mem_insertAll.1 hmem with hmem | hmem
          · exact ih hmem
          · exact .tail (ih (List.mem_of_getElem? hthere)) hmem
      · exact ih hmem

/-- What a block mentions is mentioned when it has been visited. -/
theorem mentions_subset
    (hvisited : n < visits)
    (hthere : (mentioned m visits)[n]? = some index) :
    mentions m index ⊆ mentioned m visits := by
  induction visits with
  | zero => exact absurd hvisited (Nat.not_lt_zero n)
  | succ visits ih =>
      have hbefore (hlt : n < (mentioned m visits).length) :
          (mentioned m visits)[n]? = some index := by
        obtain ⟨more, heq⟩ := Construction.mentioned_prefix m visits
        rwa [← heq, List.getElem?_append_left hlt] at hthere
      rcases Nat.lt_succ_iff_lt_or_eq.1 hvisited with hearlier | rfl
      · have hmore := (Construction.mentioned_prefix m visits).subset
        rcases Nat.lt_or_ge n (mentioned m visits).length with hlt | hge
        · exact fun i hmem => hmore (ih hearlier (hbefore hlt) hmem)
        · -- Nothing is mentioned any more after a visit for which no block waits.
          have hnone : (mentioned m visits)[visits]? = none :=
            List.getElem?_eq_none (hge.trans (Nat.le_of_lt hearlier))
          rw [Construction.mentioned_add hnone 1, List.getElem?_eq_none hge] at hthere
          cases hthere
      · cases hfirst : (mentioned m n)[n]? with
        | none =>
            rw [Construction.mentioned_add hfirst 1, hfirst] at hthere
            cases hthere
        | some i =>
            obtain rfl := Option.some.inj
              (hfirst.symm.trans (hbefore (List.getElem?_eq_some_iff.1 hfirst).1))
            rw [mentioned, hfirst]
            exact fun j hmem => OrderedSet.mem_insertAll.2 (.inr hmem)

theorem zero_mem_mentioned
    (m : Method)
    (visits : Nat) :
    (mentioned m visits)[0]? = some 0 := by
  induction visits with
  | zero => rfl
  | succ visits ih =>
      obtain ⟨more, heq⟩ := Construction.mentioned_prefix m visits
      rw [← heq, List.getElem?_append_left (List.getElem?_eq_some_iff.1 ih).1, ih]

/-- **When all mentioned blocks have been visited, they are those that can be reached.** -/
theorem mem_mentioned_iff
    (hall : (mentioned m visits).length ≤ visits) :
    index ∈ mentioned m visits ↔ Reached m index := by
  refine ⟨reached_of_mentioned, fun hreached => ?_⟩
  induction hreached with
  | refl => exact List.mem_of_getElem? (zero_mem_mentioned m visits)
  | tail _ hmentions ih =>
      obtain ⟨n, hthere⟩ := List.mem_iff_getElem?.1 ih
      have hlt := (List.getElem?_eq_some_iff.1 hthere).1
      exact mentions_subset (hlt.trans_le hall) hthere hmentions

end Reaching

section Numbering

variable {g : FlowGraph} {ids : List NodeId} {n : NodeId}

theorem placesFrom_append
    (next : Int)
    (count more : Nat) :
    placesFrom next (count + more) = placesFrom next count ++ placesFrom (next + count) more := by
  unfold placesFrom
  rw [List.range_add, List.map_append, List.map_map]
  congr 1
  refine List.map_congr_left fun i _ => ?_
  simp only [Function.comp_apply]
  omega

theorem locs_numberFrom_of_not_mem
    (hknown : ∀ id ∈ ids, id < g.size)
    (next : Loc)
    (h : n ∉ ids) :
    ((g.numberFrom next ids).node n).locs = (g.node n).locs := by
  induction ids generalizing g next with
  | nil => rfl
  | cons id ids ih =>
      obtain ⟨hother, hothers⟩ := List.ne_and_not_mem_of_not_mem_cons h
      have hthere := hknown id List.mem_cons_self
      have hsize : (g.numberNode next id).size = g.size :=
        congrArg Digraph.size (toDigraph_numberNode g next id)
      rw [numberFrom_cons,
        ih (fun k hmem => hsize ▸ hknown k (List.mem_cons_of_mem id hmem)) _ hothers,
        (node_numberNode next hthere n).2, if_neg hother]

/-- **The places of nodes that are numbered one after another follow each other without a gap.** -/
theorem flatMap_locs_numberFrom
    (hknown : ∀ id ∈ ids, id < g.size)
    (hnodup : ids.Nodup)
    (next : Loc) :
    (ids.flatMap fun id => ((g.numberFrom next ids).node id).locs) =
      placesFrom next (ids.flatMap fun id => (g.node id).ins).length := by
  induction ids generalizing g next with
  | nil => rfl
  | cons id ids ih =>
      obtain ⟨hnew, hnodup⟩ := List.nodup_cons.1 hnodup
      have hthere := hknown id List.mem_cons_self
      have hsize : (g.numberNode next id).size = g.size :=
        congrArg Digraph.size (toDigraph_numberNode g next id)
      have hothers : ∀ k ∈ ids, k < (g.numberNode next id).size := fun k hmem =>
        hsize ▸ hknown k (List.mem_cons_of_mem id hmem)
      have hins (k : NodeId) := (node_numberNode next hthere k).1
      rw [numberFrom_cons, List.flatMap_cons, List.flatMap_cons, ih hothers hnodup,
        locs_numberFrom_of_not_mem hothers _ hnew, (node_numberNode next hthere id).2, if_pos rfl,
        List.length_append, placesFrom_append]
      simp only [hins]

end Numbering

section Completing

variable {g : FlowGraph} {m : Method} {events : EventLog}

/-- Every node is in the order once, numbers tell where, and places follow the order without a
gap. -/
structure Arranged (g : FlowGraph) : Prop where
  current : g.order = g.toDigraph.reversePostorder g.entry
  nodup : g.order.Nodup
  mem_iff : ∀ n, n ∈ g.order ↔ g.isLive n = true
  num_eq : ∀ (n : NodeId) position, g.order[position]? = some n → (g.node n).num = position + 1
  places_eq : (g.order.flatMap fun n => (g.node n).locs) =
    placesFrom 0 (g.order.flatMap fun n => (g.node n).ins).length
  length_eq : ∀ n ∈ g.order, (g.node n).locs.length = (g.node n).ins.length
  nodeAt_iff : ∀ loc id, g.nodeAt loc = some id ↔ loc ∈ (g.node id).locs

/-- Completing a graph leaves its edges, and the kind and the instructions of its nodes alone. -/
theorem complete_keeps
    (m : Method)
    (g : FlowGraph)
    (events : EventLog) :
    (∀ n, (complete m g events).1.succs n = g.succs n) ∧
      (∀ n, (complete m g events).1.handlerSuccs n = g.handlerSuccs n) ∧
      (∀ n, (complete m g events).1.isLive n = g.isLive n) ∧
      (complete m g events).1.entry = g.entry ∧
      (complete m g events).1.toDigraph = g.toDigraph ∧
      ∀ n, ((complete m g events).1.node n).kind = (g.node n).kind ∧
        ((complete m g events).1.node n).ins = (g.node n).ins := by
  have hfirst := retouches_reorder g
  have hsecond := retouches_complete m g events
  refine ⟨fun n => (hsecond.succs_eq n).trans (hfirst.succs_eq n),
    fun n => (hsecond.handlerSuccs_eq n).trans (hfirst.handlerSuccs_eq n),
    fun n => (hsecond.isLive_eq n).trans (hfirst.isLive_eq n),
    hsecond.entry_eq.trans hfirst.entry_eq, hsecond.toDigraph_eq.trans hfirst.toDigraph_eq,
    fun n => ?_⟩
  obtain ⟨num, hrenumbered⟩ := hfirst.kept n
  have hplaced := hsecond.kept n
  rw [Placed, hrenumbered] at hplaced
  rw [hplaced]
  exact ⟨rfl, rfl⟩

/-- **A graph all of whose nodes can be reached is arranged when it is completed.** -/
theorem complete_arranged
    (m : Method)
    (events : EventLog)
    (hwellFormed : g.toDigraph.WellFormed)
    (hbare : ∀ n, (g.node n).locs = [])
    (hentry : g.entry < g.size)
    (hreachable : ∀ n, g.isLive n = true ↔ g.toDigraph.Reachable g.entry n) :
    (complete m g events).1.Arranged := by
  obtain ⟨-, -, hlive, hentry_eq, hdigraph, hnode⟩ := complete_keeps m g events
  obtain ⟨hordered, horder⟩ := reorder_sameCode g
  obtain ⟨hmarked, horder'⟩ := markHandlerCode_sameCode g.reorder
  have hsame := hordered.trans hmarked
  have horder := horder'.trans horder
  have hmarked_entry : g.reorder.markHandlerCode.entry = g.entry :=
    congrArg Digraph.entry hsame.toDigraph_eq
  have hnumbered := (numberInstructions_indexed (hsame.toDigraph_eq ▸ hwellFormed)
    (by rw [horder, hsame.toDigraph_eq, hmarked_entry]) fun n =>
      (hsame.locs_eq n).trans (hbare n)).1
  have hindexed : (complete m g events).1.Indexed := by
    rw [complete_fst]
    exact hnumbered.withExit _
  have hcurrent := hindexed.numbered.current
  rw [hdigraph, hentry_eq] at hcurrent
  have hnodup : (complete m g events).1.order.Nodup := by
    rw [hcurrent]
    exact List.nodup_reverse.2 (Digraph.postorder_nodup _ _)
  have hmem_iff (n : NodeId) : n ∈ (complete m g events).1.order ↔
      (complete m g events).1.isLive n = true := by
    rw [hcurrent, Digraph.reversePostorder, List.mem_reverse,
      Digraph.mem_postorder_iff hwellFormed hentry, hlive, hreachable]
  refine ⟨?_, hnodup, hmem_iff, fun n position hthere => ?_, ?_, hindexed.numbered.length_eq,
    hindexed.nodeAt_iff⟩
  · rw [hcurrent, hdigraph, hentry_eq]
  · have hplaced := Placed.num_eq ((retouches_complete m g events).kept n)
    obtain ⟨hlt, hget⟩ := List.getElem?_eq_some_iff.1 hthere
    rw [hplaced, reorder_numbersCurrent g n, hordered.toDigraph_eq,
      show g.reorder.entry = g.entry from congrArg Digraph.entry hordered.toDigraph_eq, ← hcurrent,
      numberIn, if_pos (List.mem_of_getElem? hthere), ← hget, hnodup.idxOf_getElem]
  · -- Only the index is emptied before the nodes are numbered, and only the exit is set afterwards.
    let cleared : FlowGraph := { g.reorder.markHandlerCode with locIndex := [] }
    have hcompleted (n : NodeId) : (complete m g events).1.node n =
        (cleared.numberFrom 0 (complete m g events).1.order).node n := by
      rw [hcurrent, ← horder, complete_fst]
      rfl
    have hknown : ∀ n ∈ (complete m g events).1.order, n < cleared.size := fun n hmem => by
      have hthere := lt_size_of_isLive ((hlive n).symm.trans ((hmem_iff n).1 hmem))
      exact hthere.trans_eq (congrArg Digraph.size hsame.toDigraph_eq).symm
    have hins (n : NodeId) : (cleared.node n).ins = ((complete m g events).1.node n).ins :=
      (hsame.ins_eq n).trans (hnode n).2.symm
    simp only [hcompleted]
    rw [flatMap_locs_numberFrom hknown hnodup 0]
    simp only [hins, hcompleted]

end Completing

section Charts

/-- The number of the node of a block. -/
def numberOf (pieces : List Piece) (index : Nat) : NodeId :=
  (pieces.map Piece.block).idxOf index

/-- The nodes of the children of a block, in order. -/
def childNodes (pieces : List Piece) (block : Block) : List NodeId :=
  block.children.map fun child => numberOf pieces child.2.toNat

/-- The nodes of the handlers that protect the start of a block, in order. -/
def handlerNodes (m : Method) (pieces : List Piece) (block : Block) : List NodeId :=
  (m.exceptions.handlersFor block.start).map fun handler => numberOf pieces handler.block.toNat

/-- A node has the instructions, the edges and the kind of a block. -/
structure Renders (m : Method) (g : FlowGraph) (pieces : List Piece) (n : NodeId) (piece : Piece)
    (block : Block) : Prop where
  instructions_eq : piece.code.map Prod.fst = block.instructions
  ins_eq : (g.node n).ins = piece.code.filterMap Prod.snd
  succs_eq : g.succs n = ofList (childNodes pieces block)
  handlerSuccs_eq : g.handlerSuccs n = ofList (handlerNodes m pieces block)
  kind_eq : Construction.kindOf m block (childNodes pieces block) = .ok (g.node n).kind

/-- A graph is that of the blocks that can be reached.  The nodes are the positions in a list of
these blocks. -/
structure Charts (m : Method) (g : FlowGraph) (pieces : List Piece) : Prop where
  nodup : (pieces.map Piece.block).Nodup
  mem_iff : ∀ index, index ∈ pieces.map Piece.block ↔ Reached m index
  size_eq : g.size = pieces.length
  isLive_iff : ∀ n, g.isLive n = true ↔ n < pieces.length
  entry_eq : (pieces.map Piece.block)[g.entry]? = some 0
  renders : ∀ (n : NodeId) piece, pieces[n]? = some piece →
    ∃ block, m.blocks[piece.block]? = some block ∧ Renders m g pieces n piece block
  wired : g.Wired

variable {m : Method} {l : LiftState} {c : Construction} {g : FlowGraph} {pieces : List Piece}
variable {index visits : Nat} {n : NodeId} {vars : Variables} {events : EventLog}

theorem Construction.Records.nodes_eq
    {indices : List Nat}
    {nodes : List NodeId}
    (h : Records m l pieces c)
    (hnodup : (pieces.map Piece.block).Nodup)
    (hfound : c.NodesOf indices nodes) :
    nodes = indices.map (numberOf pieces) := by
  induction hfound with
  | nil => rfl
  | cons hfirst _ ih =>
      obtain ⟨hlt, hget⟩ := List.getElem?_eq_some_iff.1 (h.block_of_lookup hfirst)
      rw [List.map_cons, ← ih, numberOf, ← hget, hnodup.idxOf_getElem]

/-- **When no block waits any more, the graph is that of the blocks that can be reached.** -/
theorem charts_of_drawn
    (hdrawn : Drawn m l visits c)
    (hvisited : 0 < visits)
    (hall : (mentioned m visits).length ≤ visits) :
    ∃ pieces, Lifted l (pieces.flatMap Piece.code) c.lifter ∧ c.nodeOf.lookup 0 = some 0 ∧
      Charts m { c.graph with entry := 0 } pieces := by
  obtain ⟨pieces, hrecords, hblocks⟩ := hdrawn.records
  rw [if_neg (Nat.ne_of_gt hvisited)] at hblocks
  have hnodup : (pieces.map Piece.block).Nodup := hblocks ▸ Construction.nodup_mentioned visits
  have hfirst : (pieces.map Piece.block)[0]? = some 0 := hblocks ▸ zero_mem_mentioned m visits
  refine ⟨pieces, hrecords.lifted, ?_, hnodup, fun index => hblocks ▸ mem_mentioned_iff hall,
    hrecords.size_eq, fun n => ?_, hfirst, fun n piece hthere => ?_,
    hdrawn.woven.wired.of_edges rfl rfl fun _ hlive => hlive⟩
  · rw [hrecords.nodeOf_eq]
    cases hknown : pieces.map Piece.block with
    | nil => simp [hknown] at hfirst
    | cons index rest =>
        rw [hknown] at hfirst
        obtain rfl := Option.some.inj hfirst
        rfl
  · rw [← hrecords.size_eq]
    exact ⟨lt_size_of_isLive, hdrawn.woven.isLive n⟩
  · have hthere' : (mentioned m visits)[n]? = some piece.block := by
      rw [← hblocks, List.getElem?_map, hthere, Option.map_some]
    have hlt := ((List.getElem?_eq_some_iff.1 hthere').1).trans_le hall
    obtain ⟨block, hfound, hcode⟩ := hrecords.of_method piece (List.mem_of_getElem? hthere)
    obtain ⟨children, handlers, hchildNodes, handlerNodes, hsuccs, handlerSuccs, hkind⟩ :=
      (hdrawn.isOf n _ block hlt hthere' hfound).edges
    have hchildren_eq := hrecords.nodes_eq hnodup hchildNodes
    have handlers_eq := hrecords.nodes_eq hnodup handlerNodes
    rw [List.map_map] at hchildren_eq handlers_eq
    subst hchildren_eq handlers_eq
    refine ⟨block, hfound, hcode, ?_, hsuccs, handlerSuccs, hkind⟩
    exact (hrecords.ins_eq n).trans (by rw [hthere]; rfl)

/-- Every node of the graph can be reached along edges. -/
theorem Charts.reachable
    (h : Charts m g pieces)
    (hreached : Reached m index) :
    g.toDigraph.Reachable g.entry (numberOf pieces index) := by
  induction hreached with
  | refl =>
      obtain ⟨hlt, hget⟩ := List.getElem?_eq_some_iff.1 h.entry_eq
      rw [numberOf, ← hget, h.nodup.idxOf_getElem]
      exact .refl _ _
  | @tail i j hbefore hmentions ih =>
      have hlt : numberOf pieces i < (pieces.map Piece.block).length :=
        List.idxOf_lt_length_iff.2 ((h.mem_iff i).2 hbefore)
      have hlt' : numberOf pieces i < pieces.length := by simpa using hlt
      have here : pieces[numberOf pieces i].block = i := by
        rw [← List.getElem_map Piece.block (h := hlt)]
        exact List.getElem_idxOf hlt
      obtain ⟨block, hfound, hrenders⟩ := h.renders _ _ (List.getElem?_eq_getElem hlt')
      rw [here] at hfound
      refine ih.step ?_
      change _ ∈ g.succs _ ++ g.handlerSuccs _
      rw [hrenders.succs_eq, hrenders.handlerSuccs_eq, List.mem_append, OrderedSet.mem_ofList,
        OrderedSet.mem_ofList]
      simp only [Construction.mentions, hfound, List.mem_append, List.mem_map] at hmentions
      rcases hmentions with ⟨child, hmem, rfl⟩ | ⟨handler, hmem, rfl⟩
      · exact .inl (List.mem_map.2 ⟨child, hmem, rfl⟩)
      · exact .inr (List.mem_map.2 ⟨handler, hmem, rfl⟩)

theorem Charts.isLive_iff_reachable
    (h : Charts m g pieces) :
    g.isLive n = true ↔ g.toDigraph.Reachable g.entry n := by
  have hentry : g.isLive g.entry = true := by
    rw [h.isLive_iff]
    simpa using (List.getElem?_eq_some_iff.1 h.entry_eq).1
  refine ⟨fun hlive => ?_, h.wired.live_of_reachable hentry⟩
  have hlt := (h.isLive_iff n).1 hlive
  have hthere : pieces[n].block ∈ pieces.map Piece.block :=
    List.mem_map_of_mem (List.getElem_mem hlt)
  have hreachable := h.reachable ((h.mem_iff _).1 hthere)
  have here : numberOf pieces pieces[n].block = n := by
    have hlt' : n < (pieces.map Piece.block).length := by simpa using hlt
    rw [numberOf, ← List.getElem_map Piece.block (h := hlt'), h.nodup.idxOf_getElem]
  rwa [here] at hreachable

/-- A graph with the same edges and the same contents of nodes is that of the same blocks. -/
theorem Charts.complete
    (h : Charts m g pieces)
    (events : EventLog) :
    Charts m (complete m g events).1 pieces := by
  obtain ⟨hsuccs, handlerSuccs, hlive, hentry, hdigraph, hnode⟩ := complete_keeps m g events
  refine ⟨h.nodup, h.mem_iff, (congrArg Digraph.size hdigraph).trans h.size_eq,
    fun n => by rw [hlive, h.isLive_iff], by rw [hentry, h.entry_eq], fun n piece hthere => ?_,
    (h.wired.retouch (retouches_reorder g)).retouch (retouches_complete m g events)⟩
  obtain ⟨block, hfound, hrenders⟩ := h.renders n piece hthere
  refine ⟨block, hfound, hrenders.instructions_eq, ?_, ?_, ?_, ?_⟩
  · rw [(hnode n).2, hrenders.ins_eq]
  · rw [hsuccs, hrenders.succs_eq]
  · rw [handlerSuccs, hrenders.handlerSuccs_eq]
  · rw [(hnode n).1, hrenders.kind_eq]

/-- **The graph of a method is that of the blocks that can be reached, arranged.** -/
theorem charts_ofMethod
    (hbuilt : (ofMethod m vars events).graph = .ok g) :
    ∃ pieces l, Lifted { vars, pending := none } (pieces.flatMap Piece.code) l ∧
      (ofMethod m vars events).vars = l.vars ∧ Charts m g pieces ∧ g.Arranged := by
  obtain ⟨hblocks, hmissing, c, hrun⟩ := visited_of_ofMethod hbuilt
  obtain ⟨hgraph, hvars_eq⟩ := ofMethod_of_visited hblocks hmissing hrun
  rw [hgraph] at hbuilt
  obtain rfl := Except.ok.inj hbuilt
  have hknown : 0 < m.blocks.length := List.length_pos_iff.2 (by simpa using hblocks)
  obtain ⟨visits, hdrawn, hall, hvisited⟩ := (Construction.drawn_start m vars events).visitAll
    (Construction.inRange_of_firstMissing hmissing) hknown hrun (by omega)
  obtain ⟨pieces, hlifted, hfirst, hcharts⟩ := charts_of_drawn hdrawn hvisited hall
  rw [hfirst, Option.getD_some]
  have hentry : ({ c.graph with entry := 0 } : FlowGraph).isLive 0 = true := by
    rw [hcharts.isLive_iff]
    simpa using (List.getElem?_eq_some_iff.1 hcharts.entry_eq).1
  exact ⟨pieces, c.lifter, hlifted, hvars_eq, hcharts.complete c.events,
    complete_arranged m c.events hcharts.wired.wellFormed hdrawn.locs_eq (lt_size_of_isLive hentry)
      fun n => hcharts.isLive_iff_reachable⟩

end Charts

section Errors

variable {m : Method} {vars : Variables} {events : EventLog}

/-- All indices of a method, those of children and those of handlers, are indices of blocks. -/
def IndicesExist (m : Method) : Prop :=
  (∀ block ∈ m.blocks, ∀ child ∈ block.children, child.2.toNat < m.blocks.length) ∧
    ∀ range ∈ m.exceptions.ranges, ∀ handler ∈ range.handlers,
      handler.block.toNat < m.blocks.length

theorem firstMissing?_eq_none_iff :
    firstMissing? m = none ↔ IndicesExist m := by
  simp [firstMissing?, IndicesExist, Option.or_eq_none_iff, List.findSome?_eq_none_iff,
    List.find?_eq_none]

theorem kind_of_firstMissing
    {e : FlowError}
    (hfound : firstMissing? m = some e) :
    (DecompileError.flow e).kind = "Malformed" := by
  unfold firstMissing? at hfound
  rcases Option.or_eq_some_iff.1 hfound with hfound | ⟨-, hfound⟩
  · obtain ⟨block, -, hfound⟩ := List.exists_of_findSome?_eq_some hfound
    obtain ⟨child, -, rfl⟩ := Option.map_eq_some_iff.1 hfound
    rfl
  · obtain ⟨range, -, hfound⟩ := List.exists_of_findSome?_eq_some hfound
    obtain ⟨handler, -, rfl⟩ := Option.map_eq_some_iff.1 hfound
    rfl

namespace Construction

/-- The errors of a computation are not about a method without blocks. -/
def FindsBlocks {α : Type} (x : ConstructM α) : Prop :=
  ∀ c e c', x c = .error e c' → e ≠ .noBlocks

theorem FindsBlocks.bind
    {α β : Type}
    {x : ConstructM α}
    {f : α → ConstructM β}
    (hfirst : FindsBlocks x)
    (hrest : ∀ a, FindsBlocks (f a)) :
    FindsBlocks (x >>= f) := by
  intro c e c' hrun
  change EStateM.bind x f c = .error e c' at hrun
  unfold EStateM.bind at hrun
  cases hstep : x c with
  | error e' c'' =>
      rw [hstep] at hrun
      cases hrun
      exact hfirst c e c' hstep
  | ok a c'' =>
      rw [hstep] at hrun
      exact hrest a c'' e c' hrun

theorem findsBlocks_modifyGet
    {α : Type}
    (f : Construction → α × Construction) :
    FindsBlocks (modifyGet f : ConstructM α) := by
  intro c e c' hrun
  cases hrun

theorem findsBlocks_get :
    FindsBlocks (get : ConstructM Construction) := by
  intro c e c' hrun
  cases hrun

theorem findsBlocks_set
    (c₁ : Construction) :
    FindsBlocks (set c₁ : ConstructM Unit) := by
  intro c e c' hrun
  cases hrun

theorem findsBlocks_pure
    {α : Type}
    (a : α) :
    FindsBlocks (pure a : ConstructM α) := by
  intro c e c' hrun
  cases hrun

theorem findsBlocks_throw
    {α : Type}
    {error : FlowError}
    (hother : error ≠ .noBlocks) :
    FindsBlocks (throw error : ConstructM α) := by
  intro c e c' hrun
  cases hrun
  exact hother

theorem findsBlocks_liftOne
    (m : Method)
    (ins : Bytecode.Instruction) :
    FindsBlocks (liftOne m ins) := by
  have hreport : FindsBlocks (reportUnknown m ins) := findsBlocks_modifyGet _
  unfold liftOne
  split
  on_goal 1 => refine hreport.bind fun _ => ?_
  all_goals
    refine findsBlocks_get.bind fun c => ?_
    split
    · exact (findsBlocks_set _).bind fun _ => findsBlocks_pure _
    · exact (findsBlocks_set _).bind fun _ => findsBlocks_throw (by simp)

theorem findsBlocks_liftAll
    (m : Method)
    (instructions : List Bytecode.Instruction) :
    FindsBlocks (liftAll m instructions) := by
  induction instructions with
  | nil => exact findsBlocks_pure _
  | cons ins rest ih =>
      exact (findsBlocks_liftOne m ins).bind fun _ => ih.bind fun _ => findsBlocks_pure _

theorem findsBlocks_nodeOfBlock
    (m : Method)
    (index : Nat) :
    FindsBlocks (nodeOfBlock m index) := by
  refine findsBlocks_get.bind fun c => ?_
  split
  · exact findsBlocks_pure _
  · exact findsBlocks_pure _
  · exact (findsBlocks_liftAll m _).bind fun _ => findsBlocks_modifyGet _

theorem findsBlocks_linkChildren
    (m : Method)
    (node : NodeId)
    (children : List (UInt32 × UInt64)) :
    FindsBlocks (linkChildren m node children) := by
  induction children with
  | nil => exact findsBlocks_pure _
  | cons child children ih =>
      exact (findsBlocks_nodeOfBlock m _).bind fun _ => (findsBlocks_modifyGet _).bind fun _ =>
        (findsBlocks_modifyGet _).bind fun _ => ih.bind fun _ => findsBlocks_pure _

theorem findsBlocks_linkHandlers
    (m : Method)
    (node : NodeId)
    (handlers : List Bytecode.Handler) :
    FindsBlocks (linkHandlers m node handlers) := by
  induction handlers with
  | nil => exact findsBlocks_pure _
  | cons handler handlers ih =>
      exact (findsBlocks_nodeOfBlock m _).bind fun _ => (findsBlocks_modifyGet _).bind fun _ =>
        (findsBlocks_modifyGet _).bind fun _ => ih

theorem error_of_kindOf
    {block : Block}
    {children : List NodeId}
    {e : FlowError}
    (hfailed : kindOf m block children = .error e) :
    e = .noSuccessor block.name := by
  unfold kindOf at hfailed
  dsimp only at hfailed
  repeat' split at hfailed
  all_goals
    cases hfailed
  rfl

theorem findsBlocks_visit
    (m : Method)
    (index : Nat)
    (block : Block) :
    FindsBlocks (visit m index block) := by
  refine (findsBlocks_nodeOfBlock m index).bind fun node =>
    (findsBlocks_linkChildren m node _).bind fun children =>
      (findsBlocks_linkHandlers m node _).bind fun _ => ?_
  split
  · exact findsBlocks_modifyGet _
  · next hfailed => exact findsBlocks_throw (by simp [error_of_kindOf hfailed])

theorem findsBlocks_visitAll
    (m : Method)
    (steps : Nat) :
    FindsBlocks (visitAll m steps) := by
  induction steps with
  | zero => exact findsBlocks_pure _
  | succ steps ih =>
      refine findsBlocks_get.bind fun c => ?_
      split
      · exact findsBlocks_pure _
      · refine (findsBlocks_set _).bind fun _ => ?_
        split
        · exact (findsBlocks_visit m _ _).bind fun _ => ih
        · exact ih

end Construction

/-- **A method has no graph for want of blocks if and only if it has none.** -/
theorem ofMethod_noBlocks_iff :
    (ofMethod m vars events).graph = .error .noBlocks ↔ m.blocks = [] := by
  unfold ofMethod
  by_cases hblocks : m.blocks = []
  · simp [hblocks]
  · simp only [List.isEmpty_iff, hblocks, if_false, iff_false]
    split
    · next error hfound =>
        intro hfailed
        obtain rfl := Except.error.inj hfailed
        exact absurd (kind_of_firstMissing hfound) (by decide)
    · next hmissing =>
        split
        · next error c hrun =>
            exact fun hfailed =>
              Construction.findsBlocks_visitAll m _ _ _ _ hrun (Except.error.inj hfailed)
        · exact nofun

theorem kind_eq_empty_iff
    {e : FlowError} :
    (DecompileError.flow e).kind = "Empty" ↔ e = .noBlocks := by
  cases e <;> simp [DecompileError.kind]

/-- An index that is out of range is found before anything else is looked at. -/
theorem ofMethod_missing
    (hblocks : m.blocks ≠ [])
    (hmissing : ¬ IndicesExist m) :
    ∃ e, (ofMethod m vars events).graph = .error e ∧
      (DecompileError.flow e).kind = "Malformed" := by
  rw [← firstMissing?_eq_none_iff] at hmissing
  obtain ⟨e, hfound⟩ := Option.ne_none_iff_exists'.1 hmissing
  exact ⟨e, by simp [ofMethod, hblocks, hfound], kind_of_firstMissing hfound⟩

/-- Lifting leaves out the jumps and nothing else. -/
theorem isGoto_iff_of_lifted
    {l l' : LiftState}
    {code : List Pair}
    (hlifted : Lifted l code l')
    {ins : Bytecode.Instruction}
    {made : Option Instr}
    (hmem : (ins, made) ∈ code) :
    made = none ↔ ins.opcode.isGoto = true := by
  induction hlifted with
  | nil l => cases hmem
  | cons hrun _ ih =>
      rcases List.mem_cons.1 hmem with here | hlater
      · cases here
        rcases LiftState.run_lift hrun with ⟨hgoto, rfl, -⟩ | ⟨hother, made, rfl, -⟩
        · simp [hgoto]
        · simp [hother]
      · exact ih hlater

/-- **What graph a method has.**  There is none for want of blocks exactly if there is no block, and
none if an index is out of range.  Otherwise the nodes of the graph are the blocks that can be
reached, each with its instructions, lifted one after another and without the jumps, and with the
edges to its children and handlers; and the graph is arranged. -/
theorem ofMethod_blocks
    (m : Method)
    (vars : Variables)
    (events : EventLog) :
    ((∃ e, (ofMethod m vars events).graph = .error e ∧ (DecompileError.flow e).kind = "Empty") ↔
        m.blocks = []) ∧
      (m.blocks ≠ [] → ¬ IndicesExist m →
        ∃ e, (ofMethod m vars events).graph = .error e ∧
          (DecompileError.flow e).kind = "Malformed") ∧
      ∀ g, (ofMethod m vars events).graph = .ok g →
        ∃ pieces l, Lifted { vars, pending := none } (pieces.flatMap Piece.code) l ∧
          (ofMethod m vars events).vars = l.vars ∧
          (∀ ins made, (ins, made) ∈ pieces.flatMap Piece.code →
            (made = none ↔ ins.opcode.isGoto = true)) ∧
          Charts m g pieces ∧ g.Arranged := by
  refine ⟨?_, ofMethod_missing, fun g hbuilt => ?_⟩
  · have hfailure : (ofMethod m vars events).graph = .error .noBlocks ↔ m.blocks = [] :=
      ofMethod_noBlocks_iff
    rw [← hfailure]
    constructor
    · rintro ⟨e, hfailed, hkind⟩
      rw [hfailed, kind_eq_empty_iff.1 hkind]
    · exact fun hfailed => ⟨.noBlocks, hfailed, rfl⟩
  · obtain ⟨pieces, l, hlifted, hvars_eq, hcharts, harranged⟩ := charts_ofMethod hbuilt
    exact ⟨pieces, l, hlifted, hvars_eq, fun _ _ hmem => isGoto_iff_of_lifted hlifted hmem, hcharts,
      harranged⟩

/-- What is checked of the graph of a fixed method before it is completed. -/
theorem exists_graph
    (m : Method)
    (vars : Variables)
    (events : EventLog)
    (check : FlowGraph → Bool)
    (hblocks : m.blocks.isEmpty = false)
    (hmissing : firstMissing? m = none)
    (hchecked : (match (Construction.visitAll m (m.blocks.length + 1)).run (.start vars events) with
      | .ok _ c => check { c.graph with entry := (c.nodeOf.lookup 0).getD 0 }
      | .error _ _ => false) = true) :
    ∃ g events', check g = true ∧
      (ofMethod m vars events).graph = .ok (complete m g events').1 := by
  cases hrun : (Construction.visitAll m (m.blocks.length + 1)).run (.start vars events) with
  | error error c =>
      rw [hrun] at hchecked
      cases hchecked
  | ok _ c =>
      rw [hrun] at hchecked
      exact ⟨_, c.events, hchecked, (ofMethod_of_visited hblocks hmissing hrun).1⟩

/-- A block of one instruction without operands. -/
def unitBlock (name : String) (offset : UInt32) (opcode : Opcode)
    (children : List (UInt32 × UInt64)) : Block where
  name
  start := offset
  stop := offset + 1
  instructions := [sampleInstruction opcode [] offset 1 none]
  children

/-- A loop of two blocks that one handler protects twice, and a block that nothing leads to. -/
def guardedLoop : Method :=
  { owner := "LFoo;"
    name := "f"
    descriptor := "()V"
    access := ⟨AccessFlags.staticBit⟩
    registers := 0
    blocks :=
      [unitBlock "work" 0 .nop [(1, 1)], unitBlock "again" 1 .goto [(0, 0)],
       unitBlock "handler" 2 .returnVoid [], unitBlock "nowhere" 3 .returnVoid []]
    exceptions :=
      ⟨[{ start := 0
          stop := 2
          handlers := [⟨some "LE;", 2⟩, ⟨none, 2⟩] }]⟩ }

theorem ofMethod_guardedLoop :
    ∃ g, (ofMethod guardedLoop (.ofMethod guardedLoop) []).graph = .ok g ∧ g.size = 3 ∧
      g.succs 1 = [0] ∧ g.handlerSuccs 1 = [2] := by
  obtain ⟨g, events, hchecked, hbuilt⟩ := exists_graph guardedLoop (.ofMethod guardedLoop) []
    (fun g => g.size == 3 && g.succs 1 == [0] && g.handlerSuccs 1 == [2]) rfl (by decide +kernel)
    (by decide +kernel)
  simp only [Bool.and_eq_true, beq_iff_eq] at hchecked
  obtain ⟨⟨hsize, hsuccs⟩, handlers⟩ := hchecked
  obtain ⟨hsuccs_eq, handlers_eq, -, -, hdigraph, -⟩ := complete_keeps guardedLoop g events
  exact ⟨_, hbuilt, (congrArg Digraph.size hdigraph).trans hsize, (hsuccs_eq 1).trans hsuccs,
    (handlers_eq 1).trans handlers⟩

/-- The loop and its handler have nodes, the other block has none. -/
theorem ofMethod_blocks_guardedLoop :
    ∃ g pieces, (ofMethod guardedLoop (.ofMethod guardedLoop) []).graph = .ok g ∧
      Charts guardedLoop g pieces ∧ g.Arranged ∧ pieces.length = 3 ∧ g.succs 1 = [0] ∧
      g.handlerSuccs 1 = [2] := by
  obtain ⟨g, hbuilt, hsize, hsuccs, handlers⟩ := ofMethod_guardedLoop
  obtain ⟨pieces, l, -, -, -, hcharts, harranged⟩ :=
    (ofMethod_blocks guardedLoop (.ofMethod guardedLoop) []).2.2 g hbuilt
  exact ⟨g, pieces, hbuilt, hcharts, harranged, hcharts.size_eq.symm.trans hsize, hsuccs, handlers⟩

end Errors

end FlowGraph
end DalvikDecompiler
