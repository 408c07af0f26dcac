import DalvikDecompiler.Proofs.FlowGraph.Construction
import DalvikDecompiler.Proofs.FlowGraph.Wiring
import DalvikDecompiler.Proofs.Symbolic.Results

/-!
# The order in which blocks are lifted

**Input.** A method whose blocks are visited one after another.

A block is lifted when it is mentioned for the first time: as the first block,
as a child of a block that is visited, or as a handler of its start.  Blocks are
visited in the order in which they have been mentioned.  The result that a call
leaves behind waits across blocks, so that this order decides which result an
instruction moves.

**Results.**
* `Visited.visitAll`: the nodes are the blocks in the order in which they are
  mentioned, and their code is lifted in this order.
* `ofMethod_results`: an instruction of a constructed graph moves the result of a call if and only
  if nothing with a result is lifted in between.
-/

namespace DalvikDecompiler
namespace FlowGraph

open Symbolic (Instr Variables LiftState)
open Symbolic.LiftState (Pair Lifted resultOf results)
open Bytecode (Block Method)

/-- Another graph has nodes with the same instructions. -/
structure SameIns (g g' : FlowGraph) : Prop where
  size_eq : g'.size = g.size
  ins_eq : ∀ n, (g'.node n).ins = (g.node n).ins

section SameIns

variable {g g' g'' : FlowGraph}

theorem SameIns.refl
    (g : FlowGraph) :
    SameIns g g :=
  ⟨rfl, fun _ => rfl⟩

theorem SameIns.trans
    (h : SameIns g g')
    (h' : SameIns g' g'') :
    SameIns g g'' :=
  ⟨h'.size_eq.trans h.size_eq, fun n => (h'.ins_eq n).trans (h.ins_eq n)⟩

theorem sameIns_modifySlot
    {f : Slot → Slot}
    (hf : ∀ slot, (f slot).node.ins = slot.node.ins)
    (g : FlowGraph)
    (id : NodeId) :
    SameIns g (g.modifySlot id f) := by
  refine ⟨size_modifySlot g id f, fun n => ?_⟩
  rw [node, node, slots_modifySlot]
  cases g.slots[n]? with
  | none => rfl
  | some slot =>
      simp only [Option.map_some, Option.getD_some]
      split
      · exact hf slot
      · rfl

theorem sameIns_addEdge
    (g : FlowGraph)
    (a b : NodeId) :
    SameIns g (g.addEdge a b) := by
  unfold addEdge
  split
  · exact .refl g
  · exact (sameIns_modifySlot (by intro slot; rfl) g a).trans
      (sameIns_modifySlot (by intro slot; rfl) _ b)

theorem sameIns_addHandlerEdge
    (g : FlowGraph)
    (a b : NodeId) :
    SameIns g (g.addHandlerEdge a b) := by
  unfold addHandlerEdge
  split
  · exact .refl g
  · exact (sameIns_modifySlot (by intro slot; rfl) g a).trans
      (sameIns_modifySlot (by intro slot; rfl) _ b)

theorem sameIns_modifyNode
    {f : Node → Node}
    (hf : ∀ n, (f n).ins = n.ins)
    (g : FlowGraph)
    (id : NodeId) :
    SameIns g (g.modifyNode id f) :=
  sameIns_modifySlot (fun slot => hf slot.node) g id

end SameIns

namespace Construction

/-- The blocks that a block mentions: its children, and then the handlers of its start. -/
def mentions (m : Method) (index : Nat) : List Nat :=
  match m.blocks[index]? with
  | some block =>
      block.children.map (fun child => child.2.toNat) ++
        (m.exceptions.handlersFor block.start).map fun handler => handler.block.toNat
  | none => []

/-- The blocks that have been mentioned after some visits.  The next visit is that of the first one
that has not been visited. -/
def mentioned (m : Method) : Nat → List Nat
  | 0 => [0]
  | visits + 1 =>
      match (mentioned m visits)[visits]? with
      | some index => OrderedSet.insertAll (mentioned m visits) (mentions m index)
      | none => mentioned m visits

/-- No block is mentioned twice. -/
theorem nodup_mentioned
    {m : Method}
    (visits : Nat) :
    (mentioned m visits).Nodup := by
  induction visits with
  | zero => exact List.nodup_singleton 0
  | succ visits ih =>
      rw [mentioned]
      split
      · exact OrderedSet.nodup_insertAll ih
      · exact ih

/-- A block that has been lifted: its index, and its instructions with what has become of them. -/
structure Piece where
  block : Nat
  code : List Pair

/-- The instructions of the node of a block. -/
def Piece.ins (piece : Piece) : List Instr :=
  piece.code.filterMap Prod.snd

/-- The code of a piece is that of its block. -/
def Piece.Of (m : Method) (piece : Piece) : Prop :=
  ∃ block, m.blocks[piece.block]? = some block ∧ piece.code.map Prod.fst = block.instructions

/-- The nodes of a construction are pieces that have been lifted one after another. -/
structure Records (m : Method) (l : LiftState) (pieces : List Piece) (c : Construction) :
    Prop where
  nodeOf_eq : c.nodeOf = (pieces.map Piece.block).zipIdx
  size_eq : c.graph.size = pieces.length
  lifted : Lifted l (pieces.flatMap Piece.code) c.lifter
  of_method : ∀ piece, piece ∈ pieces → piece.Of m
  ins_eq : ∀ id, (c.graph.node id).ins = (pieces[id]?.map Piece.ins).getD []

section Steps

variable {m : Method} {l : LiftState} {pieces : List Piece} {c c' : Construction}

/-- A step leaves the nodes alone, and the blocks that wait. -/
structure Stays (c c' : Construction) : Prop where
  graph_eq : c'.graph = c.graph
  nodeOf_eq : c'.nodeOf = c.nodeOf
  queue_eq : c'.queue = c.queue
  seen_eq : c'.seen = c.seen

theorem Stays.refl
    (c : Construction) :
    Stays c c :=
  ⟨rfl, rfl, rfl, rfl⟩

theorem Stays.trans
    {c'' : Construction}
    (h : Stays c c')
    (h' : Stays c' c'') :
    Stays c c'' :=
  ⟨h'.graph_eq.trans h.graph_eq, h'.nodeOf_eq.trans h.nodeOf_eq, h'.queue_eq.trans h.queue_eq,
    h'.seen_eq.trans h.seen_eq⟩

/-- Lifting an instruction changes the lifter and the events only. -/
theorem run_liftOne
    {ins : Bytecode.Instruction}
    {made : Option Instr}
    (hrun : liftOne m ins c = .ok made c') :
    LiftState.lift ins c.lifter = .ok made c'.lifter ∧ Stays c c' := by
  unfold liftOne at hrun
  split at hrun
  on_goal 1 =>
    obtain ⟨_, c₁, hreport, hrun⟩ := run_bind hrun
    cases hreport
  -- With or without a report, the instruction is lifted in the same way.
  all_goals
    obtain ⟨c₂, c₃, hget, hrest⟩ := run_bind hrun
    cases hget
    cases hresult : (LiftState.lift ins).run c.lifter with
    | error error lifter =>
        simp only [hresult] at hrest
        cases hrest
    | ok lifted lifter =>
        simp only [hresult] at hrest
        cases hrest
        exact ⟨hresult, rfl, rfl, rfl, rfl⟩

theorem run_liftAll
    {instructions : List Bytecode.Instruction}
    {made : List Instr}
    (hrun : liftAll m instructions c = .ok made c') :
    (∃ code : List Pair, code.map Prod.fst = instructions ∧ made = code.filterMap Prod.snd ∧
        Lifted c.lifter code c'.lifter) ∧ Stays c c' := by
  induction instructions generalizing c c' made with
  | nil =>
      cases hrun
      exact ⟨⟨[], rfl, rfl, .nil _⟩, .refl _⟩
  | cons ins rest ih =>
      rw [liftAll] at hrun
      obtain ⟨lifted, c₁, hone, hrest⟩ := run_bind hrun
      obtain ⟨hlift, hstays⟩ := run_liftOne hone
      obtain ⟨more, c₂, hall, hpure⟩ := run_bind hrest
      obtain ⟨⟨code, hcode, rfl, hlifted⟩, hstays'⟩ := ih hall
      cases hpure
      refine ⟨⟨(ins, lifted) :: code, by rw [List.map_cons, hcode], ?_, .cons hlift hlifted⟩,
        hstays.trans hstays'⟩
      cases lifted <;> rfl

/-- A block is lifted when it is mentioned for the first time, after all other ones. -/
theorem Records.nodeOfBlock
    {index : Nat}
    {id : NodeId}
    (h : Records m l pieces c)
    (hindex : index < m.blocks.length)
    (hrun : nodeOfBlock m index c = .ok id c') :
    ∃ pieces', Records m l pieces' c' ∧
      pieces'.map Piece.block = OrderedSet.insert (pieces.map Piece.block) index ∧
      c'.queue = c.queue ∧ c'.seen = c.seen := by
  unfold Construction.nodeOfBlock at hrun
  obtain ⟨c₁, c₂, hget, hrest⟩ := run_bind hrun
  cases hget
  have hkeys : c.nodeOf.map Prod.fst = pieces.map Piece.block := by
    rw [h.nodeOf_eq, List.zipIdx_map_fst]
  cases hlookup : c.nodeOf.lookup index with
  | some known =>
      simp only [hlookup] at hrest
      cases hrest
      have hmem : index ∈ pieces.map Piece.block := by
        obtain ⟨before, after, heq, -⟩ := List.lookup_eq_some_iff.mp hlookup
        rw [← hkeys, heq]
        simp
      exact ⟨pieces, h, (OrderedSet.insert_of_mem hmem).symm, rfl, rfl⟩
  | none =>
      obtain ⟨block, hblock⟩ : ∃ block, m.blocks[index]? = some block :=
        ⟨_, List.getElem?_eq_getElem hindex⟩
      simp only [hlookup, hblock] at hrest
      obtain ⟨ins, c₃, hall, hnew⟩ := run_bind hrest
      obtain ⟨⟨code, hcode, rfl, hlifted⟩, hstays⟩ := run_liftAll hall
      cases hnew
      have hnot : index ∉ pieces.map Piece.block := by
        rw [← hkeys]
        intro hmem
        obtain ⟨entry, hentry, rfl⟩ := List.mem_map.mp hmem
        exact absurd (List.lookup_eq_none_iff.mp hlookup entry hentry) (by simp)
      refine ⟨pieces ++ [⟨index, code⟩], ⟨?_, ?_, ?_, ?_, ?_⟩, ?_, hstays.queue_eq, hstays.seen_eq⟩
      · change c₃.nodeOf ++ [(index, c₃.graph.size)] = _
        rw [hstays.nodeOf_eq, hstays.graph_eq, h.size_eq, h.nodeOf_eq, List.map_append,
          List.zipIdx_append]
        simp
      · change (c₃.graph.addNode _).2.size = _
        rw [size_addNode, hstays.graph_eq, h.size_eq, List.length_append, List.length_singleton]
      · rw [List.flatMap_append, List.flatMap_singleton]
        exact h.lifted.append hlifted
      · intro piece hpiece
        rcases List.mem_append.mp hpiece with hpiece | hpiece
        · exact h.of_method piece hpiece
        · obtain rfl := List.mem_singleton.mp hpiece
          exact ⟨block, hblock, hcode⟩
      · intro id
        change ((c₃.graph.addNode _).2.node id).ins = _
        rw [node_addNode, hstays.graph_eq, h.size_eq]
        split
        · rename_i hid
          rw [hid, List.getElem?_concat_length]
          rfl
        · rename_i hid
          rw [h.ins_eq]
          rcases Nat.lt_or_gt_of_ne hid with hid | hid
          · rw [List.getElem?_append_left hid]
          · rw [List.getElem?_eq_none (Nat.le_of_lt hid), List.getElem?_eq_none]
            rwa [List.length_append, List.length_singleton]
      · rw [OrderedSet.insert_of_not_mem hnot, List.map_append, List.map_singleton]

/-- The blocks that wait and the edges have nothing to do with the code. -/
theorem Records.sameIns
    {graph : FlowGraph}
    (h : Records m l pieces c)
    (hgraph : SameIns c.graph graph)
    (queue seen : List Nat) :
    Records m l pieces { c with graph, queue, seen } :=
  ⟨h.nodeOf_eq, hgraph.size_eq.trans h.size_eq, h.lifted, h.of_method, fun id =>
    (hgraph.ins_eq id).trans (h.ins_eq id)⟩

/-- Blocks that are mentioned are lifted and wait, in one order. -/
structure Follows (m : Method) (l : LiftState) (visits : Nat) (blocks : List Nat)
    (c : Construction) : Prop where
  records : ∃ pieces, Records m l pieces c ∧ pieces.map Piece.block = blocks
  seen_eq : c.seen = blocks
  queue_eq : c.queue = blocks.drop visits
  visits_le : visits ≤ blocks.length

variable {visits index : Nat} {blocks : List Nat}

/-- A block that is mentioned comes after all others, unless it has been mentioned before. -/
theorem Follows.mention
    {f : NodeId → FlowGraph → FlowGraph}
    (h : Follows m l visits blocks c)
    (hindex : index < m.blocks.length)
    (hf : ∀ id g, SameIns g (f id g))
    {id : NodeId}
    {c₁ c₂ : Construction}
    (hnode : nodeOfBlock m index c = .ok id c₁)
    (hgraph : modifyGraph (f id) c₁ = .ok () c₂)
    (hqueue : enqueue index c₂ = .ok () c') :
    Follows m l visits (OrderedSet.insert blocks index) c' := by
  obtain ⟨pieces, hrecords, hblocks⟩ := h.records
  obtain ⟨pieces', hrecords', hblocks', hqueue₁, hseen₁⟩ := hrecords.nodeOfBlock hindex hnode
  rw [hblocks] at hblocks'
  cases hgraph
  cases hqueue
  have hseen : c₁.seen = blocks := hseen₁.trans h.seen_eq
  have hwaiting : c₁.queue = blocks.drop visits := hqueue₁.trans h.queue_eq
  have hrecords₂ := hrecords'.sameIns (hf id c₁.graph)
  simp only [hseen, hwaiting]
  split
  · rename_i hmem
    have hsame := OrderedSet.insert_of_mem (List.contains_iff_mem.mp hmem)
    rw [hsame] at hblocks' ⊢
    exact ⟨⟨pieces', hrecords₂ _ _, hblocks'⟩, rfl, rfl, h.visits_le⟩
  · rename_i hnot
    have hmore := OrderedSet.insert_of_not_mem fun hmem => hnot (List.contains_iff_mem.mpr hmem)
    rw [hmore] at hblocks' ⊢
    refine ⟨⟨pieces', hrecords₂ _ _, hblocks'⟩, rfl, ?_, ?_⟩
    · exact (List.drop_append_of_le_length h.visits_le).symm
    · exact Nat.le_trans h.visits_le (by simp)

theorem Follows.linkChildren
    {node : NodeId}
    {children : List (UInt32 × UInt64)}
    {nodes : List NodeId}
    (h : Follows m l visits blocks c)
    (hvalid : ∀ child, child ∈ children → child.2.toNat < m.blocks.length)
    (hrun : linkChildren m node children c = .ok nodes c') :
    Follows m l visits
      (OrderedSet.insertAll blocks (children.map fun child => child.2.toNat)) c' := by
  induction children generalizing blocks c nodes with
  | nil =>
      cases hrun
      exact h
  | cons child children ih =>
      obtain ⟨hchild, hchildren⟩ := List.forall_mem_cons.mp hvalid
      rw [Construction.linkChildren] at hrun
      obtain ⟨target, c₁, hnode, hrest⟩ := run_bind hrun
      obtain ⟨⟨⟩, c₂, hgraph, hrest⟩ := run_bind hrest
      obtain ⟨⟨⟩, c₃, hqueue, hrest⟩ := run_bind hrest
      obtain ⟨more, c₄, hlinks, hpure⟩ := run_bind hrest
      cases hpure
      have hfollows := h.mention hchild (fun id g => sameIns_addEdge g node id) hnode hgraph hqueue
      rw [List.map_cons, OrderedSet.insertAll, List.foldl_cons]
      exact ih hfollows hchildren hlinks

theorem Follows.linkHandlers
    {node : NodeId}
    {handlers : List Bytecode.Handler}
    (h : Follows m l visits blocks c)
    (hvalid : ∀ handler, handler ∈ handlers → handler.block.toNat < m.blocks.length)
    (hrun : linkHandlers m node handlers c = .ok () c') :
    Follows m l visits
      (OrderedSet.insertAll blocks (handlers.map fun handler => handler.block.toNat)) c' := by
  induction handlers generalizing blocks c with
  | nil =>
      cases hrun
      exact h
  | cons handler handlers ih =>
      obtain ⟨hhandler, hhandlers⟩ := List.forall_mem_cons.mp hvalid
      rw [Construction.linkHandlers] at hrun
      obtain ⟨target, c₁, hnode, hrest⟩ := run_bind hrun
      obtain ⟨⟨⟩, c₂, hgraph, hrest⟩ := run_bind hrest
      obtain ⟨⟨⟩, c₃, hqueue, hlinks⟩ := run_bind hrest
      have hfollows := h.mention hhandler
        (f := fun id g => (g.addHandlerEdge node id).modifyNode id
          (markHandler handler.exceptionType))
        (fun id g => (sameIns_addHandlerEdge g node id).trans
          (sameIns_modifyNode (by intro n; rfl) _ id)) hnode hgraph hqueue
      rw [List.map_cons, OrderedSet.insertAll, List.foldl_cons]
      exact ih hfollows hhandlers hlinks

/-- The indices in a method are those of its blocks. -/
def InRange (m : Method) : Prop :=
  ∀ block, block ∈ m.blocks →
    (∀ child, child ∈ block.children → child.2.toNat < m.blocks.length) ∧
    ∀ handler, handler ∈ m.exceptions.handlersFor block.start →
      handler.block.toNat < m.blocks.length

theorem inRange_of_firstMissing
    (h : firstMissing? m = none) :
    InRange m := by
  unfold firstMissing? at h
  obtain ⟨hchild, hhandler⟩ := Option.or_eq_none_iff.mp h
  refine fun block hblock => ⟨fun child hmem => ?_, fun handler hmem => ?_⟩
  · have hnone := List.findSome?_eq_none_iff.mp hchild block hblock
    rw [Option.map_eq_none_iff] at hnone
    simpa using List.find?_eq_none.mp hnone child hmem
  · obtain ⟨range, hrange, hmem⟩ := List.mem_flatMap.mp hmem
    have hnone := List.findSome?_eq_none_iff.mp hhandler range (List.mem_of_mem_filter hrange)
    rw [Option.map_eq_none_iff] at hnone
    simpa using List.find?_eq_none.mp hnone handler hmem

/-- Visiting a block that has been mentioned. -/
theorem Records.visit
    {block : Block}
    (h : Records m l pieces c)
    (hrange : InRange m)
    (hblock : m.blocks[index]? = some block)
    (hblocks : OrderedSet.insert (pieces.map Piece.block) index = blocks)
    (hseen : c.seen = blocks)
    (hqueue : c.queue = blocks.drop visits)
    (hvisits : visits ≤ blocks.length)
    (hrun : visit m index block c = .ok () c') :
    Follows m l visits (OrderedSet.insertAll blocks (mentions m index)) c' := by
  obtain ⟨hlt, rfl⟩ := List.getElem?_eq_some_iff.mp hblock
  obtain ⟨hchildren, hhandlers⟩ := hrange _ (List.getElem_mem hlt)
  unfold Construction.visit at hrun
  obtain ⟨node, c₁, hnode, hrest⟩ := run_bind hrun
  obtain ⟨children, c₂, hlinks, hrest⟩ := run_bind hrest
  obtain ⟨⟨⟩, c₃, hlinks', hrest⟩ := run_bind hrest
  obtain ⟨pieces', hrecords, hpieces, hqueue₁, hseen₁⟩ := h.nodeOfBlock hlt hnode
  have hstart : Follows m l visits blocks c₁ :=
    ⟨⟨pieces', hrecords, hpieces.trans hblocks⟩, hseen₁.trans hseen, hqueue₁.trans hqueue, hvisits⟩
  have hlinked := (hstart.linkChildren hchildren hlinks).linkHandlers hhandlers hlinks'
  have hmentions : OrderedSet.insertAll blocks (mentions m index) =
      OrderedSet.insertAll
        (OrderedSet.insertAll blocks (m.blocks[index].children.map fun child => child.2.toNat))
        ((m.exceptions.handlersFor m.blocks[index].start).map fun handler =>
          handler.block.toNat) := by
    simp only [mentions, hblock]
    exact List.foldl_append
  rw [hmentions]
  cases hkind : kindOf m m.blocks[index] children with
  | error error =>
      simp only [hkind] at hrest
      cases hrest
  | ok kind =>
      simp only [hkind] at hrest
      cases hrest
      obtain ⟨pieces'', hrecords', hpieces'⟩ := hlinked.records
      have hsame : SameIns c₃.graph (c₃.graph.modifyNode node fun n => { n with kind }) :=
        sameIns_modifyNode (by intro n; rfl) _ node
      exact ⟨⟨pieces'', hrecords'.sameIns hsame _ _, hpieces'⟩, hlinked.seen_eq, hlinked.queue_eq,
        hlinked.visits_le⟩

theorem mentioned_add
    (h : (mentioned m visits)[visits]? = none)
    (more : Nat) :
    mentioned m (visits + more) = mentioned m visits := by
  induction more with
  | zero => rfl
  | succ more ih =>
      have hlength : (mentioned m visits).length ≤ visits + more :=
        Nat.le_trans (List.getElem?_eq_none_iff.mp h) (Nat.le_add_right visits more)
      rw [← Nat.add_assoc, mentioned, ih, List.getElem?_eq_none hlength]

/-- What holds after some visits: the blocks mentioned so far have been lifted in their order, and
those that have not been visited wait. -/
structure Visited (m : Method) (l : LiftState) (visits : Nat) (c : Construction) : Prop where
  records : ∃ pieces, Records m l pieces c ∧
    pieces.map Piece.block = if visits = 0 then [] else mentioned m visits
  seen_eq : c.seen = mentioned m visits
  queue_eq : c.queue = (mentioned m visits).drop visits

/-- One visit, of the first block that waits. -/
theorem Visited.step
    {block : Block}
    {rest : List Nat}
    (h : Visited m l visits c)
    (hrange : InRange m)
    (hqueue : c.queue = index :: rest)
    (hblock : m.blocks[index]? = some block)
    (hrun : visit m index block { c with queue := rest } = .ok () c') :
    Visited m l (visits + 1) c' := by
  obtain ⟨pieces, hrecords, hpieces⟩ := h.records
  have hdrop := h.queue_eq.symm.trans hqueue
  have hfirst : (mentioned m visits)[visits]? = some index := by
    rw [← List.head?_drop, hdrop, List.head?_cons]
  have hrest : rest = (mentioned m visits).drop (visits + 1) := by
    rw [← List.tail_drop, hdrop, List.tail_cons]
  have hlt : visits < (mentioned m visits).length := (List.getElem?_eq_some_iff.mp hfirst).1
  have hinsert : OrderedSet.insert (pieces.map Piece.block) index = mentioned m visits := by
    rw [hpieces]
    split
    · rename_i hzero
      subst hzero
      cases hfirst
      rfl
    · exact OrderedSet.insert_of_mem (List.mem_of_getElem? hfirst)
  obtain ⟨⟨pieces', hrecords', hpieces'⟩, hseen, hqueue', -⟩ :=
    (hrecords.sameIns (.refl _) rest c.seen).visit hrange hblock hinsert h.seen_eq hrest hlt hrun
  have hnext : mentioned m (visits + 1) =
      OrderedSet.insertAll (mentioned m visits) (mentions m index) := by
    rw [mentioned, hfirst]
  rw [← hnext] at hpieces' hseen hqueue'
  exact ⟨⟨pieces', hrecords', hpieces'.trans (if_neg (Nat.succ_ne_zero visits)).symm⟩, hseen,
    hqueue'⟩

/-- The first block that waits exists. -/
theorem Visited.exists_block
    {rest : List Nat}
    (h : Visited m l visits c)
    (hblocks : 0 < m.blocks.length)
    (hqueue : c.queue = index :: rest) :
    ∃ block, m.blocks[index]? = some block := by
  obtain ⟨pieces, hrecords, hpieces⟩ := h.records
  have hmem : index ∈ mentioned m visits :=
    List.mem_of_mem_drop (h.queue_eq.symm.trans hqueue ▸ List.mem_cons_self)
  split at hpieces
  · rename_i hzero
    subst hzero
    obtain rfl := List.mem_singleton.mp hmem
    exact ⟨_, List.getElem?_eq_getElem hblocks⟩
  · rw [← hpieces] at hmem
    obtain ⟨piece, hpiece, rfl⟩ := List.mem_map.mp hmem
    obtain ⟨block, hblock, -⟩ := hrecords.of_method piece hpiece
    exact ⟨block, hblock⟩

/-- All blocks that are mentioned are lifted, in the order in which they are mentioned. -/
theorem Visited.visitAll
    {steps : Nat}
    (h : Visited m l visits c)
    (hrange : InRange m)
    (hblocks : 0 < m.blocks.length)
    (hrun : visitAll m steps c = .ok () c')
    (hsteps : 0 < visits + steps) :
    ∃ pieces, Records m l pieces c' ∧
      pieces.map Piece.block = mentioned m (visits + steps) := by
  induction steps generalizing visits c with
  | zero =>
      cases hrun
      obtain ⟨pieces, hrecords, hpieces⟩ := h.records
      exact ⟨pieces, hrecords, hpieces.trans (if_neg (Nat.ne_of_gt hsteps))⟩
  | succ steps ih =>
      rw [Construction.visitAll] at hrun
      obtain ⟨c₁, c₂, hget, hrest⟩ := run_bind hrun
      cases hget
      cases hqueue : c.queue with
      | nil =>
          simp only [hqueue] at hrest
          cases hrest
          have hlength : (mentioned m visits).length ≤ visits :=
            List.drop_eq_nil_iff.mp (h.queue_eq.symm.trans hqueue)
          have hvisits : visits ≠ 0 := by
            rintro rfl
            exact absurd hlength (Nat.not_succ_le_zero 0)
          obtain ⟨pieces, hrecords, hpieces⟩ := h.records
          exact ⟨pieces, hrecords, (hpieces.trans (if_neg hvisits)).trans
            (mentioned_add (List.getElem?_eq_none hlength) _).symm⟩
      | cons index rest =>
          obtain ⟨block, hblock⟩ := h.exists_block hblocks hqueue
          simp only [hqueue, hblock] at hrest
          obtain ⟨⟨⟩, c₂, hset, hrest⟩ := run_bind hrest
          cases hset
          obtain ⟨⟨⟩, c₃, hvisit, hrest⟩ := run_bind hrest
          have hnext := ih (h.step hrange hqueue hblock hvisit) hrest
            (Nat.add_pos_left (Nat.succ_pos visits) steps)
          rwa [Nat.add_right_comm] at hnext

end Steps

end Construction

open Construction (Piece mentioned)

/-- Ordering, numbering and marking the nodes keeps their instructions. -/
theorem complete_ins
    {g : FlowGraph}
    {bound : Nat}
    (m : Method)
    (events : EventLog)
    (hg : g.Growing bound)
    (n : NodeId) :
    ((complete m g events).1.node n).ins = (g.node n).ins := by
  obtain ⟨hordered, horder⟩ := reorder_sameCode g
  obtain ⟨hmarked, horder'⟩ := markHandlerCode_sameCode g.reorder
  have hsame := hordered.trans hmarked
  have hg' := hg.sameCode hsame
  have hentry : (markHandlerCode g.reorder).entry = g.entry :=
    congrArg Digraph.entry hsame.toDigraph_eq
  obtain ⟨-, hins⟩ := numberInstructions_indexed hg'.wellFormed
    (by rw [horder', horder, hsame.toDigraph_eq, hentry]) hg'.locs_eq
  rw [complete_fst]
  exact (hins n).trans (hsame.ins_eq n)

/-- The nodes of the graph of a method have the instructions of its visits. -/
theorem visited_ins
    {m : Method}
    {events : EventLog}
    {c : Construction}
    (hrun : (Construction.visitAll m (m.blocks.length + 1)).run (.start (.ofMethod m) events) =
      .ok () c)
    (n : NodeId) :
    ((complete m { c.graph with entry := (c.nodeOf.lookup 0).getD 0 } c.events).1.node n).ins =
      (c.graph.node n).ins := by
  obtain ⟨hsound, hparams⟩ := LiftState.sound_ofMethod m
  have hstart : Construction.Sound (Variables.ofMethod m).params (.start (.ofMethod m) events) :=
    ⟨hsound, rfl, hparams, growing_empty, by simp [Construction.start]⟩
  obtain ⟨hc, -⟩ := Construction.constructs_visitAll [] _ _ () c hstart (by simp) hrun
  have hgrowing : Growing { c.graph with entry := (c.nodeOf.lookup 0).getD 0 }
      c.lifter.vars.size :=
    ⟨⟨hc.growing.wellFormed.mem_preds, hc.growing.wellFormed.source_lt,
      hc.growing.wellFormed.target_lt⟩, hc.growing.locs_eq, hc.growing.mentions_lt⟩
  exact complete_ins m c.events hgrowing n

/-- The code of a method and of the nodes of its graph, piece by piece in the order in which it has
been lifted. -/
structure LiftedAs (m : Method) (g : FlowGraph) (pieces : List Piece) : Prop where
  blocks_eq : pieces.map Piece.block = mentioned m (m.blocks.length + 1)
  nodup : (pieces.map Piece.block).Nodup
  of_method : ∀ piece, piece ∈ pieces → piece.Of m
  ins_eq : ∀ id, (g.node id).ins = (pieces[id]?.map Piece.ins).getD []

/-- **Results of calls.**  Blocks are lifted in the order in which they are mentioned, breadth
first.  A call that returns something makes a result, and an instruction that moves a result moves
the last one that has been made in this order.  This is the result of a given call if and only if
nothing that has been lifted between the two has made a result. -/
theorem ofMethod_results
    {m : Method}
    {events : EventLog}
    {g : FlowGraph}
    (h : (ofMethod m (.ofMethod m) events).graph = .ok g) :
    ∃ pieces, LiftedAs m g pieces ∧
      (∀ ins made, (ins, made) ∈ pieces.flatMap Piece.code →
        (ins.makesResult = true → (resultOf (ins, made)).isSome = true) ∧
        (ins.opcode.isMoveResult = true → (made.bind Instr.moved?).isSome = true)) ∧
      (∀ before move after value, pieces.flatMap Piece.code = before ++ move :: after →
        move.2.bind Instr.moved? = some value →
        ∃ result, (results before).getLast? = some result ∧ value = .var result) ∧
      ∀ before call between move after result value,
        pieces.flatMap Piece.code = before ++ call :: (between ++ move :: after) →
        resultOf call = some result → move.2.bind Instr.moved? = some value →
        (value = .var result ↔ ∀ pair, pair ∈ between → resultOf pair = none) := by
  obtain ⟨hblocks, hmissing, c, hrun⟩ := visited_of_ofMethod h
  obtain ⟨hgraph, -⟩ := ofMethod_of_visited hblocks hmissing hrun
  rw [hgraph] at h
  obtain rfl := Except.ok.inj h
  have hsound := (LiftState.sound_ofMethod m).1
  have hvisited : Construction.Visited m { vars := .ofMethod m, pending := none } 0
      (.start (.ofMethod m) events) :=
    ⟨⟨[], ⟨rfl, rfl, .nil _, by simp, fun id => rfl⟩, rfl⟩, rfl, rfl⟩
  have hpositive : 0 < m.blocks.length :=
    List.length_pos_iff.mpr fun hnil => by simp [hnil] at hblocks
  obtain ⟨pieces, hrecords, hpieces⟩ := hvisited.visitAll
    (Construction.inRange_of_firstMissing hmissing) hpositive hrun (by simp)
  rw [Nat.zero_add] at hpieces
  have hlifted := hrecords.lifted
  refine ⟨pieces, ⟨hpieces, hpieces ▸ Construction.nodup_mentioned _, hrecords.of_method,
    fun id => (visited_ins hrun id).trans (hrecords.ins_eq id)⟩,
    fun ins made hmem => ?_, fun before move after value hcode hmoved => ?_,
    fun before call between move after result value hcode hresult hmoved => ?_⟩
  · obtain ⟨l₁, l₂, hl₁, hlift⟩ := hlifted.exists_run hsound hmem
    exact ⟨LiftState.result_of_makesResult hl₁ hlift, LiftState.moved_of_isMoveResult hlift⟩
  · rw [hcode] at hlifted
    obtain ⟨result, hlast, hvalue⟩ := hlifted.moved hsound hmoved
    exact ⟨result, Option.or_none.symm.trans hlast, hvalue⟩
  · rw [hcode] at hlifted
    exact hlifted.moves_iff hsound hresult hmoved

/-- A method whose first call is a block of its own: another block falls through from it, moves its
result and returns it.  A branch around the two calls another method. -/
def splitCall : Method :=
  let call (name : String) : Bytecode.Operand :=
    .method { owner := "LP;", name, descriptor := "()I" }
  { owner := "LFoo;"
    name := "f"
    descriptor := "(I)I"
    access := ⟨AccessFlags.staticBit⟩
    registers := 2
    blocks :=
      [{ name := "test"
         start := 0
         stop := 2
         instructions := [sampleInstruction .ifEqz [.register 1] 0 2 (some 7)]
         children := [(2, 1), (7, 3)] },
       { name := "call"
         start := 2
         stop := 5
         instructions := [sampleInstruction .invokeStatic [call "a"] 2 3 none]
         children := [(5, 2)] },
       { name := "move"
         start := 5
         stop := 7
         instructions :=
          [sampleInstruction .moveResult [.register 0] 5 1 none,
           sampleInstruction .returnValue [.register 0] 6 1 none]
         children := [] },
       { name := "around"
         start := 7
         stop := 12
         instructions :=
          [sampleInstruction .invokeStatic [call "b"] 7 3 none,
           sampleInstruction .moveResult [.register 0] 10 1 none,
           sampleInstruction .returnValue [.register 0] 11 1 none]
         children := [] }]
    exceptions := .empty }

/-- The visits of the method succeed, and its blocks have the nodes 0, 1, 3 and 2. -/
theorem splitCall_visited :
    ∃ c, (Construction.visitAll splitCall 5).run (.start (.ofMethod splitCall) []) = .ok () c ∧
      (c.graph.node 1).ins.filterMap Instr.result? = [1] ∧
      (c.graph.node 3).ins.map Instr.reads = [[2], [3]] := by
  have hchecked :
      (match (Construction.visitAll splitCall 5).run (.start (.ofMethod splitCall) []) with
        | .ok _ c =>
            (c.graph.node 1).ins.filterMap Instr.result? == [1] &&
              (c.graph.node 3).ins.map Instr.reads == [[2], [3]]
        | .error _ _ => false) = true := by
    decide +kernel
  cases hrun : (Construction.visitAll splitCall 5).run (.start (.ofMethod splitCall) []) with
  | error error c =>
      rw [hrun] at hchecked
      cases hchecked
  | ok _ c =>
      rw [hrun] at hchecked
      simp only [Bool.and_eq_true, beq_iff_eq] at hchecked
      exact ⟨c, rfl, hchecked⟩

theorem ofMethod_splitCall :
    ∃ g, (ofMethod splitCall (.ofMethod splitCall) []).graph = .ok g ∧
      (g.node 1).ins.filterMap Instr.result? = [1] ∧ (g.node 3).ins.map Instr.reads =
        [[2], [3]] := by
  obtain ⟨c, hrun, hcall, hmove⟩ := splitCall_visited
  refine ⟨_, (ofMethod_of_visited rfl (by decide +kernel) hrun).1, ?_, ?_⟩
  · rw [visited_ins hrun]
    exact hcall
  · rw [visited_ins hrun]
    exact hmove

/-- The block that moves the result is only reached from the call, but it is lifted after the block
that the branch leads to, and reads the result of the call there. -/
theorem splitCall_moves_other :
    (splitCall.blocks.filter fun block => block.children.any fun child => child.2 == 2).map
        Block.name = ["call"] ∧
      mentioned splitCall 5 = [0, 1, 3, 2] ∧
      ∃ g, (ofMethod splitCall (.ofMethod splitCall) []).graph = .ok g ∧
        (g.node 1).ins.filterMap Instr.result? = [1] ∧
        (g.node 3).ins.map Instr.reads = [[2], [3]] :=
  ⟨by decide +kernel, by decide +kernel, ofMethod_splitCall⟩

/-- The code of the method is lifted as a whole. -/
theorem ofMethod_results_splitCall :
    ∃ g, (ofMethod splitCall (.ofMethod splitCall) []).graph = .ok g ∧
      ∃ pieces, LiftedAs splitCall g pieces ∧
        ∀ before move after value, pieces.flatMap Piece.code = before ++ move :: after →
          move.2.bind Instr.moved? = some value →
          ∃ result, (results before).getLast? = some result ∧ value = .var result := by
  obtain ⟨g, hgraph, -⟩ := ofMethod_splitCall
  obtain ⟨pieces, hlifted, -, hmoves, -⟩ := ofMethod_results hgraph
  exact ⟨g, hgraph, pieces, hlifted, hmoves⟩

end FlowGraph
end DalvikDecompiler
