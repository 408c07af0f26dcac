import DalvikDecompiler.Proofs.FlowGraph.Linking
import DalvikDecompiler.Proofs.FlowGraph.References

/-!
# The edges that blocks ask for

**Input.** A method whose blocks are visited one after another.

Nodes get the numbers of their blocks in the order in which blocks are mentioned.  Blocks are
visited in this order as well, so that after some visits the nodes with smaller numbers have their
edges and their kind, and the others have no edges yet.

**Results.**
* `Adds`: what a visit does to the edges of a graph.
* `Drawn.step`: a visit gives the next node the edges and the kind of its block.
* `Drawn.visitAll`: when no block waits any more, this holds of all nodes.
-/

namespace DalvikDecompiler
namespace FlowGraph

open OrderedSet (insertAll ofList)
open Symbolic (LiftState)
open Bytecode (Block Method)

/-- A node of a graph gets edges behind those it has, and no node has changed its kind or got
places or notes. -/
structure Adds (g g' : FlowGraph) (node : NodeId) (targets handlers : List NodeId) : Prop where
  succs_eq : ∀ n, g'.succs n = if n = node then insertAll (g.succs n) targets else g.succs n
  handlerSuccs_eq : ∀ n, g'.handlerSuccs n =
    if n = node then insertAll (g.handlerSuccs n) handlers else g.handlerSuccs n
  kind_eq : ∀ n, (g'.node n).kind = (g.node n).kind
  locs_eq : ∀ n, (g'.node n).locs = (g.node n).locs
  notes_eq : ∀ n, (g'.node n).notes = (g.node n).notes

section Adding

variable {g g' g'' : FlowGraph} {node target n : NodeId} {targets handlers more : List NodeId}

theorem insertAll_append
    (xs ys zs : List NodeId) :
    insertAll xs (ys ++ zs) = insertAll (insertAll xs ys) zs :=
  List.foldl_append

theorem Adds.refl
    (g : FlowGraph)
    (node : NodeId) :
    Adds g g node [] [] :=
  ⟨fun _ => (ite_self _).symm, fun _ => (ite_self _).symm, fun _ => rfl, fun _ => rfl, fun _ => rfl⟩

theorem Adds.trans
    {handlers' : List NodeId}
    (h : Adds g g' node targets handlers)
    (h' : Adds g' g'' node more handlers') :
    Adds g g'' node (targets ++ more) (handlers ++ handlers') where
  succs_eq n := by
    rw [h'.succs_eq, h.succs_eq, insertAll_append]
    split <;> rfl
  handlerSuccs_eq n := by
    rw [h'.handlerSuccs_eq, h.handlerSuccs_eq, insertAll_append]
    split <;> rfl
  kind_eq n := (h'.kind_eq n).trans (h.kind_eq n)
  locs_eq n := (h'.locs_eq n).trans (h.locs_eq n)
  notes_eq n := (h'.notes_eq n).trans (h.notes_eq n)

/-- A plain node joins the graph: a slot that does not exist yet reads as one. -/
theorem adds_addNode
    (g : FlowGraph)
    {added : Node}
    (hkind : added.kind = .statement)
    (hlocs : added.locs = [])
    (hnotes : added.notes = [])
    (node : NodeId) :
    Adds g (g.addNode added).2 node [] [] := by
  have habsent : g.node g.size = .plain "" .statement := by
    unfold FlowGraph.node
    rw [Array.getElem?_eq_none (Nat.le_of_eq (show g.slots.size = g.size from rfl))]
    rfl
  refine ⟨fun n => ?_, fun n => ?_, fun n => ?_, fun n => ?_, fun n => ?_⟩
  · rw [succs_addNode]
    exact (ite_self _).symm
  · rw [handlerSuccs_addNode]
    exact (ite_self _).symm
  all_goals
    rw [node_addNode]
    split
  · next hnew => rw [hnew, habsent, hkind]; rfl
  · rfl
  · next hnew => rw [hnew, habsent, hlocs]; rfl
  · rfl
  · next hnew => rw [hnew, habsent, hnotes]; rfl
  · rfl

theorem Woven.adds_addEdge
    (h : g.Woven)
    (hsource : node < g.size)
    (hknown : target < g.size) :
    Adds g (g.addEdge node target) node [target] [] := by
  obtain ⟨-, hsame, hsuccs, handlerSuccs⟩ :=
    h.wired.addEdge (h.isLive node hsource) (h.isLive target hknown)
  exact ⟨hsuccs, fun n => (handlerSuccs n).trans (ite_self _).symm,
    fun n => congrArg Node.kind (hsame.node_eq n), fun n => congrArg Node.locs (hsame.node_eq n),
    fun n => congrArg Node.notes (hsame.node_eq n)⟩

/-- An exception edge is added, and its handler is marked. -/
theorem Woven.adds_addHandlerEdge
    (h : g.Woven)
    (hsource : node < g.size)
    (hknown : target < g.size)
    (type : Option String) :
    Adds g ((g.addHandlerEdge node target).modifyNode target (Construction.markHandler type)) node
      [] [target] := by
  obtain ⟨-, hsame, hsuccs, handlerSuccs⟩ := h.wired.addHandlerEdges (h.isLive node hsource)
    fun c (hmem : c ∈ [target]) => List.mem_singleton.1 hmem ▸ h.isLive target hknown
  have hthere : target < (g.addHandlerEdge node target).size := hsame.size_eq.symm ▸ hknown
  have hmarked (n : NodeId) := node_modifyNode _ n (Construction.markHandler type) hthere
  refine ⟨fun n => ?_, fun n => ?_, fun n => ?_, fun n => ?_, fun n => ?_⟩
  · rw [succs_modifyNode]
    exact (hsuccs n).trans (ite_self _).symm
  · rw [handlerSuccs_modifyNode]
    exact handlerSuccs n
  · refine Eq.trans ?_ (congrArg Node.kind (hsame.node_eq n))
    rw [hmarked]
    split <;> rfl
  · refine Eq.trans ?_ (congrArg Node.locs (hsame.node_eq n))
    rw [hmarked]
    split <;> rfl
  · refine Eq.trans ?_ (congrArg Node.notes (hsame.node_eq n))
    rw [hmarked]
    split <;> rfl

end Adding

namespace Construction

/-- A construction has gone on, and one node has got edges. -/
structure Extends (c c' : Construction) (node : NodeId) (targets handlers : List NodeId) : Prop
    extends Links c c', Adds c.graph c'.graph node targets handlers where
  lookup : ∀ index id, c.nodeOf.lookup index = some id → c'.nodeOf.lookup index = some id

/-- The nodes of some blocks, in order. -/
def NodesOf (c : Construction) (indices : List Nat) (nodes : List NodeId) : Prop :=
  List.Forall₂ (fun index id => c.nodeOf.lookup index = some id) indices nodes

section Steps

variable {m : Method} {c c' c'' : Construction} {index : Nat} {id node target : NodeId}
variable {block : Block} {targets handlers more handlers' : List NodeId}

theorem Linked.extends_refl
    (h : c.Linked)
    (node : NodeId) :
    Extends c c node [] [] :=
  ⟨h.links_refl, .refl c.graph node, fun _ _ hfound => hfound⟩

theorem Extends.trans
    (h : Extends c c' node targets handlers)
    (h' : Extends c' c'' node more handlers') :
    Extends c c'' node (targets ++ more) (handlers ++ handlers') :=
  ⟨h.toLinks.trans h'.toLinks, h.toAdds.trans h'.toAdds, fun index id hfound =>
    h'.lookup index id (h.lookup index id hfound)⟩

theorem NodesOf.extends
    {indices : List Nat}
    {nodes : List NodeId}
    (h : NodesOf c indices nodes)
    (hnext : Extends c c' node targets handlers) :
    NodesOf c' indices nodes :=
  h.imp fun _ _ hfound => hnext.lookup _ _ hfound

/-- The node of a block is known from now on. -/
theorem Linked.extends_nodeOfBlock
    (h : c.Linked)
    (hknown : index < m.blocks.length)
    (hrun : Construction.nodeOfBlock m index c = .ok id c')
    (node : NodeId) :
    Extends c c' node [] [] ∧ c'.nodeOf.lookup index = some id := by
  have hlinks := (h.nodeOfBlock hknown hrun).1
  unfold Construction.nodeOfBlock at hrun
  obtain ⟨c₁, c₂, hget, hrest⟩ := run_bind hrun
  cases hget
  cases hfound : c.nodeOf.lookup index with
  | some id' =>
      simp only [hfound] at hrest
      cases hrest
      exact ⟨h.extends_refl node, hfound⟩
  | none =>
      simp only [hfound, List.getElem?_eq_getElem hknown] at hrest
      obtain ⟨ins, c₃, hlifts, hnew⟩ := run_bind hrest
      have hstays := (run_liftAll hlifts).2
      cases hnew
      refine ⟨⟨hlinks, hstays.graph_eq ▸ adds_addNode c₃.graph rfl rfl rfl node,
        fun i id' hmem => ?_⟩, ?_⟩
      · rw [List.lookup_append, hstays.nodeOf_eq, hmem]
        rfl
      · rw [List.lookup_append, hstays.nodeOf_eq, hfound]
        simp

/-- The graph changes, and a block waits. -/
theorem Linked.extends_mention
    {f : FlowGraph → FlowGraph}
    {c₁ : Construction}
    (h : c.Linked)
    (hgrows : Grows c.graph (f c.graph))
    (hadds : Adds c.graph (f c.graph) node targets handlers)
    (hchanges : modifyGraph f c = .ok () c₁)
    (hwaits : enqueue index c₁ = .ok () c') :
    Extends c c' node targets handlers := by
  obtain ⟨hlinks, hgraph⟩ := h.mention hgrows hchanges hwaits
  refine ⟨hlinks, hgraph ▸ hadds, fun i id hfound => ?_⟩
  cases hchanges
  cases hwaits
  dsimp only
  split
  · exact hfound
  · exact hfound

/-- A node gets edges to the nodes of the children of its block. -/
theorem Linked.extends_linkChildren
    {children : List (UInt32 × UInt64)}
    {nodes : List NodeId}
    (h : c.Linked)
    (hknown : ∀ child ∈ children, child.2.toNat < m.blocks.length)
    (hthere : node < c.graph.size)
    (hrun : Construction.linkChildren m node children c = .ok nodes c') :
    Extends c c' node nodes [] ∧ NodesOf c' (children.map fun child => child.2.toNat) nodes := by
  induction children generalizing c nodes with
  | nil =>
      cases hrun
      exact ⟨h.extends_refl node, .nil⟩
  | cons child children ih =>
      obtain ⟨hfirst, hothers⟩ := List.forall_mem_cons.1 hknown
      rw [Construction.linkChildren] at hrun
      obtain ⟨target, c₁, hmade, hrest⟩ := run_bind hrun
      obtain ⟨⟨⟩, c₂, hchanges, hrest⟩ := run_bind hrest
      obtain ⟨⟨⟩, c₃, hwaits, hrest⟩ := run_bind hrest
      obtain ⟨more, c₄, hlinks, hlast⟩ := run_bind hrest
      cases hlast
      obtain ⟨hmade', hfound⟩ := h.extends_nodeOfBlock hfirst hmade node
      have hthere' := (h.nodeOfBlock hfirst hmade).2
      have hwoven := hmade'.linked.woven
      have hsource := hthere.trans_le hmade'.grows.size_le
      have hlinked := hmade'.linked.extends_mention (hwoven.addEdge hsource hthere').1
        (hwoven.adds_addEdge hsource hthere') hchanges hwaits
      obtain ⟨hothers', hnodes'⟩ :=
        ih hlinked.linked hothers (hsource.trans_le hlinked.grows.size_le) hlinks
      have hall := hlinked.trans hothers'
      exact ⟨hmade'.trans hall, .cons (hall.lookup _ _ hfound) hnodes'⟩

/-- A node gets exception edges to the nodes of handlers. -/
theorem Linked.extends_linkHandlers
    {protectors : List Bytecode.Handler}
    (h : c.Linked)
    (hknown : ∀ handler ∈ protectors, handler.block.toNat < m.blocks.length)
    (hthere : node < c.graph.size)
    (hrun : Construction.linkHandlers m node protectors c = .ok () c') :
    ∃ nodes, Extends c c' node [] nodes ∧
      NodesOf c' (protectors.map fun handler => handler.block.toNat) nodes := by
  induction protectors generalizing c with
  | nil =>
      cases hrun
      exact ⟨[], h.extends_refl node, .nil⟩
  | cons handler protectors ih =>
      obtain ⟨hfirst, hothers⟩ := List.forall_mem_cons.1 hknown
      rw [Construction.linkHandlers] at hrun
      obtain ⟨target, c₁, hmade, hrest⟩ := run_bind hrun
      obtain ⟨⟨⟩, c₂, hchanges, hrest⟩ := run_bind hrest
      obtain ⟨⟨⟩, c₃, hwaits, hlinks⟩ := run_bind hrest
      obtain ⟨hmade', hfound⟩ := h.extends_nodeOfBlock hfirst hmade node
      have hthere' := (h.nodeOfBlock hfirst hmade).2
      have hwoven := hmade'.linked.woven
      have hsource := hthere.trans_le hmade'.grows.size_le
      have hedge := hwoven.addHandlerEdge hsource hthere'
      have hgrows := hedge.trans (hedge.woven.retouch (retouches_modifyNode target SameKind.refl
        (f := markHandler handler.exceptionType) fun _ => rfl))
      have hlinked := hmade'.linked.extends_mention hgrows
        (hwoven.adds_addHandlerEdge hsource hthere' handler.exceptionType) hchanges hwaits
      obtain ⟨nodes, hothers', hnodes'⟩ :=
        ih hlinked.linked hothers (hsource.trans_le hlinked.grows.size_le) hlinks
      have hall := hlinked.trans hothers'
      exact ⟨target :: nodes, hmade'.trans hall, .cons (hall.lookup _ _ hfound) hnodes'⟩

/-- A node has the edges and the kind of its block. -/
structure IsOf (m : Method) (c : Construction) (node : NodeId) (block : Block) : Prop where
  edges : ∃ children handlers,
    NodesOf c (block.children.map fun child => child.2.toNat) children ∧
    NodesOf c ((m.exceptions.handlersFor block.start).map fun handler => handler.block.toNat)
      handlers ∧
    c.graph.succs node = ofList children ∧ c.graph.handlerSuccs node = ofList handlers ∧
    kindOf m block children = .ok (c.graph.node node).kind

/-- What a visit does: the node of its block gets edges and a kind, and other nodes stay as they
are. -/
structure Visits (m : Method) (c c' : Construction) (node : NodeId) (block : Block) : Prop where
  lookup : ∀ index id, c.nodeOf.lookup index = some id → c'.nodeOf.lookup index = some id
  succs_eq : ∀ n, n ≠ node → c'.graph.succs n = c.graph.succs n
  handlerSuccs_eq : ∀ n, n ≠ node → c'.graph.handlerSuccs n = c.graph.handlerSuccs n
  kind_eq : ∀ n, n ≠ node → (c'.graph.node n).kind = (c.graph.node n).kind
  locs_eq : ∀ n, (c'.graph.node n).locs = (c.graph.node n).locs
  notes_eq : ∀ n, (c'.graph.node n).notes = (c.graph.node n).notes
  isOf : c.graph.succs node = [] → c.graph.handlerSuccs node = [] → IsOf m c' node block

theorem Linked.visits
    (h : c.Linked)
    (hinRange : InRange m)
    (hfound : m.blocks[index]? = some block)
    (hrun : Construction.visit m index block c = .ok () c') :
    ∃ node, c'.nodeOf.lookup index = some node ∧ Visits m c c' node block := by
  obtain ⟨hknown, rfl⟩ := List.getElem?_eq_some_iff.1 hfound
  obtain ⟨hchildren_lt, handlers_lt⟩ := hinRange _ (List.getElem_mem hknown)
  unfold Construction.visit at hrun
  obtain ⟨node, c₁, hmade, hrest⟩ := run_bind hrun
  obtain ⟨children, c₂, hlinks, hrest⟩ := run_bind hrest
  obtain ⟨⟨⟩, c₃, hlinks', hrest⟩ := run_bind hrest
  obtain ⟨hmade', hthere⟩ := h.extends_nodeOfBlock hknown hmade node
  have hsource := (h.nodeOfBlock hknown hmade).2
  obtain ⟨hfirst, hchildNodes⟩ := hmade'.linked.extends_linkChildren hchildren_lt hsource hlinks
  have hsource := hsource.trans_le hfirst.grows.size_le
  obtain ⟨handlers, hsecond, handlerNodes⟩ :=
    hfirst.linked.extends_linkHandlers handlers_lt hsource hlinks'
  have hsource := hsource.trans_le hsecond.grows.size_le
  have hchildNodes := hchildNodes.extends hsecond
  have hboth := hfirst.trans hsecond
  have hall := hmade'.trans hboth
  simp only [List.nil_append, List.append_nil] at hall
  cases hkind : kindOf m m.blocks[index] children with
  | error error =>
      simp only [hkind] at hrest
      cases hrest
  | ok kind' =>
      simp only [hkind] at hrest
      cases hrest
      have hchanged (n : NodeId) :=
        node_modifyNode c₃.graph n (fun n => { n with kind := kind' }) hsource
      refine ⟨node, hboth.lookup _ _ hthere, hall.lookup, fun n hother => ?_, fun n hother => ?_,
        fun n hother => ?_, fun n => ?_, fun n => ?_,
        fun hnoSuccs hnoHandlers => ⟨children, handlers, ?_⟩⟩
      · exact (succs_modifyNode ..).trans ((hall.succs_eq n).trans (if_neg hother))
      · exact (handlerSuccs_modifyNode ..).trans ((hall.handlerSuccs_eq n).trans (if_neg hother))
      · refine Eq.trans ?_ (hall.kind_eq n)
        rw [hchanged, if_neg hother]
      · refine Eq.trans ?_ (hall.locs_eq n)
        rw [hchanged]
        split <;> rfl
      · refine Eq.trans ?_ (hall.notes_eq n)
        rw [hchanged]
        split <;> rfl
      · refine ⟨hchildNodes, handlerNodes, ?_, ?_, ?_⟩
        · refine (succs_modifyNode ..).trans ((hall.succs_eq node).trans ?_)
          rw [if_pos rfl, hnoSuccs]
          rfl
        · refine (handlerSuccs_modifyNode ..).trans ((hall.handlerSuccs_eq node).trans ?_)
          rw [if_pos rfl, hnoHandlers]
          rfl
        · rw [hkind, hchanged, if_pos rfl]

/-- A visit of another block leaves the edges and the kind of a node as they are. -/
theorem IsOf.visits
    {n : NodeId}
    {other : Block}
    (h : IsOf m c n other)
    (hvisit : Visits m c c' node block)
    (hapart : n ≠ node) :
    IsOf m c' n other := by
  obtain ⟨children, handlers, hchildNodes, handlerNodes, hsuccs, handlerSuccs, hkind⟩ := h.edges
  refine ⟨children, handlers, hchildNodes.imp fun _ _ hfound => hvisit.lookup _ _ hfound,
    handlerNodes.imp fun _ _ hfound => hvisit.lookup _ _ hfound, ?_, ?_, ?_⟩
  · rw [hvisit.succs_eq n hapart, hsuccs]
  · rw [hvisit.handlerSuccs_eq n hapart, handlerSuccs]
  · rw [hvisit.kind_eq n hapart, hkind]

end Steps

section Runs

variable {m : Method} {l : LiftState} {pieces : List Piece} {c c' : Construction}
variable {visits index n : Nat} {id : NodeId} {block : Block}

/-- Blocks get numbers in the order in which they are mentioned. -/
theorem Records.block_of_lookup
    (h : Records m l pieces c)
    (hfound : c.nodeOf.lookup index = some id) :
    (pieces.map Piece.block)[id]? = some index := by
  obtain ⟨before, after, hnodeOf, -⟩ := List.lookup_eq_some_iff.1 hfound
  have hmem : (index, id) ∈ c.nodeOf := by simp [hnodeOf]
  rw [h.nodeOf_eq] at hmem
  exact List.mk_mem_zipIdx_iff_getElem?.1 hmem

theorem prefix_insertAll
    (xs ys : List Nat) :
    xs <+: insertAll xs ys := by
  induction ys generalizing xs with
  | nil => exact List.prefix_refl xs
  | cons y ys ih =>
      refine List.IsPrefix.trans ?_ (ih (OrderedSet.insert xs y))
      unfold OrderedSet.insert
      split
      · exact List.prefix_refl xs
      · exact List.prefix_append xs [y]

theorem mentioned_prefix
    (m : Method)
    (visits : Nat) :
    mentioned m visits <+: mentioned m (visits + 1) := by
  rw [mentioned]
  split
  · exact prefix_insertAll _ _
  · exact List.prefix_refl _

/-- What holds after some visits: the nodes with smaller numbers are those of their blocks, the
others have no edges, and nothing has got places or notes. -/
structure Drawn (m : Method) (l : LiftState) (visits : Nat) (c : Construction) : Prop extends
    Visited m l visits c, Linked c where
  isOf : ∀ n index block, n < visits → (mentioned m visits)[n]? = some index →
    m.blocks[index]? = some block → IsOf m c n block
  bare : ∀ n, visits ≤ n → c.graph.succs n = [] ∧ c.graph.handlerSuccs n = []
  locs_eq : ∀ n, (c.graph.node n).locs = []
  notes_eq : ∀ n, (c.graph.node n).notes = []

theorem drawn_start
    (m : Method)
    (vars : Symbolic.Variables)
    (events : EventLog) :
    Drawn m { vars, pending := none } 0 (.start vars events) where
  records := ⟨[], ⟨rfl, rfl, .nil _, by simp, fun _ => rfl⟩, rfl⟩
  seen_eq := rfl
  queue_eq := rfl
  woven := woven_empty
  nodeOf_lt := nofun
  isOf _ _ _ hlt := absurd hlt (Nat.not_lt_zero _)
  bare _ _ := ⟨rfl, rfl⟩
  locs_eq _ := rfl
  notes_eq _ := rfl

/-- **A visit gives the next node the edges and the kind of its block.** -/
theorem Drawn.step
    {waiting : List Nat}
    (h : Drawn m l visits c)
    (hinRange : InRange m)
    (hqueue : c.queue = index :: waiting)
    (hfound : m.blocks[index]? = some block)
    (hrun : Construction.visit m index block { c with queue := waiting } = .ok () c') :
    Drawn m l (visits + 1) c' := by
  have hlinked : Linked { c with queue := waiting } := ⟨h.woven, h.nodeOf_lt⟩
  have hvisited := h.toVisited.step hinRange hqueue hfound hrun
  obtain ⟨node, hthere, hvisit⟩ := hlinked.visits hinRange hfound hrun
  obtain ⟨pieces, hrecords, hblocks⟩ := hvisited.records
  rw [if_neg (Nat.succ_ne_zero visits)] at hblocks
  have hnext : (mentioned m visits)[visits]? = some index := by
    rw [← List.head?_drop, ← h.queue_eq, hqueue, List.head?_cons]
  have hsame (n : Nat) (hlt : n < visits + 1) :
      (mentioned m (visits + 1))[n]? = (mentioned m visits)[n]? := by
    obtain ⟨more, heq⟩ := mentioned_prefix m visits
    rw [← heq, List.getElem?_append_left]
    exact (Nat.le_of_lt_succ hlt).trans_lt (List.getElem?_eq_some_iff.1 hnext).1
  -- The block at hand has been mentioned once, so that its node is the next one.
  have hnode_eq : node = visits := by
    have hfirst := hrecords.block_of_lookup hthere
    rw [hblocks] at hfirst
    exact (List.getElem?_inj (List.getElem?_eq_some_iff.1 hfirst).1
      (nodup_mentioned (visits + 1))).1
      (hfirst.trans ((hsame visits (Nat.lt_succ_self _)).trans hnext).symm)
  subst hnode_eq
  refine ⟨hvisited, (hlinked.visitNext hinRange hfound hrun).1.linked,
    fun n i b hlt hmem hknown => ?_,
    fun n hle => ?_, fun n => (hvisit.locs_eq n).trans (h.locs_eq n),
    fun n => (hvisit.notes_eq n).trans (h.notes_eq n)⟩
  · rw [hsame n hlt] at hmem
    rcases Nat.lt_succ_iff_lt_or_eq.1 hlt with hlt | rfl
    · have hbefore : IsOf m { c with queue := waiting } n b :=
        ⟨(h.isOf n i b hlt hmem hknown).edges⟩
      exact hbefore.visits hvisit (Nat.ne_of_lt hlt)
    · obtain rfl := Option.some.inj (hmem.symm.trans hnext)
      obtain rfl := Option.some.inj (hknown.symm.trans hfound)
      exact hvisit.isOf (h.bare n le_rfl).1 (h.bare n le_rfl).2
  · have hapart : n ≠ node := Nat.ne_of_gt hle
    rw [hvisit.succs_eq n hapart, hvisit.handlerSuccs_eq n hapart]
    exact h.bare n (Nat.le_of_succ_le hle)

/-- There are no more mentioned blocks than blocks. -/
theorem Visited.length_le
    (h : Visited m l visits c)
    (hvisited : 0 < visits) :
    (mentioned m visits).length ≤ m.blocks.length := by
  obtain ⟨pieces, hrecords, hblocks⟩ := h.records
  rw [if_neg (Nat.ne_of_gt hvisited)] at hblocks
  have hknown : mentioned m visits ⊆ List.range m.blocks.length := fun index hmem => by
    rw [← hblocks] at hmem
    obtain ⟨piece, hthere, rfl⟩ := List.mem_map.1 hmem
    obtain ⟨block, hfound, -⟩ := hrecords.of_method piece hthere
    exact List.mem_range.2 (List.getElem?_eq_some_iff.1 hfound).1
  simpa using (List.subperm_of_subset (nodup_mentioned visits) hknown).length_le

/-- **When all visits have been made, every node is that of its block.** -/
theorem Drawn.visitAll
    {steps : Nat}
    (h : Drawn m l visits c)
    (hinRange : InRange m)
    (hsome_block : 0 < m.blocks.length)
    (hrun : Construction.visitAll m steps c = .ok () c')
    (henough : m.blocks.length < visits + steps) :
    ∃ visits', Drawn m l visits' c' ∧ (mentioned m visits').length ≤ visits' ∧ 0 < visits' := by
  induction steps generalizing visits c with
  | zero =>
      cases hrun
      have hvisited : 0 < visits := Nat.zero_lt_of_lt henough
      exact ⟨visits, h, (h.length_le hvisited).trans (Nat.le_of_lt henough), hvisited⟩
  | succ steps ih =>
      rw [Construction.visitAll] at hrun
      obtain ⟨c₁, c₂, hget, hrest⟩ := run_bind hrun
      cases hget
      cases hqueue : c.queue with
      | nil =>
          simp only [hqueue] at hrest
          cases hrest
          have hall : (mentioned m visits).length ≤ visits :=
            List.drop_eq_nil_iff.1 (h.queue_eq.symm.trans hqueue)
          refine ⟨visits, h, hall, Nat.pos_of_ne_zero ?_⟩
          rintro rfl
          exact absurd hall (Nat.not_succ_le_zero 0)
      | cons index waiting =>
          obtain ⟨block, hfound⟩ := h.toVisited.exists_block hsome_block hqueue
          simp only [hqueue, hfound] at hrest
          obtain ⟨⟨⟩, c₂, hset, hrest⟩ := run_bind hrest
          cases hset
          obtain ⟨⟨⟩, c₃, hvisit, hrest⟩ := run_bind hrest
          exact ih (h.step hinRange hqueue hfound hvisit) hrest
            (Nat.add_right_comm visits 1 steps ▸ henough)

end Runs

end Construction

end FlowGraph
end DalvikDecompiler
