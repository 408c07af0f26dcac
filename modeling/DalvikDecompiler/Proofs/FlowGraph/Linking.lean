import DalvikDecompiler.Proofs.FlowGraph.LiftingOrder
import DalvikDecompiler.Proofs.FlowGraph.Ordinary

/-!
# How blocks are linked

**Input.** A method whose blocks are visited one after another.

A visit connects the node of a block with the nodes of its children, and then lets it branch to some
of these.  Later visits add nodes and edges and take none away.

**Results.**
* `Linked.visitAll`: the graph of a construction is guided, and only grows.
* `ofMethod_ordinary`: the graph of every method is ordinary.
-/

namespace DalvikDecompiler
namespace FlowGraph

open Symbolic (Variables)
open Bytecode (Block Method)

/-- A graph of nodes that are all there, with the targets of branches among the successors. -/
structure Woven (g : FlowGraph) : Prop extends Guided g where
  isLive : ∀ n < g.size, g.isLive n = true
  outside : ∀ n, (g.node n).kind.entered? = none

/-- A graph has grown: edges between nodes of it are still there. -/
structure Grows (g g' : FlowGraph) : Prop where
  woven : g'.Woven
  size_le : g.size ≤ g'.size
  succs_subset : ∀ n, g.succs n ⊆ g'.succs n

section Growing

variable {g g' g'' : FlowGraph} {a b id : NodeId}

theorem Woven.grows_refl
    (h : g.Woven) :
    Grows g g :=
  ⟨h, le_rfl, fun _ => List.Subset.refl _⟩

theorem Grows.trans
    (h : Grows g g')
    (h' : Grows g' g'') :
    Grows g g'' :=
  ⟨h'.woven, h.size_le.trans h'.size_le, fun n =>
    List.Subset.trans (h.succs_subset n) (h'.succs_subset n)⟩

theorem Woven.ordinary
    (h : g.Woven)
    {entry : NodeId}
    (hknown : entry < g.size) :
    Ordinary { g with entry } where
  wired := ⟨h.wired.normal, h.wired.exceptional, h.wired.live⟩
  mem_succs := h.mem_succs
  entry_live := h.isLive entry hknown
  outside n _ := h.outside n

theorem woven_empty :
    empty.Woven where
  wired := by decide
  mem_succs n b hlive := absurd (lt_size_of_isLive hlive) (Nat.not_lt_zero n)
  isLive n hlt := absurd hlt (Nat.not_lt_zero n)
  outside n := rfl

/-- A node without branches joins the graph. -/
theorem Woven.addNode
    (h : g.Woven)
    {added : Node}
    (hkind : added.kind = .statement) :
    Grows g (g.addNode added).2 := by
  refine ⟨⟨⟨h.wired.addNode added, fun n b hlive htargets holds => ?_⟩, fun n hlt =>
    ?_, fun n => ?_⟩,
    by simp, fun n => by simp⟩
  · rw [node_addNode] at htargets
    split at htargets
    · rw [hkind] at htargets
      cases htargets
    · next hother =>
        rw [isLive_addNode, beq_eq_false_iff_ne.2 hother, Bool.false_or] at hlive
        rw [succs_addNode]
        exact h.mem_succs n b hlive htargets holds
  · rw [isLive_addNode]
    rw [size_addNode] at hlt
    rcases Nat.lt_succ_iff_lt_or_eq.1 hlt with hlt | rfl
    · rw [h.isLive n hlt, Bool.or_true]
    · simp
  · rw [node_addNode]
    split
    · rw [hkind]
      rfl
    · exact h.outside n

/-- Edges are added between nodes that stay as they are. -/
theorem Woven.grows
    (h : g.Woven)
    (hwired : g'.Wired)
    (hsame : SameNodes g g')
    (hmore : ∀ n, g.succs n ⊆ g'.succs n) :
    Grows g g' where
  woven :=
    { wired := hwired
      mem_succs := fun n b hlive htargets holds => by
        rw [hsame.isLive_eq] at hlive
        rw [hsame.node_eq] at htargets
        exact hmore n (h.mem_succs n b hlive htargets holds)
      isLive := fun n hlt => by
        rw [hsame.isLive_eq]
        exact h.isLive n (hsame.size_eq ▸ hlt)
      outside := fun n => by
        rw [hsame.node_eq]
        exact h.outside n }
  size_le := hsame.size_eq.ge
  succs_subset := hmore

theorem Woven.addEdge
    (h : g.Woven)
    (ha : a < g.size)
    (hb : b < g.size) :
    Grows g (g.addEdge a b) ∧ b ∈ (g.addEdge a b).succs a := by
  obtain ⟨hwired, hsame, hsuccs, -⟩ := h.wired.addEdge (h.isLive a ha) (h.isLive b hb)
  refine ⟨h.grows hwired hsame fun n => ?_, ?_⟩
  · rw [hsuccs]
    split
    · exact fun m hmem => OrderedSet.mem_insert.2 (.inl hmem)
    · exact List.Subset.refl _
  · rw [hsuccs, if_pos rfl]
    exact OrderedSet.mem_insert.2 (.inr rfl)

theorem Woven.addHandlerEdge
    (h : g.Woven)
    (ha : a < g.size)
    (hb : b < g.size) :
    Grows g (g.addHandlerEdge a b) := by
  obtain ⟨hwired, hsame, hsuccs, -⟩ := h.wired.addHandlerEdges (h.isLive a ha)
    fun c (hmem : c ∈ [b]) => List.mem_singleton.1 hmem ▸ h.isLive b hb
  exact h.grows hwired hsame fun n => (hsuccs n).symm ▸ List.Subset.refl _

theorem Woven.retouch
    (h : g.Woven)
    (htouch : Retouches SameKind g g') :
    Grows g g' where
  woven :=
    { toGuided := h.toGuided.retouch (htouch.mono fun _ _ hsame => congrArg NodeKind.targets? hsame)
      isLive := fun n hlt => (htouch.isLive_eq n).trans (h.isLive n (htouch.size_eq ▸ hlt))
      outside := fun n => by
        rw [htouch.kept n]
        exact h.outside n }
  size_le := htouch.size_eq.ge
  succs_subset n := htouch.succs_eq n ▸ List.Subset.refl _

/-- A node ends in another way, and its targets are among its successors. -/
theorem Woven.setKind
    (h : g.Woven)
    (hknown : id < g.size)
    {kind : NodeKind}
    (htargets : ∀ b, kind.targets? = some b → ∀ holds, b.toward holds ∈ g.succs id)
    (houtside : kind.entered? = none) :
    Grows g (g.modifyNode id fun n => { n with kind }) := by
  have hnode (n : NodeId) := node_modifyNode g n (fun n => { n with kind }) hknown
  refine ⟨⟨⟨h.wired.modifyNode id _, fun n b hlive hfound holds => ?_⟩, fun n hlt =>
    ?_, fun n => ?_⟩,
    by simp, fun n => by simp⟩
  · rw [hnode] at hfound
    rw [isLive_modifyNode] at hlive
    rw [succs_modifyNode]
    split at hfound
    · next here => exact here ▸ htargets b hfound holds
    · exact h.mem_succs n b hlive hfound holds
  · rw [isLive_modifyNode]
    exact h.isLive n (by simpa using hlt)
  · rw [hnode]
    split
    · exact houtside
    · exact h.outside n

end Growing

namespace Construction

/-- The nodes of a construction are linked, and each block that has been mentioned has one. -/
structure Linked (c : Construction) : Prop where
  woven : c.graph.Woven
  nodeOf_lt : ∀ index id, c.nodeOf.lookup index = some id → id < c.graph.size

/-- A construction has gone on from a linked one to another one. -/
structure Links (c c' : Construction) : Prop where
  linked : c'.Linked
  grows : Grows c.graph c'.graph

section Steps

variable {m : Method} {c c' c'' : Construction} {index : Nat} {id node : NodeId} {block : Block}

theorem Linked.links_refl
    (h : c.Linked) :
    Links c c :=
  ⟨h, h.woven.grows_refl⟩

theorem Links.trans
    (h : Links c c')
    (h' : Links c' c'') :
    Links c c'' :=
  ⟨h'.linked, h.grows.trans h'.grows⟩

/-- The graph grows, and a block waits. -/
theorem Linked.mention
    {f : FlowGraph → FlowGraph}
    {c₁ : Construction}
    (h : c.Linked)
    (hgrows : Grows c.graph (f c.graph))
    (hchanges : modifyGraph f c = .ok () c₁)
    (hwaits : enqueue index c₁ = .ok () c') :
    Links c c' ∧ c'.graph = f c.graph := by
  cases hchanges
  cases hwaits
  have hlinked : Linked { c with graph := f c.graph } :=
    ⟨hgrows.woven, fun i id hfound => (h.nodeOf_lt i id hfound).trans_le hgrows.size_le⟩
  dsimp only
  split
  · exact ⟨⟨hlinked, hgrows⟩, rfl⟩
  · exact ⟨⟨⟨hlinked.woven, hlinked.nodeOf_lt⟩, hgrows⟩, rfl⟩

theorem Linked.stays
    (h : c.Linked)
    (hstays : Stays c c') :
    Links c c' := by
  refine ⟨⟨?_, ?_⟩, ?_⟩
  · rw [hstays.graph_eq]
    exact h.woven
  · rw [hstays.graph_eq, hstays.nodeOf_eq]
    exact h.nodeOf_lt
  · rw [hstays.graph_eq]
    exact h.woven.grows_refl

/-- The node of a block is part of the graph. -/
theorem Linked.nodeOfBlock
    (h : c.Linked)
    (hknown : index < m.blocks.length)
    (hrun : nodeOfBlock m index c = .ok id c') :
    Links c c' ∧ id < c'.graph.size := by
  unfold Construction.nodeOfBlock at hrun
  obtain ⟨c₁, c₂, hget, hrest⟩ := run_bind hrun
  cases hget
  cases hfound : c.nodeOf.lookup index with
  | some id' =>
      simp only [hfound] at hrest
      cases hrest
      exact ⟨h.links_refl, h.nodeOf_lt index id hfound⟩
  | none =>
      simp only [hfound, List.getElem?_eq_getElem hknown] at hrest
      obtain ⟨ins, c₃, hlifts, hnew⟩ := run_bind hrest
      have hlinked := h.stays (run_liftAll hlifts).2
      cases hnew
      have hgrows : Grows c₃.graph (c₃.graph.addNode
          { Node.plain m.blocks[index].name .statement with
            start := m.blocks[index].start
            ins }).2 :=
        hlinked.linked.woven.addNode rfl
      have hsize_lt := hgrows.size_le
      refine ⟨hlinked.trans ⟨⟨hgrows.woven, fun i id' hmem => ?_⟩, hgrows⟩, by simp⟩
      rw [size_addNode]
      rw [List.lookup_append, Option.or_eq_some_iff] at hmem
      rcases hmem with hmem | ⟨-, hmem⟩
      · exact (hlinked.linked.nodeOf_lt i id' hmem).trans (Nat.lt_succ_self _)
      · rw [List.lookup_cons] at hmem
        split at hmem
        · cases hmem
          exact Nat.lt_succ_self _
        · cases hmem

theorem Linked.linkChildren
    {children : List (UInt32 × UInt64)}
    {nodes : List NodeId}
    (h : c.Linked)
    (hknown : ∀ child ∈ children, child.2.toNat < m.blocks.length)
    (hthere : node < c.graph.size)
    (hrun : linkChildren m node children c = .ok nodes c') :
    Links c c' ∧ nodes ⊆ c'.graph.succs node := by
  induction children generalizing c nodes with
  | nil =>
      cases hrun
      exact ⟨h.links_refl, List.nil_subset _⟩
  | cons child children ih =>
      obtain ⟨hfirst, hothers⟩ := List.forall_mem_cons.1 hknown
      rw [Construction.linkChildren] at hrun
      obtain ⟨target, c₁, hmade, hrest⟩ := run_bind hrun
      obtain ⟨⟨⟩, c₂, hchanges, hrest⟩ := run_bind hrest
      obtain ⟨⟨⟩, c₃, hwaits, hrest⟩ := run_bind hrest
      obtain ⟨more, c₄, hlinks, hlast⟩ := run_bind hrest
      cases hlast
      obtain ⟨hlinks₁, hthere'⟩ := h.nodeOfBlock hfirst hmade
      obtain ⟨hgrows, hmem⟩ :=
        hlinks₁.linked.woven.addEdge (hthere.trans_le hlinks₁.grows.size_le) hthere'
      obtain ⟨hlinks₂, hgraph⟩ := hlinks₁.linked.mention hgrows hchanges hwaits
      have hlinks₂ := hlinks₁.trans hlinks₂
      obtain ⟨hlinks₃, hall⟩ :=
        ih hlinks₂.linked hothers (hthere.trans_le hlinks₂.grows.size_le) hlinks
      exact ⟨hlinks₂.trans hlinks₃,
        List.cons_subset.2 ⟨hlinks₃.grows.succs_subset node (hgraph ▸ hmem), hall⟩⟩

theorem Linked.linkHandlers
    {handlers : List Bytecode.Handler}
    (h : c.Linked)
    (hknown : ∀ handler ∈ handlers, handler.block.toNat < m.blocks.length)
    (hthere : node < c.graph.size)
    (hrun : linkHandlers m node handlers c = .ok () c') :
    Links c c' := by
  induction handlers generalizing c with
  | nil =>
      cases hrun
      exact h.links_refl
  | cons handler handlers ih =>
      obtain ⟨hfirst, hothers⟩ := List.forall_mem_cons.1 hknown
      rw [Construction.linkHandlers] at hrun
      obtain ⟨target, c₁, hmade, hrest⟩ := run_bind hrun
      obtain ⟨⟨⟩, c₂, hchanges, hrest⟩ := run_bind hrest
      obtain ⟨⟨⟩, c₃, hwaits, hlinks⟩ := run_bind hrest
      obtain ⟨hlinks₁, hthere'⟩ := h.nodeOfBlock hfirst hmade
      have hedge := hlinks₁.linked.woven.addHandlerEdge
        (hthere.trans_le hlinks₁.grows.size_le) hthere'
      have hgrows := hedge.trans (hedge.woven.retouch (retouches_modifyNode target SameKind.refl
        (f := markHandler handler.exceptionType) fun _ => rfl))
      obtain ⟨hlinks₂, -⟩ := hlinks₁.linked.mention hgrows hchanges hwaits
      have hlinks₂ := hlinks₁.trans hlinks₂
      exact hlinks₂.trans (ih hlinks₂.linked hothers (hthere.trans_le hlinks₂.grows.size_le) hlinks)

theorem mem_of_branchesOf
    {children : List NodeId}
    {b : NodeId}
    (hfound : (branchesOf m block children).1 = some b ∨ (branchesOf m block children).2 = some b) :
    b ∈ children := by
  have hlast {mark : (UInt32 × UInt64) × NodeId → Bool × NodeId} (hsame : ∀ x, (mark x).2 = x.2)
      {taken : Bool} (hfound : ((((block.children.zip children).map mark).filter
        fun entry => entry.1 == taken).getLast?.map (·.2)) = some b) : b ∈ children := by
    obtain ⟨entry, here, rfl⟩ := Option.map_eq_some_iff.1 hfound
    obtain ⟨x, hmem, rfl⟩ := List.mem_map.1 (List.mem_filter.1 (List.mem_of_getLast? here)).1
    exact hsame x ▸ (List.of_mem_zip hmem).2
  unfold branchesOf at hfound
  rcases hfound with hfound | hfound
  · exact hlast (fun _ => rfl) hfound
  · exact hlast (fun _ => rfl) hfound

/-- The ways in which nodes of blocks end. -/
theorem ends_of_kindOf
    {children : List NodeId}
    {kind : NodeKind}
    (hfound : kindOf m block children = .ok kind) :
    (kind = .ret ∨ kind = .throw ∨ kind = .statement) ∨ (∃ b, kind = .conditional b) ∨
      ∃ keys, kind = .switch (.unordered keys children) := by
  unfold kindOf at hfound
  dsimp only at hfound
  split at hfound
  · cases hfound
    exact .inl (.inl rfl)
  split at hfound
  · cases hfound
    exact .inl (.inr (.inl rfl))
  split at hfound
  · cases hfound
    exact .inr (.inr ⟨_, rfl⟩)
  split at hfound
  · split at hfound <;> cases hfound <;> exact .inr (.inl ⟨_, rfl⟩)
  · cases hfound
    exact .inl (.inr (.inr rfl))

/-- A branch goes to children of its block. -/
theorem toward_mem_of_kindOf
    {children : List NodeId}
    {kind : NodeKind}
    (hfound : kindOf m block children = .ok kind) :
    kind.entered? = none ∧ ∀ b, kind.targets? = some b → ∀ holds, b.toward holds ∈ children := by
  unfold kindOf at hfound
  dsimp only at hfound
  split at hfound
  · cases hfound
    exact ⟨rfl, nofun⟩
  split at hfound
  · cases hfound
    exact ⟨rfl, nofun⟩
  split at hfound
  · cases hfound
    exact ⟨rfl, nofun⟩
  split at hfound
  · split at hfound
    · next onTrue onFalse hboth =>
        cases hfound
        refine ⟨rfl, fun b htargets holds => ?_⟩
        cases htargets
        cases holds
        · exact mem_of_branchesOf (.inr (congrArg Prod.snd hboth))
        · exact mem_of_branchesOf (.inl (congrArg Prod.fst hboth))
    · next target honly =>
        cases hfound
        refine ⟨rfl, fun b htargets holds => ?_⟩
        cases htargets
        have hmem := mem_of_branchesOf (.inl (congrArg Prod.fst honly))
        cases holds <;> exact hmem
    · next target honly =>
        cases hfound
        refine ⟨rfl, fun b htargets holds => ?_⟩
        cases htargets
        have hmem := mem_of_branchesOf (.inr (congrArg Prod.snd honly))
        cases holds <;> exact hmem
    · cases hfound
  · cases hfound
    exact ⟨rfl, nofun⟩

theorem Linked.visit
    (h : c.Linked)
    (hinRange : InRange m)
    (hfound : m.blocks[index]? = some block)
    (hrun : visit m index block c = .ok () c') :
    Links c c' ∧ 0 < c'.graph.size := by
  obtain ⟨hknown, rfl⟩ := List.getElem?_eq_some_iff.1 hfound
  obtain ⟨hchildren_lt, handlers_lt⟩ := hinRange _ (List.getElem_mem hknown)
  unfold Construction.visit at hrun
  obtain ⟨node, c₁, hmade, hrest⟩ := run_bind hrun
  obtain ⟨children, c₂, hlinks, hrest⟩ := run_bind hrest
  obtain ⟨⟨⟩, c₃, hlinks', hrest⟩ := run_bind hrest
  obtain ⟨hlinks₁, hthere⟩ := h.nodeOfBlock hknown hmade
  obtain ⟨hlinks₂, hall⟩ := hlinks₁.linked.linkChildren hchildren_lt hthere hlinks
  have hthere := hthere.trans_le hlinks₂.grows.size_le
  have hlinks₃ := hlinks₂.linked.linkHandlers handlers_lt hthere hlinks'
  have hthere := hthere.trans_le hlinks₃.grows.size_le
  cases hkind : kindOf m m.blocks[index] children with
  | error error =>
      simp only [hkind] at hrest
      cases hrest
  | ok kind' =>
      simp only [hkind] at hrest
      cases hrest
      obtain ⟨houtside, htargets⟩ := toward_mem_of_kindOf hkind
      have hgrows := hlinks₃.linked.woven.setKind hthere
        (fun b hfound holds => hlinks₃.grows.succs_subset node (hall (htargets b hfound holds)))
          houtside
      have hlast : Links c₃
          { c₃ with graph := c₃.graph.modifyNode node fun n => { n with kind := kind' } } :=
        ⟨⟨hgrows.woven, fun i id hfound =>
          (hlinks₃.linked.nodeOf_lt i id hfound).trans_le hgrows.size_le⟩, hgrows⟩
      exact ⟨hlinks₁.trans (hlinks₂.trans (hlinks₃.trans hlast)),
        Nat.zero_lt_of_lt (hthere.trans_le hgrows.size_le)⟩

/-- The first block of the queue is visited. -/
theorem Linked.visitNext
    {waiting : List Nat}
    (h : c.Linked)
    (hinRange : InRange m)
    (hfound : m.blocks[index]? = some block)
    (hrun : Construction.visit m index block { c with queue := waiting } = .ok () c') :
    Links c c' ∧ 0 < c'.graph.size := by
  have hlinked : Linked { c with queue := waiting } := ⟨h.woven, h.nodeOf_lt⟩
  have hstart : Links c { c with queue := waiting } := ⟨hlinked, h.woven.grows_refl⟩
  obtain ⟨hlinks, hfilled⟩ := hlinked.visit hinRange hfound hrun
  exact ⟨hstart.trans hlinks, hfilled⟩

/-- **Visiting blocks links their nodes.** -/
theorem Linked.visitAll
    {steps : Nat}
    (h : c.Linked)
    (hinRange : InRange m)
    (hrun : visitAll m steps c = .ok () c') :
    Links c c' := by
  induction steps generalizing c with
  | zero =>
      cases hrun
      exact h.links_refl
  | succ steps ih =>
      rw [Construction.visitAll] at hrun
      obtain ⟨c₁, c₂, hget, hrest⟩ := run_bind hrun
      cases hget
      cases hqueue : c.queue with
      | nil =>
          simp only [hqueue] at hrest
          cases hrest
          exact h.links_refl
      | cons index waiting =>
          simp only [hqueue] at hrest
          obtain ⟨⟨⟩, c₂, hset, hrest⟩ := run_bind hrest
          cases hset
          cases hfound : m.blocks[index]? with
          | none =>
              simp only [hfound] at hrest
              have hlinked : Linked { c with queue := waiting } := ⟨h.woven, h.nodeOf_lt⟩
              have hstart : Links c { c with queue := waiting } := ⟨hlinked, h.woven.grows_refl⟩
              exact hstart.trans (ih hlinked hrest)
          | some block =>
              simp only [hfound] at hrest
              obtain ⟨⟨⟩, c₃, hvisits, hrest⟩ := run_bind hrest
              obtain ⟨hlinks, -⟩ := h.visitNext hinRange hfound hvisits
              exact hlinks.trans (ih hlinks.linked hrest)

/-- The first visit makes a node. -/
theorem Linked.filled
    {steps : Nat}
    {waiting : List Nat}
    (h : c.Linked)
    (hinRange : InRange m)
    (hqueue : c.queue = index :: waiting)
    (hknown : index < m.blocks.length)
    (hrun : Construction.visitAll m (steps + 1) c = .ok () c') :
    0 < c'.graph.size := by
  rw [Construction.visitAll] at hrun
  obtain ⟨c₁, c₂, hget, hrest⟩ := run_bind hrun
  cases hget
  simp only [hqueue, List.getElem?_eq_getElem hknown] at hrest
  obtain ⟨⟨⟩, c₂, hset, hrest⟩ := run_bind hrest
  cases hset
  obtain ⟨⟨⟩, c₃, hvisits, hrest⟩ := run_bind hrest
  obtain ⟨hlinks, hfilled⟩ := h.visitNext hinRange (List.getElem?_eq_getElem hknown) hvisits
  exact hfilled.trans_le (hlinks.linked.visitAll hinRange hrest).grows.size_le

end Steps

end Construction

section Completing

variable {g : FlowGraph} {m : Method} {vars : Variables} {events : EventLog}

/-- A node that has got places, and has perhaps been marked as code of a handler. -/
def Placed (n n' : Node) : Prop :=
  n' = { n with locs := n'.locs, inCatch := n'.inCatch }

theorem Placed.refl
    (n : Node) :
    Placed n n :=
  rfl

theorem Placed.trans
    (a b c : Node)
    (h : Placed a b)
    (h' : Placed b c) :
    Placed a c := by
  unfold Placed at *
  rw [h', h]

theorem Placed.sameKind
    {n n' : Node}
    (h : Placed n n') :
    SameKind n n' :=
  (congrArg Node.kind h :)

theorem Placed.num_eq
    {n n' : Node}
    (h : Placed n n') :
    n'.num = n.num :=
  (congrArg Node.num h :)

theorem retouches_markHandlerCode
    (g : FlowGraph) :
    Retouches Placed g g.markHandlerCode := by
  refine retouches_foldl (fun g => g) Placed.refl Placed.trans (fun g id => ?_) g.order g
  split
  · exact retouches_modifyNode id Placed.refl fun _ => rfl
  · exact .refl Placed.refl g

theorem retouches_numberFrom
    (ids : List NodeId)
    (g : FlowGraph)
    (loc : Loc) :
    Retouches Placed g (g.numberFrom loc ids) := by
  induction ids generalizing g loc with
  | nil => exact .refl Placed.refl g
  | cons id rest ih =>
      rw [numberFrom_cons]
      have hplaced : Retouches Placed g (g.modifyNode id fun n =>
          { n with locs := placesFrom loc (g.node id).ins.length }) :=
        retouches_modifyNode id Placed.refl fun _ => rfl
      have hfirst : Retouches Placed g (g.numberNode loc id) :=
        hplaced.trans Placed.trans (retouches_of_same Placed.refl rfl rfl)
      exact hfirst.trans Placed.trans (ih _ _)

/-- What is done to a graph that has been ordered does not change anything but places and marks. -/
theorem retouches_complete
    (m : Method)
    (g : FlowGraph)
    (events : EventLog) :
    Retouches Placed g.reorder (complete m g events).1 := by
  rw [complete_fst]
  have hcleared : Retouches Placed g.reorder.markHandlerCode
      { g.reorder.markHandlerCode with locIndex := [] } :=
    retouches_of_same Placed.refl rfl rfl
  have hmarked := (retouches_markHandlerCode g.reorder).trans Placed.trans hcleared
  have hnumbered := hmarked.trans Placed.trans
    (retouches_numberFrom g.reorder.markHandlerCode.order _ 0)
  exact hnumbered.trans Placed.trans (retouches_of_same Placed.refl rfl rfl)

theorem complete_ordinary
    (h : g.Ordinary)
    (m : Method)
    (events : EventLog) :
    (complete m g events).1.Ordinary :=
  h.reorder.retouch ((retouches_complete m g events).mono fun _ _ => Placed.sameKind)

/-- **The graph of every method is ordinary.** -/
theorem ofMethod_ordinary
    (hbuilt : (ofMethod m vars events).graph = .ok g) :
    g.Ordinary := by
  obtain ⟨hblocks, hmissing, c, hrun⟩ := visited_of_ofMethod hbuilt
  rw [(ofMethod_of_visited hblocks hmissing hrun).1] at hbuilt
  obtain rfl := Except.ok.inj hbuilt
  have hstart : (Construction.start vars events).Linked := ⟨woven_empty, nofun⟩
  have hinRange := Construction.inRange_of_firstMissing hmissing
  have hlinks := hstart.visitAll hinRange hrun
  have hknown : 0 < m.blocks.length := List.length_pos_iff.2 (by simpa using hblocks)
  have hfilled := hstart.filled hinRange rfl hknown hrun
  have hentry : (c.nodeOf.lookup 0).getD 0 < c.graph.size := by
    cases hfound : c.nodeOf.lookup 0 with
    | none => exact hfilled
    | some id => exact hlinks.linked.nodeOf_lt 0 id hfound
  exact complete_ordinary (hlinks.linked.woven.ordinary hentry) m c.events

end Completing

end FlowGraph
end DalvikDecompiler
