import DalvikDecompiler.FlowGraph.OfMethod
import DalvikDecompiler.Proofs.Chains.Renaming
import DalvikDecompiler.Proofs.FlowGraph.Numbering
import DalvikDecompiler.Proofs.Symbolic.Lifting

/-!
# Constructed graphs

**Input.** A method whose blocks are visited one after another.

While blocks are visited, every edge is kept at both of its ends, no
instruction has a place, and instructions mention variables that exist.  The
nodes are then ordered, and their instructions are numbered in this order.

**Results.**
* `Construction.constructs_visitAll`: what holds of a graph while it is built.
* `ofMethod_indexed`: places of a constructed graph are those of its nodes, and
  its instructions mention variables of the method.
-/

namespace DalvikDecompiler
namespace FlowGraph

open Symbolic (VarId Instr Variables LiftState)

section Edges

variable {g : FlowGraph} {a b n m : NodeId}

theorem slots_modifySlot
    (g : FlowGraph)
    (id n : NodeId)
    (f : Slot → Slot) :
    (g.modifySlot id f).slots[n]? =
      g.slots[n]?.map fun slot => if n = id then f slot else slot := by
  simp only [modifySlot, Array.getElem?_modify]
  by_cases h : id = n
  · subst h
    simp
  · have h' : ¬ n = id := fun heq => h heq.symm
    simp [h, h']

/-- A graph has one more edge than another one, at both ends, and the same nodes. -/
structure AddsEdge (g g' : FlowGraph) (a b : NodeId) : Prop where
  size_eq : g'.size = g.size
  node_eq : ∀ n, g'.node n = g.node n
  mem_flowSuccs : ∀ n m, m ∈ g'.flowSuccs n ↔ m ∈ g.flowSuccs n ∨ (n = a ∧ m = b)
  mem_flowPreds : ∀ n m, m ∈ g'.flowPreds n ↔ m ∈ g.flowPreds n ∨ (n = b ∧ m = a)

theorem AddsEdge.wellFormed
    {g' : FlowGraph}
    (h : AddsEdge g g' a b)
    (hg : g.toDigraph.WellFormed)
    (ha : a < g.size)
    (hb : b < g.size) :
    g'.toDigraph.WellFormed := by
  refine ⟨fun n m => ?_, fun n m hnm => ?_, fun n m hnm => ?_⟩
  · change n ∈ g'.flowPreds m ↔ m ∈ g'.flowSuccs n
    rw [h.mem_flowPreds, h.mem_flowSuccs, and_comm]
    exact or_congr_left (hg.mem_preds n m)
  · change n < g'.size
    rw [h.size_eq]
    rcases (h.mem_flowSuccs n m).mp hnm with hnm | ⟨rfl, -⟩
    · exact hg.source_lt n m hnm
    · exact ha
  · change m < g'.size
    rw [h.size_eq]
    rcases (h.mem_flowSuccs n m).mp hnm with hnm | ⟨-, rfl⟩
    · exact hg.target_lt n m hnm
    · exact hb

theorem addsEdge_of_mem
    (hg : g.toDigraph.WellFormed)
    (h : b ∈ g.flowSuccs a) :
    AddsEdge g g a b := by
  refine ⟨rfl, fun _ => rfl, fun n m => ⟨Or.inl, ?_⟩, fun n m => ⟨Or.inl, ?_⟩⟩
  · rintro (hm | ⟨rfl, rfl⟩)
    · exact hm
    · exact h
  · rintro (hm | ⟨rfl, rfl⟩)
    · exact hm
    · exact (hg.mem_preds m n).mpr h

/-- Two slots are changed when an edge is added, and their nodes are left alone. -/
theorem addsEdge_of_slots
    {atSource atTarget : Slot → Slot}
    (ha : a < g.size)
    (hb : b < g.size)
    (hnode : ∀ s, (atSource s).node = s.node ∧ (atTarget s).node = s.node)
    (hsuccs : ∀ s x, (x ∈ (atSource s).succs ++ (atSource s).handlerSuccs ↔
        x ∈ s.succs ++ s.handlerSuccs ∨ x = b) ∧
      (x ∈ (atTarget s).succs ++ (atTarget s).handlerSuccs ↔ x ∈ s.succs ++ s.handlerSuccs))
    (hpreds : ∀ s x, (x ∈ (atTarget s).preds ++ (atTarget s).handlerPreds ↔
        x ∈ s.preds ++ s.handlerPreds ∨ x = a) ∧
      (x ∈ (atSource s).preds ++ (atSource s).handlerPreds ↔ x ∈ s.preds ++ s.handlerPreds)) :
    AddsEdge g ((g.modifySlot a atSource).modifySlot b atTarget) a b := by
  have hslot : ∀ n : NodeId, ((g.modifySlot a atSource).modifySlot b atTarget).slots[n]? =
      g.slots[n]?.map fun slot =>
        if n = b then atTarget (if n = a then atSource slot else slot)
        else if n = a then atSource slot else slot := by
    intro n
    rw [slots_modifySlot, slots_modifySlot, Option.map_map]
    rfl
  have hnone : ∀ n : NodeId, g.slots[n]? = none → n ≠ a ∧ n ≠ b := by
    intro n hn
    have hle : g.size ≤ n := Array.getElem?_eq_none_iff.mp hn
    exact ⟨fun h => Nat.not_lt.mpr hle (h ▸ ha), fun h => Nat.not_lt.mpr hle (h ▸ hb)⟩
  refine ⟨by simp [size, modifySlot], fun n => ?_, fun n m => ?_, fun n m => ?_⟩
  · rw [node, node, hslot]
    cases g.slots[n]? with
    | none => rfl
    | some s =>
        simp only [Option.map_some, Option.getD_some]
        split <;> split <;> simp [hnode]
  · simp only [flowSuccs, succs, handlerSuccs, hslot]
    cases hs : g.slots[n]? with
    | none => simp [hnone n hs]
    | some s =>
        have h₁ := hsuccs s m
        have h₂ := hsuccs (atSource s) m
        simp only [Option.map_some, Option.getD_some]
        split <;> split <;> grind
  · simp only [flowPreds, preds, handlerPreds, hslot]
    cases hs : g.slots[n]? with
    | none => simp [hnone n hs]
    | some s =>
        have h₁ := hpreds s m
        have h₂ := hpreds (atSource s) m
        simp only [Option.map_some, Option.getD_some]
        split <;> split <;> grind

theorem addsEdge_addEdge
    (hg : g.toDigraph.WellFormed)
    (ha : a < g.size)
    (hb : b < g.size) :
    AddsEdge g (g.addEdge a b) a b := by
  unfold addEdge
  split
  · rename_i h
    exact addsEdge_of_mem hg (List.mem_append_left _ (List.contains_iff_mem.mp h))
  · refine addsEdge_of_slots ha hb (fun s => ⟨rfl, rfl⟩) ?_ ?_
    · intro s x
      simp
      grind
    · intro s x
      simp
      grind

theorem addsEdge_addHandlerEdge
    (hg : g.toDigraph.WellFormed)
    (ha : a < g.size)
    (hb : b < g.size) :
    AddsEdge g (g.addHandlerEdge a b) a b := by
  unfold addHandlerEdge
  split
  · rename_i h
    exact addsEdge_of_mem hg (List.mem_append_right _ (List.contains_iff_mem.mp h))
  · refine addsEdge_of_slots ha hb (fun s => ⟨rfl, rfl⟩) ?_ ?_
    · intro s x
      simp
      grind
    · intro s x
      simp
      grind

end Edges

section Growing

variable {g g' : FlowGraph} {bound bound' : Nat} {a b : NodeId}

/-- What holds of a graph while blocks are visited: edges are kept at both ends, there are no
places yet, and variables are below a bound. -/
structure Growing (g : FlowGraph) (bound : Nat) : Prop where
  wellFormed : g.toDigraph.WellFormed
  locs_eq : ∀ id, (g.node id).locs = []
  mentions_lt : ∀ id ins, ins ∈ (g.node id).ins → ∀ v, v ∈ ins.mentions → v < bound

theorem growing_empty :
    empty.Growing bound := by
  refine ⟨wellFormed_of_lt ?_ ?_, ?_, ?_⟩
  · exact fun a ha => absurd ha (Nat.not_lt_zero a)
  · exact fun a ha => absurd ha (Nat.not_lt_zero a)
  · simp [node, empty, Node.plain]
  · simp [node, empty, Node.plain]

theorem Growing.mono
    (h : g.Growing bound)
    (hle : bound ≤ bound') :
    g.Growing bound' :=
  ⟨h.wellFormed, h.locs_eq, fun id ins hins v hv =>
    Nat.lt_of_lt_of_le (h.mentions_lt id ins hins v hv) hle⟩

/-- An edge between nodes of the graph leaves the code alone. -/
theorem Growing.addsEdge
    (h : g.Growing bound)
    (hadds : AddsEdge g g' a b)
    (ha : a < g.size)
    (hb : b < g.size) :
    g'.Growing bound := by
  refine ⟨hadds.wellFormed h.wellFormed ha hb, fun id => ?_, fun id => ?_⟩
  · rw [hadds.node_eq]
    exact h.locs_eq id
  · rw [hadds.node_eq]
    exact h.mentions_lt id

theorem Growing.sameCode
    (h : g.Growing bound)
    (hsame : SameCode g g') :
    g'.Growing bound := by
  refine ⟨?_, fun n => ?_, fun n => ?_⟩
  · rw [hsame.toDigraph_eq]
    exact h.wellFormed
  · rw [hsame.locs_eq]
    exact h.locs_eq n
  · rw [hsame.ins_eq]
    exact h.mentions_lt n

theorem Growing.addNode
    {new : Node}
    (h : g.Growing bound)
    (hlocs : new.locs = [])
    (hmentions : ∀ ins, ins ∈ new.ins → ∀ v, v ∈ ins.mentions → v < bound) :
    (g.addNode new).2.Growing bound := by
  let slot : Slot :=
    { node := new, live := true, succs := [], preds := [], handlerSuccs := [], handlerPreds := [] }
  have hslot : ∀ n : NodeId, (g.addNode new).2.slots[n]? =
      if n = g.size then some slot else g.slots[n]? := by
    intro n
    simp only [FlowGraph.addNode, Array.getElem?_push]
    rfl
  have hsize : (g.addNode new).2.size = g.size + 1 := by simp [FlowGraph.addNode, size]
  have hsuccs : ∀ n, (g.addNode new).2.flowSuccs n = g.flowSuccs n := by
    intro n
    simp only [flowSuccs, succs, handlerSuccs, hslot]
    split
    · rename_i hn
      have hnone : g.slots[n]? = none := Array.getElem?_eq_none (Nat.le_of_eq hn.symm)
      simp [hnone, slot]
    · rfl
  have hpreds : ∀ n, (g.addNode new).2.flowPreds n = g.flowPreds n := by
    intro n
    simp only [flowPreds, preds, handlerPreds, hslot]
    split
    · rename_i hn
      have hnone : g.slots[n]? = none := Array.getElem?_eq_none (Nat.le_of_eq hn.symm)
      simp [hnone, slot]
    · rfl
  have hnode : ∀ n, (g.addNode new).2.node n = if n = g.size then new else g.node n := by
    intro n
    simp only [node, hslot]
    split <;> rfl
  refine ⟨⟨fun n m => ?_, fun n m hnm => ?_, fun n m hnm => ?_⟩, fun n => ?_, fun n => ?_⟩
  · change n ∈ (g.addNode new).2.flowPreds m ↔ m ∈ (g.addNode new).2.flowSuccs n
    rw [hpreds, hsuccs]
    exact h.wellFormed.mem_preds n m
  · change n < (g.addNode new).2.size
    change m ∈ (g.addNode new).2.flowSuccs n at hnm
    rw [hsuccs] at hnm
    exact hsize ▸ Nat.lt_succ_of_lt (h.wellFormed.source_lt n m hnm)
  · change m < (g.addNode new).2.size
    change m ∈ (g.addNode new).2.flowSuccs n at hnm
    rw [hsuccs] at hnm
    exact hsize ▸ Nat.lt_succ_of_lt (h.wellFormed.target_lt n m hnm)
  · rw [hnode]
    split
    · exact hlocs
    · exact h.locs_eq n
  · rw [hnode]
    split
    · exact hmentions
    · exact h.mentions_lt n

end Growing

namespace Construction

open Bytecode (Block Method)

/-- What holds of a construction between two visits. -/
structure Sound (params : List VarId) (c : Construction) : Prop where
  lifter : c.lifter.Sound
  params_eq : c.lifter.vars.params = params
  params_lt : ∀ v, v ∈ params → v < c.lifter.vars.size
  growing : c.graph.Growing c.lifter.vars.size
  nodeOf_lt : ∀ index id, c.nodeOf.lookup index = some id → id < c.graph.size

/-- Computations that mention nodes of the graph. -/
abbrev Constructs {α : Type} (params : List VarId) (known : List NodeId) (x : ConstructM α)
    (names : α → List NodeId) : Prop :=
  Allocates (Sound params) (fun c => c.graph.size) known x names

variable {params : List VarId} {known : List NodeId} {m : Method}

section Lifting

variable {graph : FlowGraph} {nodeOf : List (Nat × NodeId)} (vars : List VarId)

/-- Computations that leave the graph alone and mention variables that exist. -/
abbrev LiftsIn {α : Type} (params : List VarId) (graph : FlowGraph) (nodeOf : List (Nat × NodeId))
    (vars : List VarId) (x : ConstructM α) (mentions : α → List VarId) : Prop :=
  Allocates (fun c => c.Sound params ∧ c.graph = graph ∧ c.nodeOf = nodeOf)
    (fun c => c.lifter.vars.size) vars x mentions

theorem liftsIn_liftOne
    (ins : Bytecode.Instruction) :
    LiftsIn params graph nodeOf vars (liftOne m ins)
      fun lifted => lifted.toList.flatMap Instr.mentions := by
  have hreport : LiftsIn params graph nodeOf vars (reportUnknown m ins) fun _ => [] := by
    refine .modifyGet fun c hc _ => ?_
    exact ⟨⟨⟨hc.1.lifter, hc.1.params_eq, hc.1.params_lt, hc.1.growing, hc.1.nodeOf_lt⟩,
      hc.2⟩, Nat.le_refl _, by simp⟩
  unfold liftOne
  split
  on_goal 1 => refine hreport.bind fun _ => ?_
  -- With or without a report, the instruction is lifted in the same way.
  all_goals
    refine .get_bind fun c hc hvars lifted c' hrun => ?_
    obtain ⟨hc, hgraph, hnodeOf⟩ := hc
    cases hlift : (LiftState.lift ins).run c.lifter with
    | error error lifter =>
        rw [hlift] at hrun
        cases hrun
    | ok result lifter =>
        rw [hlift] at hrun
        cases hrun
        obtain ⟨⟨hsound, hextends⟩, hle, hmentions⟩ :=
          LiftState.lifts_lift ins c.lifter _ lifter ⟨hc.lifter, .refl⟩ hvars hlift
        have hparams : lifter.vars.params = params := hextends.params_eq.trans hc.params_eq
        have hlt : ∀ v, v ∈ params → v < lifter.vars.size := fun v hv =>
          Nat.lt_of_lt_of_le (hc.params_lt v hv) hle
        exact ⟨⟨⟨hsound, hparams, hlt, hc.growing.mono hle, hc.nodeOf_lt⟩, hgraph, hnodeOf⟩, hle,
          hmentions⟩

theorem liftsIn_liftAll
    (instructions : List Bytecode.Instruction) :
    LiftsIn params graph nodeOf vars (liftAll m instructions) (List.flatMap Instr.mentions) := by
  induction instructions generalizing vars with
  | nil => exact .pure (by simp)
  | cons ins rest ih =>
      rw [liftAll]
      exact (liftsIn_liftOne vars ins).bind fun lifted => (ih _).bind fun more =>
        .pure (by simp; grind)

end Lifting

/-- The node of a block exists, if there is such a block or any other node. -/
theorem constructs_nodeOfBlock
    {index : Nat}
    (h : known ≠ [] ∨ index < m.blocks.length) :
    Constructs params known (nodeOfBlock m index) fun id => [id] := by
  refine .get_bind fun c hc hknown id c' hrun => ?_
  cases hlookup : c.nodeOf.lookup index with
  | some id' =>
      simp only [hlookup] at hrun
      cases hrun
      exact ⟨hc, Nat.le_refl _, by simpa using hc.nodeOf_lt index id hlookup⟩
  | none =>
      cases hblock : m.blocks[index]? with
      | none =>
          simp only [hlookup, hblock] at hrun
          cases hrun
          obtain ⟨k, hk⟩ : ∃ k, k ∈ known :=
            List.exists_mem_of_ne_nil known
              (h.resolve_right (Nat.not_lt.mpr (List.getElem?_eq_none_iff.mp hblock)))
          exact ⟨hc, Nat.le_refl _, by simpa using Nat.zero_lt_of_lt (hknown k hk)⟩
      | some block =>
          simp only [hlookup, hblock] at hrun
          obtain ⟨ins, c₁, hlift, hnew⟩ := run_bind hrun
          obtain ⟨⟨hc₁, hgraph, hnodeOf⟩, -, hmentions⟩ :=
            liftsIn_liftAll [] block.instructions c ins c₁ ⟨hc, rfl, rfl⟩ (by simp) hlift
          cases hnew
          have hsize : (c₁.graph.addNode { Node.plain block.name .statement with
              start := block.start, ins }).2.size = c₁.graph.size + 1 := by
            simp [addNode, size]
          have hgrowing : (c₁.graph.addNode { Node.plain block.name .statement with
              start := block.start, ins }).2.Growing c₁.lifter.vars.size :=
            hc₁.growing.addNode rfl fun i hi v hv =>
              hmentions v (List.mem_flatMap.mpr ⟨i, hi, hv⟩)
          refine ⟨⟨hc₁.lifter, hc₁.params_eq, hc₁.params_lt, hgrowing, fun i id hi => ?_⟩, ?_, ?_⟩
          · refine Nat.lt_of_lt_of_eq ?_ hsize.symm
            simp only [List.lookup_append] at hi
            cases hold : c₁.nodeOf.lookup i with
            | some id' =>
                rw [hold] at hi
                obtain rfl := Option.some.inj hi
                exact Nat.lt_succ_of_lt (hc₁.nodeOf_lt i id' hold)
            | none =>
                rw [hold, Option.none_or, List.lookup_cons] at hi
                split at hi
                · obtain rfl := Option.some.inj hi
                  exact Nat.lt_succ_self _
                · cases hi
          · refine Nat.le_trans ?_ (Nat.le_of_eq hsize.symm)
            rw [hgraph]
            exact Nat.le_succ _
          · intro id hid
            rw [List.mem_singleton.mp hid]
            exact Nat.lt_of_lt_of_eq (Nat.lt_succ_self _) hsize.symm

theorem constructs_enqueue
    (index : Nat) :
    Constructs params known (enqueue index) fun _ => [] := by
  refine .modifyGet fun c hc _ => ?_
  refine ⟨?_, ?_, by simp⟩
  · dsimp only
    split
    · exact hc
    · exact ⟨hc.lifter, hc.params_eq, hc.params_lt, hc.growing, hc.nodeOf_lt⟩
  · dsimp only
    split <;> exact Nat.le_refl _

/-- A change of the graph that keeps what holds while it grows, and its nodes. -/
theorem constructs_modifyGraph
    {f : FlowGraph → FlowGraph}
    (hf : ∀ g bound, g.Growing bound → (∀ n, n ∈ known → n < g.size) →
      (f g).Growing bound ∧ (f g).size = g.size) :
    Constructs params known (modifyGraph f) fun _ => [] := by
  refine .modifyGet fun c hc hknown => ?_
  obtain ⟨hgrowing, hsize⟩ := hf c.graph _ hc.growing hknown
  refine ⟨⟨hc.lifter, hc.params_eq, hc.params_lt, hgrowing, fun index id hid => ?_⟩,
    Nat.le_of_eq hsize.symm, by simp⟩
  exact Nat.lt_of_lt_of_eq (hc.nodeOf_lt index id hid) hsize.symm

theorem constructs_linkChildren
    {node : NodeId}
    (hnode : node ∈ known)
    (children : List (UInt32 × UInt64)) :
    Constructs params known (linkChildren m node children) id := by
  induction children generalizing known with
  | nil => exact .pure (by simp)
  | cons child children ih =>
      rw [linkChildren]
      refine (constructs_nodeOfBlock (Or.inl (List.ne_nil_of_mem hnode))).bind fun target => ?_
      refine (constructs_modifyGraph fun g bound hg hknown => ?_).bind fun _ => ?_
      · have hadds := addsEdge_addEdge hg.wellFormed (hknown node (by simp [hnode]))
          (hknown target (by simp))
        exact ⟨hg.addsEdge hadds (hknown node (by simp [hnode])) (hknown target (by simp)),
          hadds.size_eq⟩
      · exact (constructs_enqueue _).bind fun _ =>
          (ih (by simp [hnode])).bind fun targets => .pure (by simp; grind)

theorem constructs_linkHandlers
    {node : NodeId}
    (hnode : node ∈ known)
    (handlers : List Bytecode.Handler) :
    Constructs params known (linkHandlers m node handlers) fun _ => [] := by
  induction handlers generalizing known with
  | nil => exact .pure (by simp)
  | cons handler handlers ih =>
      rw [linkHandlers]
      refine (constructs_nodeOfBlock (Or.inl (List.ne_nil_of_mem hnode))).bind fun target => ?_
      refine (constructs_modifyGraph fun g bound hg hknown => ?_).bind fun _ => ?_
      · have hadds := addsEdge_addHandlerEdge hg.wellFormed (hknown node (by simp [hnode]))
          (hknown target (by simp))
        refine ⟨(hg.addsEdge hadds (hknown node (by simp [hnode]))
          (hknown target (by simp))).sameCode
          (sameCode_modifyNode (by intro n; exact ⟨rfl, rfl⟩) target), ?_⟩
        rw [size_modifyNode, hadds.size_eq]
      · exact (constructs_enqueue _).bind fun _ => ih (by simp [hnode])

theorem constructs_visit
    {index : Nat}
    {block : Block}
    (hindex : index < m.blocks.length) :
    Constructs params known (visit m index block) fun _ => [] := by
  unfold visit
  refine (constructs_nodeOfBlock (Or.inr hindex)).bind fun node => ?_
  refine (constructs_linkChildren (by simp) block.children).bind fun children => ?_
  have hnode : node ∈ id children ++ ([node] ++ known) := by simp
  refine (constructs_linkHandlers hnode _).bind fun _ => ?_
  split
  · exact constructs_modifyGraph fun g bound hg _ =>
      ⟨hg.sameCode (sameCode_modifyNode (by intro n; exact ⟨rfl, rfl⟩) node),
        size_modifyNode g node _⟩
  · exact .throw _

/-- Visiting blocks keeps what holds of a construction. -/
theorem constructs_visitAll
    (known : List NodeId)
    (steps : Nat) :
    Constructs params known (visitAll m steps) fun _ => [] := by
  induction steps generalizing known with
  | zero => exact .pure (by simp)
  | succ steps ih =>
      refine .get_bind fun c hc hknown a c' hrun => ?_
      cases hqueue : c.queue with
      | nil =>
          rw [hqueue] at hrun
          cases hrun
          exact ⟨hc, Nat.le_refl _, by simp⟩
      | cons index rest =>
          rw [hqueue] at hrun
          dsimp only at hrun
          have hpopped : Sound params { c with queue := rest } :=
            ⟨hc.lifter, hc.params_eq, hc.params_lt, hc.growing, hc.nodeOf_lt⟩
          cases hblock : m.blocks[index]? with
          | none =>
              rw [hblock] at hrun
              exact ih known { c with queue := rest } a c' hpopped hknown hrun
          | some block =>
              rw [hblock] at hrun
              have hrest : Constructs params known
                  (visit m index block >>= fun _ => visitAll m steps)
                  fun _ => [] :=
                (constructs_visit (List.getElem?_eq_some_iff.mp hblock).1).bind fun _ => ih _
              exact hrest { c with queue := rest } a c' hpopped hknown hrun

end Construction

theorem markHandlerCode_sameCode
    (g : FlowGraph) :
    SameCode g g.markHandlerCode ∧ g.markHandlerCode.order = g.order := by
  refine sameCode_foldl (fun g id => ?_) g.order g
  split
  · exact ⟨sameCode_modifyNode (by intro n; exact ⟨rfl, rfl⟩) id, rfl⟩
  · exact ⟨⟨rfl, fun _ => rfl, fun _ => rfl⟩, rfl⟩

theorem complete_fst
    (m : Bytecode.Method)
    (g : FlowGraph)
    (events : EventLog) :
    (complete m g events).1 =
      { (markHandlerCode g.reorder).numberInstructions with
        exit := ((markHandlerCode g.reorder).numberInstructions.exitAndEvent m).1 } := by
  unfold complete
  with_reducible rfl

/-- The exit of a graph has nothing to do with its code. -/
theorem Indexed.withExit
    {g : FlowGraph}
    (hg : g.Indexed)
    (exit : Option NodeId) :
    Indexed { g with exit } :=
  ⟨⟨hg.numbered.wellFormed, hg.numbered.current, hg.numbered.length_eq, hg.numbered.nodup,
    hg.numbered.nonneg⟩, hg.nodeAt_iff, hg.mem_order⟩

/-- A graph whose blocks have been visited gets places, and keeps its instructions. -/
theorem complete_indexed
    {g : FlowGraph}
    {bound : Nat}
    (m : Bytecode.Method)
    (events : EventLog)
    (hg : g.Growing bound) :
    (complete m g events).1.Indexed ∧ (complete m g events).1.Bounded bound := by
  obtain ⟨hordered, horder⟩ := reorder_sameCode g
  obtain ⟨hmarked, horder'⟩ := markHandlerCode_sameCode g.reorder
  have hsame := hordered.trans hmarked
  have hg' := hg.sameCode hsame
  have hentry : (markHandlerCode g.reorder).entry = g.entry :=
    congrArg Digraph.entry hsame.toDigraph_eq
  obtain ⟨hindexed, hins⟩ := numberInstructions_indexed hg'.wellFormed
    (by rw [horder', horder, hsame.toDigraph_eq, hentry]) hg'.locs_eq
  rw [complete_fst]
  refine ⟨hindexed.withExit _, ?_⟩
  rintro ins loc ⟨id, hid⟩
  have hid : ins ∈ ((markHandlerCode g.reorder).numberInstructions.node id).ins :=
    (List.of_mem_zip hid).1
  rw [hins] at hid
  have hmentions := hg'.mentions_lt id ins hid
  exact ⟨fun v hv => hmentions v (List.mem_append_right _ hv),
    fun v hv => hmentions v (List.mem_append_left _ (by simp [hv]))⟩

/-- What construction starts with: the first block waits to be visited. -/
def Construction.start (vars : Variables) (events : EventLog) : Construction :=
  { graph := .empty
    lifter := { vars, pending := none }
    events
    nodeOf := []
    queue := [0]
    seen := [0] }

/-- A visit makes a node, connects it with the children of its block and with its handlers, and
gives it its kind. -/
theorem Construction.run_visit
    {m : Bytecode.Method}
    {c c₁ c₂ c₃ : Construction}
    {index : Nat}
    {block : Bytecode.Block}
    {node : NodeId}
    {children : List NodeId}
    {kind : NodeKind}
    (hnode : (nodeOfBlock m index).run c = .ok node c₁)
    (hchildren : (linkChildren m node block.children).run c₁ = .ok children c₂)
    (hhandlers : (linkHandlers m node (m.exceptions.handlersFor block.start)).run c₂ = .ok () c₃)
    (hkind : kindOf m block children = .ok kind) :
    (visit m index block).run c =
      .ok () { c₃ with graph := c₃.graph.modifyNode node fun n => { n with kind } } := by
  simp only [visit, EStateM.run_bind, hnode, hchildren, hhandlers, hkind]
  rfl

/-- The block that has waited longest is visited before the others. -/
theorem run_visitAll
    {m : Bytecode.Method}
    {c c' : Construction}
    {index steps : Nat}
    {rest : List Nat}
    {block : Bytecode.Block}
    (hqueue : c.queue = index :: rest)
    (hblock : m.blocks[index]? = some block)
    (hvisit : (Construction.visit m index block).run { c with queue := rest } = .ok () c') :
    (Construction.visitAll m (steps + 1)).run c = (Construction.visitAll m steps).run c' := by
  rw [Construction.visitAll]
  simp only [EStateM.run_bind, EStateM.run_get, EStateM.run_set, hqueue, hblock, hvisit]

/-- The graph of a method whose visits succeed. -/
theorem ofMethod_of_visited
    {m : Bytecode.Method}
    {vars : Variables}
    {events : EventLog}
    {c : Construction}
    (hblocks : m.blocks.isEmpty = false)
    (hmissing : firstMissing? m = none)
    (hrun : (Construction.visitAll m (m.blocks.length + 1)).run (.start vars events) = .ok () c) :
    (ofMethod m vars events).graph =
        .ok (complete m { c.graph with entry := (c.nodeOf.lookup 0).getD 0 } c.events).1 ∧
      (ofMethod m vars events).vars = c.lifter.vars := by
  rw [Construction.start] at hrun
  simp [ofMethod, hblocks, hmissing, hrun]

/-- A graph is constructed only if all visits succeed. -/
theorem visited_of_ofMethod
    {m : Bytecode.Method}
    {vars : Variables}
    {events : EventLog}
    {g : FlowGraph}
    (h : (ofMethod m vars events).graph = .ok g) :
    m.blocks.isEmpty = false ∧ firstMissing? m = none ∧
      ∃ c, (Construction.visitAll m (m.blocks.length + 1)).run (.start vars events) = .ok () c := by
  unfold ofMethod at h
  cases hblocks : m.blocks.isEmpty with
  | true => simp [hblocks] at h
  | false =>
      cases hmissing : firstMissing? m with
      | some error => simp [hblocks, hmissing] at h
      | none =>
          refine ⟨rfl, rfl, ?_⟩
          cases hrun : (Construction.visitAll m (m.blocks.length + 1)).run (.start vars events) with
          | ok a c => exact ⟨c, rfl⟩
          | error error c =>
              rw [Construction.start] at hrun
              simp [hblocks, hmissing, hrun] at h

/-- **Constructed graphs.**  Every instruction of the graph of a method has a place of its own and
mentions variables that exist, and the arguments are those of the method. -/
theorem ofMethod_indexed
    {m : Bytecode.Method}
    {vars : Variables}
    {events : EventLog}
    {g : FlowGraph}
    (hvars : LiftState.Sound { vars, pending := none })
    (hparams : ∀ v, v ∈ vars.params → v < vars.size)
    (h : (ofMethod m vars events).graph = .ok g) :
    g.Indexed ∧ g.Bounded (ofMethod m vars events).vars.size ∧
      (ofMethod m vars events).vars.params = vars.params ∧
      ∀ v, v ∈ vars.params → v < (ofMethod m vars events).vars.size := by
  obtain ⟨hblocks, hmissing, c, hrun⟩ := visited_of_ofMethod h
  obtain ⟨hgraph, hvars'⟩ := ofMethod_of_visited hblocks hmissing hrun
  rw [hgraph] at h
  obtain rfl := Except.ok.inj h
  have hstart : Construction.Sound vars.params (.start vars events) :=
    ⟨hvars, rfl, hparams, growing_empty, by simp [Construction.start]⟩
  obtain ⟨hc, -⟩ := Construction.constructs_visitAll [] _ _ () c hstart (by simp) hrun
  have hgrowing : Growing { c.graph with entry := (c.nodeOf.lookup 0).getD 0 }
      c.lifter.vars.size :=
    ⟨⟨hc.growing.wellFormed.mem_preds, hc.growing.wellFormed.source_lt,
      hc.growing.wellFormed.target_lt⟩, hc.growing.locs_eq, hc.growing.mentions_lt⟩
  obtain ⟨hindexed, hbounded⟩ := complete_indexed m c.events hgrowing
  rw [hvars']
  exact ⟨hindexed, hbounded, hc.params_eq, hc.params_lt⟩

/-- An instruction of a sample method. -/
def sampleInstruction (opcode : Opcode) (operands : List Bytecode.Operand)
    (offset length : UInt32) (branchDistance : Option Int32) : Bytecode.Instruction :=
  { opcode, operands, offset, length, branchDistance }

end FlowGraph
end DalvikDecompiler
