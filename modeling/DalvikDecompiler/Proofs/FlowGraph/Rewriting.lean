import DalvikDecompiler.Proofs.FlowGraph.Trace

/-!
# Rewriting the code of a flow graph

**Input.** A flow graph whose index finds the places of its instructions.

Changing or removing the instruction at a place leaves the shape of a graph
alone and acts on the code run along every walk step by step.

**Results.**
* `instrAt_eq_some_iff`: the index finds exactly the instructions of the nodes.
* `Rewrites.modifyInstr`, `Rewrites.removeInstr`: what an edit at one place does
  to the code of all nodes.
* `Rewrites.executes_iff`: the runs of a rewritten graph are those of the graph,
  rewritten.
-/

namespace DalvikDecompiler

open Symbolic (VarId Instr)

/-- Change the instruction of a step at a place. -/
def modifyAt (loc : Loc) (F : Instr → Instr) (x : RunStep) : Option RunStep :=
  some (if x.2 = loc then (F x.1, x.2) else x)

/-- Leave the steps at a place out. -/
def dropAt (loc : Loc) (x : RunStep) : Option RunStep :=
  if x.2 = loc then none else some x

namespace FlowGraph

/-- The index finds the places of the nodes, and only nodes of the order have any. -/
structure Indexed (g : FlowGraph) : Prop where
  numbered : g.Numbered
  nodeAt_iff : ∀ loc id, g.nodeAt loc = some id ↔ loc ∈ (g.node id).locs
  mem_order : ∀ id loc, loc ∈ (g.node id).locs → id ∈ g.order

/-- Another graph has the same shape and the code that some change of steps gives. -/
structure Rewrites (g g' : FlowGraph) (f : RunStep → Option RunStep) : Prop where
  toDigraph_eq : g'.toDigraph = g.toDigraph
  order_eq : g'.order = g.order
  code_eq : ∀ id, g'.code id = (g.code id).filterMap f

/-- An instruction stands at a place of a graph. -/
def Holds (g : FlowGraph) (ins : Instr) (loc : Loc) : Prop :=
  ∃ id, (ins, loc) ∈ g.code id

section Shape

variable (g : FlowGraph)

@[simp] theorem size_modifyNode
    (id : NodeId)
    (f : Node → Node) :
    (g.modifyNode id f).size = g.size := by
  simp [modifyNode, modifySlot, size]

theorem slots_modifyNode
    (id n : NodeId)
    (f : Node → Node) :
    (g.modifyNode id f).slots[n]? =
      g.slots[n]?.map fun slot => if n = id then { slot with node := f slot.node } else slot := by
  simp only [modifyNode, modifySlot, Array.getElem?_modify]
  by_cases h : id = n
  · subst h
    simp
  · have h' : ¬ n = id := fun heq => h heq.symm
    simp [h, h']

theorem node_modifyNode
    {id : NodeId}
    (n : NodeId)
    (f : Node → Node)
    (hid : id < g.size) :
    (g.modifyNode id f).node n = if n = id then f (g.node n) else g.node n := by
  rw [node, slots_modifyNode]
  by_cases h : n = id
  · subst h
    have hslot : g.slots[n]? = some g.slots[n] := Array.getElem?_eq_getElem hid
    simp [node, hslot]
  · simp [node, h]

/-- A graph has the shape of another one if only the contents of its nodes differ. -/
theorem toDigraph_eq_of_slots
    {g' : FlowGraph}
    (f : NodeId → Node → Node)
    (hentry : g'.entry = g.entry)
    (hslots : ∀ n : NodeId,
      g'.slots[n]? = g.slots[n]?.map fun slot => { slot with node := f n slot.node }) :
    g'.toDigraph = g.toDigraph := by
  have hfield : ∀ {α : Type} (field : Slot → α),
      (∀ slot node, field { slot with node := node } = field slot) →
      ∀ n : NodeId, g'.slots[n]?.map field = g.slots[n]?.map field := by
    intro α field hnode n
    rw [hslots, Option.map_map]
    congr 1
    funext slot
    exact hnode slot _
  have hsuccs := hfield Slot.succs fun _ _ => rfl
  have hpreds := hfield Slot.preds fun _ _ => rfl
  have hhandlers := hfield Slot.handlerSuccs fun _ _ => rfl
  have hprotected := hfield Slot.handlerPreds fun _ _ => rfl
  have hsize : g'.size = g.size := by
    have hnone : ∀ n : Nat, g'.slots[n]? = none ↔ g.slots[n]? = none := by
      intro n
      rw [hslots, Option.map_eq_none_iff]
    simp only [Array.getElem?_eq_none_iff] at hnone
    exact Nat.le_antisymm ((hnone _).mpr (Nat.le_refl _)) ((hnone _).mp (Nat.le_refl _))
  have hlive : g'.isLive = g.isLive := by
    funext n
    have h := hfield Slot.live (fun _ _ => rfl) n
    have hany : ∀ o : Option Slot, o.any Slot.live = (o.map Slot.live).any fun b => b := by
      intro o
      cases o <;> rfl
    rw [isLive, isLive, hany, hany, h]
  unfold toDigraph
  simp only [Digraph.mk.injEq]
  refine ⟨hsize, ?_, ?_, ?_, hentry⟩
  · simp [liveIds, hlive, hsize]
  · funext n
    simp only [flowSuccs, succs, handlerSuccs, hsuccs, hhandlers]
  · funext n
    simp only [flowPreds, preds, handlerPreds, hpreds, hprotected]

@[simp] theorem toDigraph_modifyNode
    (id : NodeId)
    (f : Node → Node) :
    (g.modifyNode id f).toDigraph = g.toDigraph := by
  refine toDigraph_eq_of_slots g (fun n => if n = id then f else fun x => x) rfl fun n => ?_
  rw [slots_modifyNode]
  congr 1
  funext slot
  split <;> rfl

end Shape

section Zip

variable {ins : List Instr} {i : Instr} {locs : List Loc} {loc : Loc} {position : Nat}

theorem filterMap_modifyAt_of_not_mem
    (F : Instr → Instr)
    (h : loc ∉ locs) :
    (ins.zip locs).filterMap (modifyAt loc F) = ins.zip locs := by
  have hsome : ∀ x, x ∈ ins.zip locs → modifyAt loc F x = some x := by
    intro x hx
    have hne : ¬ x.2 = loc := fun heq => h (heq ▸ (List.of_mem_zip hx).2)
    simp [modifyAt, hne]
  rw [List.filterMap_congr hsome]
  exact List.filterMap_some

theorem filterMap_dropAt_of_not_mem
    (h : loc ∉ locs) :
    (ins.zip locs).filterMap (dropAt loc) = ins.zip locs := by
  have hsome : ∀ x, x ∈ ins.zip locs → dropAt loc x = some x := by
    intro x hx
    have hne : ¬ x.2 = loc := fun heq => h (heq ▸ (List.of_mem_zip hx).2)
    simp [dropAt, hne]
  rw [List.filterMap_congr hsome]
  exact List.filterMap_some

/-- Changing the instruction at the position of a place is changing the steps at the place. -/
theorem zip_modify
    (F : Instr → Instr)
    (hnodup : locs.Nodup)
    (hposition : locs.idxOf? loc = some position) :
    (ins.modify position F).zip locs = (ins.zip locs).filterMap (modifyAt loc F) := by
  induction locs generalizing ins position with
  | nil => simp at hposition
  | cons l locs ih =>
      obtain ⟨hl, hnodup⟩ := List.nodup_cons.mp hnodup
      cases ins with
      | nil => simp
      | cons i ins =>
          rw [List.idxOf?_cons] at hposition
          by_cases heq : l = loc
          · subst heq
            obtain rfl : 0 = position := by simpa using hposition
            have hhead : modifyAt l F (i, l) = some (F i, l) := by simp [modifyAt]
            have hrest : (ins.zip locs).filterMap (modifyAt l F) = ins.zip locs :=
              filterMap_modifyAt_of_not_mem F hl
            simp [hhead, hrest]
          · have hne : (l == loc) = false := by simpa using heq
            rw [hne] at hposition
            obtain ⟨rest, hrest, rfl⟩ := Option.map_eq_some_iff.mp hposition
            simp [modifyAt, heq, ih hnodup hrest]

/-- Removing the position of a place is leaving out the steps at the place. -/
theorem zip_eraseIdx
    (hnodup : locs.Nodup)
    (hposition : locs.idxOf? loc = some position) :
    (ins.eraseIdx position).zip (locs.eraseIdx position) =
      (ins.zip locs).filterMap (dropAt loc) := by
  induction locs generalizing ins position with
  | nil => simp at hposition
  | cons l locs ih =>
      obtain ⟨hl, hnodup⟩ := List.nodup_cons.mp hnodup
      cases ins with
      | nil => simp
      | cons i ins =>
          rw [List.idxOf?_cons] at hposition
          by_cases heq : l = loc
          · subst heq
            obtain rfl : 0 = position := by simpa using hposition
            have hhead : dropAt l (i, l) = none := by simp [dropAt]
            have hrest : (ins.zip locs).filterMap (dropAt l) = ins.zip locs :=
              filterMap_dropAt_of_not_mem hl
            simp [hhead, hrest]
          · have hne : (l == loc) = false := by simpa using heq
            rw [hne] at hposition
            obtain ⟨rest, hrest, rfl⟩ := Option.map_eq_some_iff.mp hposition
            simp [dropAt, heq, ih hnodup hrest]

/-- Removing the position of a place removes the place. -/
theorem mem_eraseIdx_iff
    {l : Loc}
    (hnodup : locs.Nodup)
    (hposition : locs.idxOf? loc = some position) :
    l ∈ locs.eraseIdx position ↔ l ∈ locs ∧ l ≠ loc := by
  induction locs generalizing position with
  | nil => simp at hposition
  | cons k locs ih =>
      obtain ⟨hk, hnodup⟩ := List.nodup_cons.mp hnodup
      rw [List.idxOf?_cons] at hposition
      by_cases heq : k = loc
      · subst heq
        obtain rfl : 0 = position := by simpa using hposition
        constructor
        · intro h
          have h : l ∈ locs := by simpa using h
          exact ⟨List.mem_cons_of_mem _ h, fun heq => hk (heq ▸ h)⟩
        · rintro ⟨h, hne⟩
          simpa using (List.mem_cons.mp h).resolve_left hne
      · have hne : (k == loc) = false := by simpa using heq
        rw [hne] at hposition
        obtain ⟨rest, hrest, rfl⟩ := Option.map_eq_some_iff.mp hposition
        simp only [List.eraseIdx_cons_succ, List.mem_cons, ih hnodup hrest]
        constructor
        · rintro (rfl | ⟨h, hl⟩)
          · exact ⟨Or.inl rfl, heq⟩
          · exact ⟨Or.inr h, hl⟩
        · rintro ⟨rfl | h, hl⟩
          · exact Or.inl rfl
          · exact Or.inr ⟨h, hl⟩

/-- What stands at the position of a place is the instruction with this place. -/
theorem getElem?_eq_some_iff_mem_zip
    (hnodup : locs.Nodup)
    (hposition : locs.idxOf? loc = some position) :
    ins[position]? = some i ↔ (i, loc) ∈ ins.zip locs := by
  induction locs generalizing ins position with
  | nil => simp at hposition
  | cons l locs ih =>
      obtain ⟨hl, hnodup⟩ := List.nodup_cons.mp hnodup
      cases ins with
      | nil => simp
      | cons j ins =>
          rw [List.idxOf?_cons] at hposition
          by_cases heq : l = loc
          · subst heq
            obtain rfl : 0 = position := by simpa using hposition
            have hno : (i, l) ∉ ins.zip locs := fun hmem => hl (List.of_mem_zip hmem).2
            simp [hno, eq_comm]
          · have hne : (l == loc) = false := by simpa using heq
            rw [hne] at hposition
            obtain ⟨rest, hrest, rfl⟩ := Option.map_eq_some_iff.mp hposition
            have hloc : ¬ loc = l := fun h => heq h.symm
            simp [hloc, ih hnodup hrest]

end Zip

section Edits

variable {g g' g'' : FlowGraph} {loc : Loc} {ins : Instr} {id : NodeId}

namespace Indexed

theorem nodup_locs
    (hg : g.Indexed)
    (id : NodeId) :
    (g.node id).locs.Nodup := by
  by_cases hid : id ∈ g.order
  · exact (List.nodup_flatMap.mp hg.numbered.nodup).1 id hid
  · have hnil : (g.node id).locs = [] :=
      List.eq_nil_iff_forall_not_mem.mpr fun loc hloc => hid (hg.mem_order id loc hloc)
    rw [hnil]
    exact List.nodup_nil

theorem lt_size_of_mem
    (h : loc ∈ (g.node id).locs) :
    id < g.size := by
  by_contra hid
  have hslot : g.slots[id]? = none := Array.getElem?_eq_none (Nat.le_of_not_lt hid)
  simp [node, hslot, Node.plain] at h

/-- The index can be checked entry by entry and slot by slot. -/
theorem of_lt
    (hg : g.Numbered)
    (hindex : ∀ entry, entry ∈ g.locIndex → entry.1 ∈ (g.node entry.2).locs)
    (hslots : ∀ id, id < g.size → ∀ loc, loc ∈ (g.node id).locs →
      g.nodeAt loc = some id ∧ id ∈ g.order) :
    g.Indexed := by
  refine ⟨hg, fun loc id => ⟨fun h => ?_, fun h => ?_⟩, fun id loc h => ?_⟩
  · obtain ⟨front, behind, heq, -⟩ := List.lookup_eq_some_iff.mp h
    exact hindex (loc, id) (by simp [heq])
  · exact (hslots id (lt_size_of_mem h) loc h).1
  · exact (hslots id (lt_size_of_mem h) loc h).2

/-- A place stands in one node, at one position. -/
theorem exists_position
    (hg : g.Indexed)
    (h : g.nodeAt loc = some id) :
    ∃ position, (g.node id).locs.idxOf? loc = some position := by
  have hmem := (hg.nodeAt_iff loc id).mp h
  cases hposition : (g.node id).locs.idxOf? loc with
  | some position => exact ⟨position, rfl⟩
  | none => exact absurd hmem (List.idxOf?_eq_none_iff.mp hposition)

/-- The index finds exactly the instructions of the nodes. -/
theorem instrAt_eq_some_iff
    (hg : g.Indexed) :
    g.instrAt loc = some ins ↔ g.Holds ins loc := by
  unfold instrAt Holds
  constructor
  · intro h
    obtain ⟨id, hid, h⟩ := Option.bind_eq_some_iff.mp h
    obtain ⟨position, hposition, h⟩ := Option.bind_eq_some_iff.mp h
    exact ⟨id, (getElem?_eq_some_iff_mem_zip (hg.nodup_locs id) hposition).mp h⟩
  · rintro ⟨id, hmem⟩
    have hid := (hg.nodeAt_iff loc id).mpr (List.of_mem_zip hmem).2
    obtain ⟨position, hposition⟩ := hg.exists_position hid
    rw [hid]
    simp only [Option.bind_eq_bind, Option.bind_some, hposition]
    exact (getElem?_eq_some_iff_mem_zip (hg.nodup_locs id) hposition).mpr hmem

theorem holds_unique
    {ins' : Instr}
    (hg : g.Indexed)
    (h : g.Holds ins loc)
    (h' : g.Holds ins' loc) :
    ins = ins' := by
  rw [← hg.instrAt_eq_some_iff] at h h'
  rw [h] at h'
  exact Option.some.inj h'

end Indexed

namespace Rewrites

variable {f f' : RunStep → Option RunStep}

theorem trans
    (h : Rewrites g g' f)
    (h' : Rewrites g' g'' f') :
    Rewrites g g'' fun x => (f x).bind f' := by
  refine ⟨h'.toDigraph_eq.trans h.toDigraph_eq, h'.order_eq.trans h.order_eq, fun id => ?_⟩
  rw [h'.code_eq, h.code_eq, List.filterMap_filterMap]

theorem trace_eq
    (h : Rewrites g g' f)
    (nodes : List NodeId) :
    g'.trace nodes = (g.trace nodes).filterMap f := by
  simp only [trace, List.filterMap_flatMap, ← h.code_eq]

theorem entry_eq
    (h : Rewrites g g' f) :
    g'.entry = g.entry :=
  congrArg Digraph.entry h.toDigraph_eq

theorem holds_iff
    (h : Rewrites g g' f)
    {x : RunStep} :
    g'.Holds x.1 x.2 ↔ ∃ y, g.Holds y.1 y.2 ∧ f y = some x := by
  simp only [Holds, h.code_eq, List.mem_filterMap]
  constructor
  · rintro ⟨id, y, hy, hx⟩
    exact ⟨y, ⟨id, hy⟩, hx⟩
  · rintro ⟨y, ⟨id, hy⟩, hx⟩
    exact ⟨id, y, hy, hx⟩

/-- The runs of a rewritten graph are those of the graph, rewritten. -/
theorem executes_iff
    (h : Rewrites g g' f)
    {run : List RunStep}
    {x : RunStep} :
    g'.Executes run x ↔
      ∃ before y, g.Executes before y ∧ f y = some x ∧ run = before.filterMap f := by
  unfold Executes
  rw [h.toDigraph_eq, h.entry_eq]
  constructor
  · rintro ⟨n, nodes, after, w, htrace⟩
    rw [h.trace_eq] at htrace
    obtain ⟨before, rest, hsplit, hrun, hrest⟩ := List.filterMap_eq_append_iff.mp htrace
    obtain ⟨skipped, y, tail, hrest', hskipped, hy, -⟩ := List.filterMap_eq_cons_iff.mp hrest
    refine ⟨before ++ skipped, y, ⟨n, nodes, tail, w, by simp [hsplit, hrest']⟩, hy, ?_⟩
    rw [List.filterMap_append, hrun, List.filterMap_eq_nil_iff.mpr hskipped, List.append_nil]
  · rintro ⟨before, y, ⟨n, nodes, after, w, htrace⟩, hy, rfl⟩
    refine ⟨n, nodes, after.filterMap f, w, ?_⟩
    rw [h.trace_eq, htrace]
    simp [hy]

end Rewrites

theorem modifyInstr_cases
    (hg : g.Indexed)
    (loc : Loc)
    (F : Instr → Instr) :
    (g.modifyInstr loc F = g ∧ ∀ id, loc ∉ (g.node id).locs) ∨
      ∃ id position, (g.node id).locs.idxOf? loc = some position ∧
        (∀ n, n ≠ id → loc ∉ (g.node n).locs) ∧
        (g.modifyInstr loc F).toDigraph = g.toDigraph ∧
        (g.modifyInstr loc F).order = g.order ∧
        (g.modifyInstr loc F).locIndex = g.locIndex ∧
        ∀ n, (g.modifyInstr loc F).node n =
          if n = id then { g.node n with ins := (g.node n).ins.modify position F }
          else g.node n := by
  unfold modifyInstr
  cases hnode : g.nodeAt loc with
  | none =>
      refine Or.inl ⟨rfl, fun id hmem => ?_⟩
      rw [(hg.nodeAt_iff loc id).mpr hmem] at hnode
      cases hnode
  | some id =>
      obtain ⟨position, hposition⟩ := hg.exists_position hnode
      have hid := Indexed.lt_size_of_mem ((hg.nodeAt_iff loc id).mp hnode)
      refine Or.inr ⟨id, position, hposition, fun n hne hmem => ?_, ?_⟩
      · rw [(hg.nodeAt_iff loc n).mpr hmem] at hnode
        exact hne (Option.some.inj hnode)
      · simp only [hposition]
        exact ⟨toDigraph_modifyNode _ id _, rfl, rfl, fun n => node_modifyNode _ n _ hid⟩

/-- Changing the instruction at a place changes the steps at that place on every walk. -/
theorem Rewrites.modifyInstr
    (hg : g.Indexed)
    (loc : Loc)
    (F : Instr → Instr) :
    Rewrites g (g.modifyInstr loc F) (modifyAt loc F) := by
  rcases modifyInstr_cases hg loc F with
    ⟨heq, hno⟩ | ⟨id, position, hposition, hno, hshape, horder, -, hnode⟩
  · rw [heq]
    exact ⟨rfl, rfl, fun id => (filterMap_modifyAt_of_not_mem F (hno id)).symm⟩
  · refine ⟨hshape, horder, fun n => ?_⟩
    rw [code, hnode]
    by_cases hn : n = id
    · subst hn
      simp only [if_true]
      exact zip_modify F (hg.nodup_locs n) hposition
    · simp only [hn, if_false]
      exact (filterMap_modifyAt_of_not_mem F (hno n hn)).symm

theorem Indexed.modifyInstr
    (hg : g.Indexed)
    (loc : Loc)
    (F : Instr → Instr) :
    (g.modifyInstr loc F).Indexed := by
  rcases modifyInstr_cases hg loc F with
    ⟨heq, -⟩ | ⟨id, position, -, -, hshape, horder, hindex, hnode⟩
  · rw [heq]
    exact hg
  · have hlocs : ∀ n, ((g.modifyInstr loc F).node n).locs = (g.node n).locs := by
      intro n
      rw [hnode]
      split <;> rfl
    refine ⟨⟨hshape ▸ hg.numbered.wellFormed, ?_, ?_, ?_, ?_⟩, ?_, ?_⟩
    · rw [horder, hg.numbered.current, hshape]
      exact congrArg _ (congrArg Digraph.entry hshape).symm
    · intro n hn
      rw [horder] at hn
      rw [hlocs, hg.numbered.length_eq n hn, hnode]
      split <;> simp
    · simp only [hlocs, horder]
      exact hg.numbered.nodup
    · simp only [hlocs, horder]
      exact hg.numbered.nonneg
    · simp only [hlocs, nodeAt, hindex]
      exact hg.nodeAt_iff
    · simp only [hlocs, horder]
      exact hg.mem_order

theorem removeInstr_cases
    (hg : g.Indexed)
    (loc : Loc) :
    (g.removeInstr loc = g ∧ ∀ id, loc ∉ (g.node id).locs) ∨
      ∃ id position, (g.node id).locs.idxOf? loc = some position ∧
        (∀ n, n ≠ id → loc ∉ (g.node n).locs) ∧
        (g.removeInstr loc).toDigraph = g.toDigraph ∧
        (g.removeInstr loc).order = g.order ∧
        (g.removeInstr loc).locIndex = OrderedMap.erase loc g.locIndex ∧
        ∀ n, (g.removeInstr loc).node n =
          if n = id then
            { g.node n with
              ins := (g.node n).ins.eraseIdx position
              locs := (g.node n).locs.eraseIdx position }
          else g.node n := by
  unfold removeInstr
  cases hnode : g.nodeAt loc with
  | none =>
      refine Or.inl ⟨rfl, fun id hmem => ?_⟩
      rw [(hg.nodeAt_iff loc id).mpr hmem] at hnode
      cases hnode
  | some id =>
      obtain ⟨position, hposition⟩ := hg.exists_position hnode
      have hid : id < { g with locIndex := OrderedMap.erase loc g.locIndex }.size :=
        Indexed.lt_size_of_mem ((hg.nodeAt_iff loc id).mp hnode)
      have hposition' : ({ g with locIndex := OrderedMap.erase loc g.locIndex }.node id).locs.idxOf?
          loc = some position := hposition
      refine Or.inr ⟨id, position, hposition, fun n hne hmem => ?_, ?_⟩
      · rw [(hg.nodeAt_iff loc n).mpr hmem] at hnode
        exact hne (Option.some.inj hnode)
      · simp only [hposition']
        exact ⟨toDigraph_modifyNode _ id _, rfl, rfl, fun n => node_modifyNode _ n _ hid⟩

/-- Removing the instruction at a place leaves its steps out on every walk. -/
theorem Rewrites.removeInstr
    (hg : g.Indexed)
    (loc : Loc) :
    Rewrites g (g.removeInstr loc) (dropAt loc) := by
  rcases removeInstr_cases hg loc with
    ⟨heq, hno⟩ | ⟨id, position, hposition, hno, hshape, horder, -, hnode⟩
  · rw [heq]
    exact ⟨rfl, rfl, fun id => (filterMap_dropAt_of_not_mem (hno id)).symm⟩
  · refine ⟨hshape, horder, fun n => ?_⟩
    rw [code, hnode]
    by_cases hn : n = id
    · subst hn
      simp only [if_true]
      exact zip_eraseIdx (hg.nodup_locs n) hposition
    · simp only [hn, if_false]
      exact (filterMap_dropAt_of_not_mem (hno n hn)).symm

theorem Indexed.removeInstr
    (hg : g.Indexed)
    (loc : Loc) :
    (g.removeInstr loc).Indexed := by
  rcases removeInstr_cases hg loc with
    ⟨heq, -⟩ | ⟨id, position, hposition, hno, hshape, horder, hindex, hnode⟩
  · rw [heq]
    exact hg
  · have hmem : ∀ n l, l ∈ ((g.removeInstr loc).node n).locs ↔ l ∈ (g.node n).locs ∧ l ≠ loc := by
      intro n l
      rw [hnode]
      by_cases hn : n = id
      · subst hn
        simp only [if_true]
        exact mem_eraseIdx_iff (hg.nodup_locs n) hposition
      · simp only [hn, if_false]
        exact ⟨fun h => ⟨h, fun heq => hno n hn (heq ▸ h)⟩, And.left⟩
    have hnodup : ∀ n, ((g.removeInstr loc).node n).locs.Nodup := by
      intro n
      rw [hnode]
      split
      · exact (hg.nodup_locs n).sublist (List.eraseIdx_sublist _ _)
      · exact hg.nodup_locs n
    refine ⟨⟨hshape ▸ hg.numbered.wellFormed, ?_, ?_, ?_, ?_⟩, ?_, ?_⟩
    · rw [horder, hg.numbered.current, hshape]
      exact congrArg _ (congrArg Digraph.entry hshape).symm
    · intro n hn
      rw [horder] at hn
      have hlength := hg.numbered.length_eq n hn
      rw [hnode]
      split
      · simp only [List.length_eraseIdx, hlength]
      · exact hlength
    · rw [horder]
      refine List.nodup_flatMap.mpr ⟨fun n _ => hnodup n, ?_⟩
      refine (List.nodup_flatMap.mp hg.numbered.nodup).2.imp fun hdisjoint l hl hl' => ?_
      exact hdisjoint ((hmem _ l).mp hl).1 ((hmem _ l).mp hl').1
    · intro n hn l hl
      rw [horder] at hn
      exact hg.numbered.nonneg n hn l ((hmem n l).mp hl).1
    · intro l n
      rw [hmem, ← hg.nodeAt_iff]
      simp only [nodeAt, hindex, OrderedMap.lookup_erase]
      by_cases hl : l = loc
      · simp [hl]
      · simp [hl]
    · intro n l hl
      rw [horder]
      exact hg.mem_order n l ((hmem n l).mp hl).1

end Edits

end FlowGraph
end DalvikDecompiler
