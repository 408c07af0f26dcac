import DalvikDecompiler.Proofs.FlowGraph.Rewriting

/-!
# Numbered instructions

**Input.** A graph whose nodes are ordered, and none of whose instructions has
a place.

The nodes of the order are numbered one after another.  After each node, the
places given out are below the next one, each belongs to one node, and the
index finds them.

**Results.**
* `reorder_sameCode`: ordering a graph keeps its shape and its code.
* `numberInstructions_indexed`: numbering gives each instruction of the order a
  place of its own, and keeps the instructions.
-/

namespace DalvikDecompiler
namespace FlowGraph

/-- Another graph has the same shape and the same instructions at the same places. -/
structure SameCode (g g' : FlowGraph) : Prop where
  toDigraph_eq : g'.toDigraph = g.toDigraph
  ins_eq : ∀ id, (g'.node id).ins = (g.node id).ins
  locs_eq : ∀ id, (g'.node id).locs = (g.node id).locs

section SameCode

variable {g g' g'' : FlowGraph}

theorem SameCode.trans
    (h : SameCode g g')
    (h' : SameCode g' g'') :
    SameCode g g'' :=
  ⟨h'.toDigraph_eq.trans h.toDigraph_eq, fun id => (h'.ins_eq id).trans (h.ins_eq id),
    fun id => (h'.locs_eq id).trans (h.locs_eq id)⟩

theorem sameCode_of_slots
    (f : NodeId → Node → Node)
    (hf : ∀ id n, (f id n).ins = n.ins ∧ (f id n).locs = n.locs)
    (hentry : g'.entry = g.entry)
    (hslots : ∀ n : NodeId,
      g'.slots[n]? = g.slots[n]?.map fun slot => { slot with node := f n slot.node }) :
    SameCode g g' := by
  refine ⟨toDigraph_eq_of_slots g f hentry hslots, fun id => ?_, fun id => ?_⟩
  · rw [node, node, hslots]
    cases g.slots[id]? with
    | none => rfl
    | some slot => exact (hf id slot.node).1
  · rw [node, node, hslots]
    cases g.slots[id]? with
    | none => rfl
    | some slot => exact (hf id slot.node).2

theorem sameCode_modifyNode
    {f : Node → Node}
    (hf : ∀ n, (f n).ins = n.ins ∧ (f n).locs = n.locs)
    (id : NodeId) :
    SameCode g (g.modifyNode id f) := by
  refine sameCode_of_slots (fun n => if n = id then f else fun x => x) ?_ rfl fun n => ?_
  · intro n node
    split
    · exact hf node
    · exact ⟨rfl, rfl⟩
  · rw [slots_modifyNode]
    congr 1
    funext slot
    split <;> rfl

/-- Changes made one after another that each keep the code. -/
theorem sameCode_foldl
    {α : Type}
    {f : FlowGraph → α → FlowGraph}
    (hf : ∀ g x, SameCode g (f g x) ∧ (f g x).order = g.order)
    (xs : List α)
    (g : FlowGraph) :
    SameCode g (xs.foldl f g) ∧ (xs.foldl f g).order = g.order := by
  induction xs generalizing g with
  | nil => exact ⟨⟨rfl, fun _ => rfl, fun _ => rfl⟩, rfl⟩
  | cons x xs ih =>
      obtain ⟨hsame, horder⟩ := hf g x
      obtain ⟨hsame', horder'⟩ := ih (f g x)
      exact ⟨hsame.trans hsame', horder'.trans horder⟩

theorem reorder_sameCode
    (g : FlowGraph) :
    SameCode g g.reorder ∧ g.reorder.order = g.toDigraph.reversePostorder g.entry := by
  let cleared : FlowGraph :=
    { g with
      slots := g.slots.map fun slot => { slot with node := { slot.node with num := 0 } }
      order := g.toDigraph.reversePostorder g.entry }
  have hcleared : SameCode g cleared :=
    sameCode_of_slots (fun _ n => { n with num := 0 }) (fun _ _ => ⟨rfl, rfl⟩) rfl
      fun n => by simp [cleared]
  obtain ⟨hsame, horder⟩ := sameCode_foldl
    (f := fun g (x : NodeId × Nat) => g.modifyNode x.1 fun n => { n with num := x.2 + 1 })
    (fun g x => ⟨sameCode_modifyNode (by intro n; exact ⟨rfl, rfl⟩) x.1, rfl⟩)
    (g.toDigraph.reversePostorder g.entry).zipIdx cleared
  exact ⟨hcleared.trans hsame, horder⟩

end SameCode

section Numbering

variable {g : FlowGraph} {next loc : Loc} {done : List NodeId} {id : NodeId}

/-- What holds when some nodes have been numbered: their places are below the next one, and the
index finds them. -/
structure Numbering (g : FlowGraph) (next : Loc) (done : List NodeId) : Prop where
  next_nonneg : 0 ≤ next
  length_eq : ∀ id, id ∈ done → (g.node id).locs.length = (g.node id).ins.length
  nodup : (done.flatMap fun id => (g.node id).locs).Nodup
  bounds : ∀ id loc, loc ∈ (g.node id).locs → id ∈ done ∧ 0 ≤ loc ∧ loc < next
  nodeAt_iff : ∀ loc id, g.nodeAt loc = some id ↔ loc ∈ (g.node id).locs

theorem lookup_foldl_insert
    (locs : List Loc)
    (index : List (Loc × NodeId)) :
    (locs.foldl (fun index l => OrderedMap.insert l id index) index).lookup loc =
      if loc ∈ locs then some id else index.lookup loc := by
  induction locs generalizing index with
  | nil => simp
  | cons l locs ih =>
      rw [List.foldl_cons, ih, OrderedMap.lookup_insert]
      by_cases hmem : loc ∈ locs
      · simp [hmem]
      · by_cases hl : loc = l
        · simp [hl]
        · simp [hmem, hl]

/-- The places given to the instructions of a node. -/
def placesFrom (next : Int) (count : Nat) : List Int :=
  (List.range count).map fun (i : Nat) => next + i

theorem mem_placesFrom
    {next l : Int}
    {count : Nat} :
    l ∈ placesFrom next count ↔ next ≤ l ∧ l < next + count := by
  simp only [placesFrom, List.mem_map, List.mem_range]
  constructor
  · rintro ⟨i, hi, rfl⟩
    omega
  · rintro ⟨hle, hlt⟩
    exact ⟨(l - next).toNat, by omega, by omega⟩

theorem nodup_placesFrom
    (next : Int)
    (count : Nat) :
    (placesFrom next count).Nodup := by
  refine List.nodup_range.map fun i j hij => ?_
  have hij : next + (i : Int) = next + (j : Int) := hij
  omega

/-- Give the instructions of a node the places from a given one on. -/
def numberNode (g : FlowGraph) (next : Loc) (id : NodeId) : FlowGraph :=
  let locs := placesFrom next (g.node id).ins.length
  { g.modifyNode id fun n => { n with locs } with
    locIndex := locs.foldl (fun index l => OrderedMap.insert l id index) g.locIndex }

theorem numberFrom_cons
    (g : FlowGraph)
    (next : Loc)
    (id : NodeId)
    (rest : List NodeId) :
    g.numberFrom next (id :: rest) =
      (g.numberNode next id).numberFrom (next + (g.node id).ins.length) rest :=
  rfl

theorem node_numberNode
    (next : Loc)
    (hid : id < g.size)
    (n : NodeId) :
    ((g.numberNode next id).node n).ins = (g.node n).ins ∧
      ((g.numberNode next id).node n).locs =
        if n = id then placesFrom next (g.node id).ins.length else (g.node n).locs := by
  have hnode : (g.numberNode next id).node n =
      if n = id then { g.node n with locs := placesFrom next (g.node id).ins.length }
      else g.node n :=
    node_modifyNode g n (fun n => { n with locs := placesFrom next (g.node id).ins.length }) hid
  rw [hnode]
  split
  · exact ⟨rfl, rfl⟩
  · exact ⟨rfl, rfl⟩

theorem toDigraph_numberNode
    (g : FlowGraph)
    (next : Loc)
    (id : NodeId) :
    (g.numberNode next id).toDigraph = g.toDigraph :=
  toDigraph_modifyNode g id fun n => { n with locs := placesFrom next (g.node id).ins.length }

/-- The places of the next node are above those given out before. -/
theorem Numbering.numberNode
    (h : Numbering g next done)
    (hid : id < g.size)
    (hnew : id ∉ done) :
    Numbering (g.numberNode next id) (next + (g.node id).ins.length) (done ++ [id]) := by
  have hempty : (g.node id).locs = [] :=
    List.eq_nil_iff_forall_not_mem.mpr fun l hl => hnew (h.bounds id l hl).1
  have hlocs := fun n => (node_numberNode next hid n).2
  have hother : ∀ n, n ∈ done → ((g.numberNode next id).node n).locs = (g.node n).locs := by
    intro n hn
    have hne : n ≠ id := fun heq => hnew (heq ▸ hn)
    rw [hlocs, if_neg hne]
  have hmem : ∀ n l, l ∈ ((g.numberNode next id).node n).locs ↔
      l ∈ (g.node n).locs ∨ (n = id ∧ l ∈ placesFrom next (g.node id).ins.length) := by
    intro n l
    rw [hlocs]
    split
    · rename_i heq
      simp [heq, hempty]
    · rename_i hne
      simp [hne]
  refine ⟨?_, fun n hn => ?_, ?_, fun n l hl => ?_, fun l n => ?_⟩
  · exact Int.add_nonneg h.next_nonneg (Int.natCast_nonneg _)
  · rw [(node_numberNode next hid n).1, hlocs]
    split
    · rename_i heq
      simp [placesFrom, heq]
    · rename_i hne
      have hn : n ∈ done := by simpa [hne] using hn
      exact h.length_eq n hn
  · rw [List.flatMap_append, List.flatMap_singleton]
    refine List.nodup_append.mpr ⟨?_, ?_, ?_⟩
    · rw [List.flatMap_congr hother]
      exact h.nodup
    · rw [hlocs, if_pos rfl]
      exact nodup_placesFrom _ _
    · rintro l hl l' hl' rfl
      obtain ⟨n, hn, hl⟩ := List.mem_flatMap.mp hl
      rw [hother n hn] at hl
      rw [hlocs, if_pos rfl] at hl'
      exact absurd (h.bounds n l hl).2.2 (Int.not_lt.mpr (mem_placesFrom.mp hl').1)
  · rcases (hmem n l).mp hl with hl | ⟨rfl, hl⟩
    · obtain ⟨hn, hnonneg, hlt⟩ := h.bounds n l hl
      exact ⟨by simp [hn], hnonneg, Int.lt_of_lt_of_le hlt (Int.le_add_of_nonneg_right
        (Int.natCast_nonneg _))⟩
    · obtain ⟨hle, hlt⟩ := mem_placesFrom.mp hl
      exact ⟨by simp, Int.le_trans h.next_nonneg hle, hlt⟩
  · have hlookup : (g.numberNode next id).nodeAt l =
        if l ∈ placesFrom next (g.node id).ins.length then some id else g.nodeAt l :=
      lookup_foldl_insert _ _
    rw [hlookup, hmem]
    by_cases hl : l ∈ placesFrom next (g.node id).ins.length
    · have hnot : ∀ k, l ∉ (g.node k).locs := fun k hk =>
        absurd (h.bounds k l hk).2.2 (Int.not_lt.mpr (mem_placesFrom.mp hl).1)
      simp [hl, hnot, eq_comm]
    · simp [hl, h.nodeAt_iff]

/-- Numbering several nodes keeps the shape of the graph and its instructions. -/
theorem Numbering.numberFrom
    {ids : List NodeId}
    (h : Numbering g next done)
    (hids : ∀ id, id ∈ ids → id < g.size)
    (hnodup : (done ++ ids).Nodup) :
    (∃ next', Numbering (g.numberFrom next ids) next' (done ++ ids)) ∧
      (g.numberFrom next ids).toDigraph = g.toDigraph ∧
      (g.numberFrom next ids).order = g.order ∧
      ∀ n, ((g.numberFrom next ids).node n).ins = (g.node n).ins := by
  induction ids generalizing g next done with
  | nil => exact ⟨⟨next, by simpa [FlowGraph.numberFrom] using h⟩, rfl, rfl, fun _ => rfl⟩
  | cons id ids ih =>
      have hid := hids id (by simp)
      have hnew : id ∉ done := fun hmem =>
        (List.nodup_append.mp hnodup).2.2 id hmem id (by simp) rfl
      have hsize : (g.numberNode next id).size = g.size :=
        congrArg Digraph.size (toDigraph_numberNode g next id)
      obtain ⟨⟨next', h'⟩, hshape, horder, hins⟩ := ih (h.numberNode hid hnew)
        (fun n hn => hsize ▸ hids n (by simp [hn])) (by simpa using hnodup)
      rw [← numberFrom_cons] at h' hshape horder hins
      refine ⟨⟨next', by simpa using h'⟩, hshape.trans (toDigraph_numberNode g next id),
        horder, fun n => ?_⟩
      rw [hins, (node_numberNode next hid n).1]

/-- **Numbering.**  In a graph that is ordered and has no places, numbering gives each instruction
of the order a place of its own. -/
theorem numberInstructions_indexed
    (hwf : g.toDigraph.WellFormed)
    (hcurrent : g.order = g.toDigraph.reversePostorder g.entry)
    (hlocs : ∀ id, (g.node id).locs = []) :
    g.numberInstructions.Indexed ∧ ∀ n, (g.numberInstructions.node n).ins = (g.node n).ins := by
  have hstart : Numbering { g with locIndex := [] } 0 [] := by
    refine ⟨Int.le_refl 0, by simp, by simp, fun id loc hloc => ?_, fun loc id => ?_⟩
    · change loc ∈ (g.node id).locs at hloc
      simp [hlocs] at hloc
    · change ([] : List (Loc × NodeId)).lookup loc = some id ↔ loc ∈ (g.node id).locs
      simp [hlocs]
  have hlt : ∀ id, id ∈ g.order → id < g.size := by
    intro id hid
    rw [hcurrent, Digraph.reversePostorder, List.mem_reverse] at hid
    rcases Digraph.mem_of_mem_leaveOrder _ hid with hstack | hrange
    · simp at hstack
    · exact List.mem_range.mp hrange
  have hnodup : g.order.Nodup := by
    rw [hcurrent]
    exact List.nodup_reverse.mpr (Digraph.postorder_nodup _ _)
  obtain ⟨⟨next, h⟩, hshape, horder, hins⟩ := hstart.numberFrom hlt (by simpa using hnodup)
  rw [List.nil_append] at h
  have horder' : g.numberInstructions.order = g.order := horder
  have hshape' : g.numberInstructions.toDigraph = g.toDigraph := hshape
  refine ⟨⟨⟨hshape' ▸ hwf, ?_, ?_, ?_, ?_⟩, h.nodeAt_iff, ?_⟩, hins⟩
  · rw [horder', hcurrent, hshape']
    exact congrArg _ (congrArg Digraph.entry hshape').symm
  · rw [horder']
    exact h.length_eq
  · rw [horder']
    exact h.nodup
  · exact fun id _ loc hloc => (h.bounds id loc hloc).2.1
  · rw [horder']
    exact fun id loc hloc => (h.bounds id loc hloc).1

end Numbering

end FlowGraph
end DalvikDecompiler
