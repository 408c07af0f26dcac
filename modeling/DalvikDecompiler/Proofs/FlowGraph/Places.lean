import DalvikDecompiler.Proofs.FlowGraph.Numbering
import DalvikDecompiler.Proofs.FlowGraph.References

/-!
# The places of instructions

**Input.** A flow graph whose nodes hold instructions together with their places, and an index that
leads from places to nodes.

Instructions are edited and removed by their places, nodes are split, joined and left out.  While
nodes move, the index may lag behind; it is renewed in the end from what the nodes hold.

**Results.**
* `Laid`, `Exact`: places are given out once, and the index tells where they are.
* `Exact.instrAt_eq_some_iff`: the index finds exactly the instructions of the nodes of the graph.
* `Exact.instrAt_modifyInstr`, `Exact.instrAt_removeInstr`: an edit at a place is one of the
  instruction at this place.
* `Exact.splitBranches`, `Exact.compact`: cleaning up keeps the index exact.
-/

namespace DalvikDecompiler
namespace FlowGraph

open Symbolic (Instr)

/-- Every instruction of a node has a place, and no place is given out twice. -/
structure Laid (g : FlowGraph) : Prop where
  located : g.Located
  nodup : ∀ n, g.isLive n = true → (g.node n).locs.Nodup
  apart : ∀ n m, g.isLive n = true → g.isLive m = true →
    ∀ l ∈ (g.node n).locs, l ∈ (g.node m).locs → n = m

/-- The index leads from each place of a node of the graph to this node, and from no other place. -/
structure Exact (g : FlowGraph) : Prop extends Laid g where
  keys_nodup : (g.locIndex.map Prod.fst).Nodup
  nodeAt_iff : ∀ l n, g.nodeAt l = some n ↔ g.isLive n = true ∧ l ∈ (g.node n).locs

/-- The nodes of another graph hold the code that they held before, or none if they are new. -/
structure Inherits (g g' : FlowGraph) : Prop where
  old : ∀ n, g'.isLive n = true → g.isLive n = true →
    (g'.node n).ins = (g.node n).ins ∧ (g'.node n).locs = (g.node n).locs
  new : ∀ n, g'.isLive n = true → g.isLive n = false →
    (g'.node n).ins = [] ∧ (g'.node n).locs = []

variable {g g' : FlowGraph} {id succ n : NodeId} {l k : Loc} {ins : Instr} {f : Instr → Instr}

section Finding

theorem Exact.exists_position
    (h : g.Exact)
    (hfound : g.nodeAt l = some n) :
    ∃ position, (g.node n).locs.idxOf? l = some position := by
  cases hplace : (g.node n).locs.idxOf? l with
  | some position => exact ⟨position, rfl⟩
  | none => exact absurd ((h.nodeAt_iff l n).1 hfound).2 (List.idxOf?_eq_none_iff.1 hplace)

/-- The entries of the index lead to nodes of the graph. -/
theorem Exact.mem_locIndex_iff
    (h : g.Exact)
    (entry : Loc × NodeId) :
    entry ∈ g.locIndex ↔ g.isLive entry.2 = true ∧ entry.1 ∈ (g.node entry.2).locs :=
  (OrderedMap.mem_iff_lookup_eq_some h.keys_nodup).trans (h.nodeAt_iff entry.1 entry.2)

/-- **The index finds exactly the instructions of the nodes.** -/
theorem Exact.instrAt_eq_some_iff
    (h : g.Exact) :
    g.instrAt l = some ins ↔ g.Carries (ins, l) := by
  unfold instrAt Carries
  constructor
  · intro hfound
    obtain ⟨n, hnode, hfound⟩ := Option.bind_eq_some_iff.1 hfound
    obtain ⟨position, hplace, hfound⟩ := Option.bind_eq_some_iff.1 hfound
    have hlive := ((h.nodeAt_iff l n).1 hnode).1
    exact ⟨n, hlive, (getElem?_eq_some_iff_mem_zip (h.nodup n hlive) hplace).1 hfound⟩
  · rintro ⟨n, hlive, hmem⟩
    have hnode := (h.nodeAt_iff l n).2 ⟨hlive, (List.of_mem_zip hmem).2⟩
    obtain ⟨position, hplace⟩ := h.exists_position hnode
    rw [hnode]
    simp only [Option.bind_eq_bind, Option.bind_some, hplace]
    exact (getElem?_eq_some_iff_mem_zip (h.nodup n hlive) hplace).2 hmem

end Finding

section Editing

theorem Exact.modifyInstr_cases
    (h : g.Exact)
    (l : Loc)
    (f : Instr → Instr) :
    (g.modifyInstr l f = g ∧ ∀ n, g.isLive n = true → l ∉ (g.node n).locs) ∨
      ∃ n position, g.isLive n = true ∧ l ∈ (g.node n).locs ∧
        (g.node n).locs.idxOf? l = some position ∧
        g.modifyInstr l f =
          g.modifyNode n fun node => { node with ins := node.ins.modify position f } := by
  unfold modifyInstr
  cases hfound : g.nodeAt l with
  | none =>
      refine .inl ⟨rfl, fun n hlive hmem => ?_⟩
      rw [(h.nodeAt_iff l n).2 ⟨hlive, hmem⟩] at hfound
      cases hfound
  | some n =>
      obtain ⟨position, hplace⟩ := h.exists_position hfound
      obtain ⟨hlive, hmem⟩ := (h.nodeAt_iff l n).1 hfound
      refine .inr ⟨n, position, hlive, hmem, hplace, ?_⟩
      simp only [hplace]

theorem Exact.removeInstr_cases
    (h : g.Exact)
    (l : Loc) :
    (g.removeInstr l = g ∧ ∀ n, g.isLive n = true → l ∉ (g.node n).locs) ∨
      ∃ n position, g.isLive n = true ∧ l ∈ (g.node n).locs ∧
        (g.node n).locs.idxOf? l = some position ∧
        g.removeInstr l =
          { g with locIndex := OrderedMap.erase l g.locIndex }.modifyNode n fun node =>
            { node with
              ins := node.ins.eraseIdx position
              locs := node.locs.eraseIdx position } := by
  unfold removeInstr
  cases hfound : g.nodeAt l with
  | none =>
      refine .inl ⟨rfl, fun n hlive hmem => ?_⟩
      rw [(h.nodeAt_iff l n).2 ⟨hlive, hmem⟩] at hfound
      cases hfound
  | some n =>
      obtain ⟨position, hplace⟩ := h.exists_position hfound
      obtain ⟨hlive, hmem⟩ := (h.nodeAt_iff l n).1 hfound
      have hplace' : ({ g with locIndex := OrderedMap.erase l g.locIndex }.node n).locs.idxOf? l =
          some position := hplace
      refine .inr ⟨n, position, hlive, hmem, hplace, ?_⟩
      simp only [hplace']

/-- A change at a place leaves places and index alone. -/
theorem Exact.modifyInstr
    (h : g.Exact)
    (l : Loc)
    (f : Instr → Instr) :
    (g.modifyInstr l f).Exact := by
  obtain ⟨hsame, -⟩ | ⟨n, position, hlive, -, -, hchanged⟩ := h.modifyInstr_cases l f
  · rw [hsame]
    exact h
  rw [hchanged]
  have hnode (m : NodeId) := node_modifyNode g m
    (fun node => { node with ins := node.ins.modify position f }) (lt_size_of_isLive hlive)
  have hlocs (m : NodeId) : ((g.modifyNode n fun node =>
      { node with ins := node.ins.modify position f }).node m).locs = (g.node m).locs := by
    rw [hnode]
    split <;> rfl
  refine ⟨⟨fun m hthere => ?_, fun m hthere => ?_, fun m m' hthere hthere' => ?_⟩, h.keys_nodup,
    fun l m => ?_⟩
  · rw [isLive_modifyNode] at hthere
    rw [hlocs, h.located m hthere, hnode]
    split <;> simp
  · rw [isLive_modifyNode] at hthere
    exact hlocs m ▸ h.nodup m hthere
  · rw [isLive_modifyNode] at hthere hthere'
    rw [hlocs, hlocs]
    exact h.apart m m' hthere hthere'
  · rw [isLive_modifyNode, hlocs]
    exact h.nodeAt_iff l m

/-- An instruction that is removed takes its place with it. -/
theorem Exact.removeInstr
    (h : g.Exact)
    (l : Loc) :
    (g.removeInstr l).Exact := by
  obtain ⟨hsame, -⟩ | ⟨n, position, hlive, hinside, hplace, hchanged⟩ := h.removeInstr_cases l
  · rw [hsame]
    exact h
  rw [hchanged]
  have hnode (m : NodeId) := node_modifyNode { g with locIndex := OrderedMap.erase l g.locIndex } m
    (fun node => { node with
      ins := node.ins.eraseIdx position
      locs := node.locs.eraseIdx position }) (lt_size_of_isLive hlive)
  generalize hedited : ({ g with locIndex := OrderedMap.erase l g.locIndex } : FlowGraph).modifyNode
    n
    _ = g' at hnode
  have hisLive (m : NodeId) : g'.isLive m = g.isLive m := hedited ▸ isLive_modifyNode ..
  have hmem_locs (m : NodeId) (hthere : g.isLive m = true) (k : Loc) :
      k ∈ (g'.node m).locs ↔ k ∈ (g.node m).locs ∧ k ≠ l := by
    rw [hnode]
    split
    · next here => exact mem_eraseIdx_iff (h.nodup m hthere) (here ▸ hplace)
    · next hother =>
        exact ⟨fun hmem => ⟨hmem, fun hsame =>
          hother (h.apart m n hthere hlive l (hsame ▸ hmem) hinside)⟩,
          And.left⟩
  refine ⟨⟨fun m hthere => ?_, fun m hthere => ?_, fun m m' hthere hthere' k hmem hmem' => ?_⟩, ?_,
    fun k m => ?_⟩
  · rw [hisLive] at hthere
    have hlength := h.located m hthere
    rw [hnode]
    split
    · change ((g.node m).locs.eraseIdx position).length = ((g.node m).ins.eraseIdx position).length
      rw [List.length_eraseIdx, List.length_eraseIdx, hlength]
    · exact hlength
  · rw [hisLive] at hthere
    rw [hnode]
    split
    · exact (h.nodup m hthere).sublist (List.eraseIdx_sublist ..)
    · exact h.nodup m hthere
  · rw [hisLive] at hthere hthere'
    exact h.apart m m' hthere hthere' k ((hmem_locs m hthere k).1 hmem).1
      ((hmem_locs m' hthere' k).1 hmem').1
  · have hindex : g'.locIndex = OrderedMap.erase l g.locIndex := hedited ▸ rfl
    rw [hindex]
    exact h.keys_nodup.sublist (List.filter_sublist.map Prod.fst)
  · have hfound : g'.nodeAt k = if k == l then none else g.nodeAt k :=
      hedited ▸ OrderedMap.lookup_erase g.locIndex
    rw [hfound, hisLive]
    by_cases hthere : g.isLive m = true
    · rw [hmem_locs m hthere]
      by_cases hsame : k = l
      · simp [hsame]
      · simp [hsame, h.nodeAt_iff]
    · simp only [hthere, Bool.false_eq_true, false_and, iff_false]
      split
      · exact nofun
      · exact fun hfound => hthere ((h.nodeAt_iff k m).1 hfound).1

/-- What is carried when the code of all nodes has been rewritten step by step. -/
theorem carries_iff_of_code
    {F : RunStep → Option RunStep}
    {x : RunStep}
    (hlive : ∀ n, g'.isLive n = g.isLive n)
    (hcode : ∀ n, g.isLive n = true → g'.code n = (g.code n).filterMap F) :
    g'.Carries x ↔ ∃ y, g.Carries y ∧ F y = some x := by
  constructor
  · rintro ⟨n, hlive', hmem⟩
    rw [hlive] at hlive'
    rw [hcode n hlive'] at hmem
    obtain ⟨y, hthere, hresult⟩ := List.mem_filterMap.1 hmem
    exact ⟨y, ⟨n, hlive', hthere⟩, hresult⟩
  · rintro ⟨y, ⟨n, hlive', hthere⟩, hresult⟩
    exact ⟨n, (hlive n).trans hlive', hcode n hlive' ▸ List.mem_filterMap.2 ⟨y, hthere, hresult⟩⟩

theorem Exact.carries_modifyInstr
    (h : g.Exact)
    (l : Loc)
    (f : Instr → Instr)
    (x : RunStep) :
    (g.modifyInstr l f).Carries x ↔ ∃ y, g.Carries y ∧ modifyAt l f y = some x := by
  obtain ⟨hsame, habsent⟩ | ⟨n, position, hlive, hinside, hplace, hchanged⟩ :=
    h.modifyInstr_cases l f
  · rw [hsame]
    exact carries_iff_of_code (fun _ => rfl) fun m hthere =>
      (filterMap_modifyAt_of_not_mem f (habsent m hthere)).symm
  · rw [hchanged]
    refine carries_iff_of_code (fun m => isLive_modifyNode ..) fun m hthere => ?_
    rw [code, node_modifyNode g m _ (lt_size_of_isLive hlive)]
    split
    · next here => exact zip_modify f (h.nodup m hthere) (here ▸ hplace)
    · next hother =>
        exact (filterMap_modifyAt_of_not_mem f fun hmem =>
          hother (h.apart m n hthere hlive l hmem hinside)).symm

theorem Exact.carries_removeInstr
    (h : g.Exact)
    (l : Loc)
    (x : RunStep) :
    (g.removeInstr l).Carries x ↔ ∃ y, g.Carries y ∧ dropAt l y = some x := by
  obtain ⟨hsame, habsent⟩ | ⟨n, position, hlive, hinside, hplace, hchanged⟩ := h.removeInstr_cases l
  · rw [hsame]
    exact carries_iff_of_code (fun _ => rfl) fun m hthere =>
      (filterMap_dropAt_of_not_mem (habsent m hthere)).symm
  · rw [hchanged]
    refine carries_iff_of_code (fun m => isLive_modifyNode ..) fun m hthere => ?_
    rw [code, node_modifyNode { g with locIndex := OrderedMap.erase l g.locIndex } m _
      (lt_size_of_isLive hlive)]
    split
    · next here => exact zip_eraseIdx (h.nodup m hthere) (here ▸ hplace)
    · next hother =>
        exact (filterMap_dropAt_of_not_mem fun hmem =>
          hother (h.apart m n hthere hlive l hmem hinside)).symm

/-- **A change at a place is one of the instruction at this place.** -/
theorem Exact.instrAt_modifyInstr
    (h : g.Exact)
    (l : Loc)
    (f : Instr → Instr)
    (k : Loc) :
    (g.modifyInstr l f).instrAt k = if k = l then (g.instrAt k).map f else g.instrAt k := by
  refine Option.ext fun i => ?_
  rw [(h.modifyInstr l f).instrAt_eq_some_iff, h.carries_modifyInstr]
  have hstep (j : Instr) (k' : Loc) : modifyAt l f (j, k') = some (i, k) ↔
      k' = k ∧ (if k = l then f j else j) = i := by
    unfold modifyAt
    grind
  simp only [Prod.exists, hstep]
  split
  · simp [h.instrAt_eq_some_iff]
  · simp [h.instrAt_eq_some_iff]

/-- **The instruction at a place is removed, and no other one.** -/
theorem Exact.instrAt_removeInstr
    (h : g.Exact)
    (l k : Loc) :
    (g.removeInstr l).instrAt k = if k = l then none else g.instrAt k := by
  refine Option.ext fun i => ?_
  rw [(h.removeInstr l).instrAt_eq_some_iff, h.carries_removeInstr]
  have hstep (y : RunStep) : dropAt l y = some (i, k) ↔ y = (i, k) ∧ k ≠ l := by
    unfold dropAt
    grind
  simp only [hstep]
  split
  · next here => simp [here]
  · next hother => simp [hother, h.instrAt_eq_some_iff]

end Editing

section Renewing

/-- The index that is built node by node leads to the node of a place. -/
theorem lookup_foldl_locs
    {ids : List NodeId}
    (locs : NodeId → List Loc)
    (hapart : ∀ n ∈ ids, ∀ m ∈ ids, l ∈ locs n → l ∈ locs m → n = m)
    (index : List (Loc × NodeId)) :
    (ids.foldl (fun index id =>
      (locs id).foldl (fun index l => OrderedMap.insert l id index) index) index).lookup l =
        some n ↔
      n ∈ ids ∧ l ∈ locs n ∨ (∀ m ∈ ids, l ∉ locs m) ∧ index.lookup l = some n := by
  induction ids generalizing index with
  | nil => simp
  | cons id ids ih =>
      rw [List.foldl_cons, ih fun n hmem m hmem' =>
        hapart n (List.mem_cons_of_mem id hmem) m (List.mem_cons_of_mem id hmem'),
          lookup_foldl_insert]
      have honly {m : NodeId} (hmem : m ∈ ids) (hinside : l ∈ locs id)
        (hthere : l ∈ locs m) : id = m :=
        hapart id List.mem_cons_self m (List.mem_cons_of_mem id hmem) hinside hthere
      grind

theorem nodup_keys_foldl_insert
    (locs : List Loc)
    (id : NodeId)
    {index : List (Loc × NodeId)}
    (hnodup : (index.map Prod.fst).Nodup) :
    ((locs.foldl (fun index l => OrderedMap.insert l id index) index).map Prod.fst).Nodup :=
  List.foldlRecOn (motive := fun index : List (Loc × NodeId) => (index.map Prod.fst).Nodup) locs _
    hnodup fun _ hnodup _ _ => OrderedMap.nodup_keys_insert hnodup

/-- **The index is renewed from what the nodes hold.** -/
theorem Laid.reindex
    (h : g.Laid) :
    g.reindex.Exact where
  located := h.located
  nodup := h.nodup
  apart := h.apart
  keys_nodup :=
    List.foldlRecOn (motive := fun index : List (Loc × NodeId) => (index.map Prod.fst).Nodup)
      g.liveIds _ List.nodup_nil fun _ hnodup id _ => nodup_keys_foldl_insert _ id hnodup
  nodeAt_iff l n := by
    refine (lookup_foldl_locs (fun id => (g.node id).locs) (fun n hmem m hmem' =>
      h.apart n m (mem_liveIds_iff.1 hmem) (mem_liveIds_iff.1 hmem') l) []).trans ?_
    simp only [List.lookup_nil, reduceCtorEq, and_false, or_false, mem_liveIds_iff]
    rfl

end Renewing

section Inheriting

variable (h : Inherits g g')

include h

theorem Inherits.held
    (hlive : g'.isLive n = true)
    (hmem : l ∈ (g'.node n).locs) :
    g.isLive n = true ∧ l ∈ (g.node n).locs := by
  cases hold : g.isLive n with
  | true => exact ⟨rfl, (h.old n hlive hold).2 ▸ hmem⟩
  | false =>
      rw [(h.new n hlive hold).2] at hmem
      cases hmem

theorem Inherits.laid
    (hlaid : g.Laid) :
    g'.Laid := by
  refine ⟨fun n hlive => ?_, fun n hlive => ?_, fun n m hlive hlive' l hmem hmem' => ?_⟩
  · cases hold : g.isLive n with
    | true =>
        obtain ⟨hins, hlocs⟩ := h.old n hlive hold
        rw [hins, hlocs]
        exact hlaid.located n hold
    | false =>
        obtain ⟨hins, hlocs⟩ := h.new n hlive hold
        rw [hins, hlocs]
        rfl
  · cases hold : g.isLive n with
    | true => exact (h.old n hlive hold).2 ▸ hlaid.nodup n hold
    | false => exact (h.new n hlive hold).2 ▸ List.nodup_nil
  · obtain ⟨hthere, held⟩ := h.held hlive hmem
    obtain ⟨hthere', held'⟩ := h.held hlive' hmem'
    exact hlaid.apart n m hthere hthere' l held held'

theorem Inherits.carries
    {x : RunStep}
    (hcarried : g'.Carries x) :
    g.Carries x := by
  obtain ⟨n, hlive, hmem⟩ := hcarried
  cases hold : g.isLive n with
  | true =>
      obtain ⟨hins, hlocs⟩ := h.old n hlive hold
      rw [code, hins, hlocs] at hmem
      exact ⟨n, hold, hmem⟩
  | false =>
      obtain ⟨hins, -⟩ := h.new n hlive hold
      rw [code, hins] at hmem
      cases hmem

/-- The index stays exact if it loses the entries of the nodes that go, and no others. -/
theorem Inherits.exact
    (hexact : g.Exact)
    (hfewer : g'.locIndex.Sublist g.locIndex)
    (hkept : ∀ entry ∈ g.locIndex, entry ∈ g'.locIndex ↔ g'.isLive entry.2 = true) :
    g'.Exact where
  toLaid := h.laid hexact.toLaid
  keys_nodup := hexact.keys_nodup.sublist (hfewer.map Prod.fst)
  nodeAt_iff l n := by
    have hkeys : (g'.locIndex.map Prod.fst).Nodup := hexact.keys_nodup.sublist (hfewer.map Prod.fst)
    rw [nodeAt, ← OrderedMap.mem_iff_lookup_eq_some hkeys]
    constructor
    · intro hmem
      have hlive := (hkept _ (hfewer.subset hmem)).1 hmem
      obtain ⟨hold, hthere⟩ := (hexact.mem_locIndex_iff (l, n)).1 (hfewer.subset hmem)
      exact ⟨hlive, (h.old n hlive hold).2 ▸ hthere⟩
    · rintro ⟨hlive, hthere⟩
      exact (hkept (l, n) ((hexact.mem_locIndex_iff (l, n)).2 (h.held hlive hthere))).2 hlive

end Inheriting

section Moving

/-- Nodes that hold the same code. -/
def SameLines (n n' : Node) : Prop :=
  n'.ins = n.ins ∧ n'.locs = n.locs

theorem inherits_of_touch
    (htouch : Retouches SameLines g g') :
    Inherits g g' where
  old n _ _ := htouch.kept n
  new n hlive hold := by
    rw [htouch.isLive_eq, hold] at hlive
    cases hlive

/-- What is changed is nothing about code and index. -/
theorem Exact.retouch
    (h : g.Exact)
    (htouch : Retouches SameLines g g')
    (hindex : g'.locIndex = g.locIndex) :
    g'.Exact := by
  refine (inherits_of_touch htouch).exact h (hindex ▸ List.Sublist.refl _) fun entry hmem => ?_
  rw [hindex, htouch.isLive_eq]
  exact iff_of_true hmem ((h.mem_locIndex_iff entry).1 hmem).1

theorem sameLines_reorder
    (g : FlowGraph) :
    Retouches SameLines g g.reorder :=
  (retouches_reorder g).mono fun _ _ ⟨_, hsame⟩ => by
    rw [hsame]
    exact ⟨rfl, rfl⟩

theorem Splits.laid
    (h : Splits g g' id)
    (hlive : g.isLive id = true)
    (hlaid : g.Laid) :
    g'.Laid := by
  have hisLive {n : NodeId} :
      g'.isLive n = true ↔ n = g.size ∨ n = g.size + 1 ∨ n ≠ id ∧ g.isLive n = true := by
    simp [h.isLive_eq, or_assoc]
  have hunique := hlaid.nodup id hlive
  have hpre {l : Loc} (hmem : l ∈ (g'.node g.size).locs) : l ∈ (g.node id).locs :=
    List.mem_of_mem_take (h.pre_locs ▸ hmem)
  have hcond {l : Loc} (hmem : l ∈ (g'.node (g.size + 1)).locs) : l ∈ (g.node id).locs :=
    List.mem_of_mem_drop (h.cond_locs ▸ hmem)
  have halves {l : Loc} (hmem : l ∈ (g'.node g.size).locs) : l ∉ (g'.node (g.size + 1)).locs := by
    rw [h.pre_locs] at hmem
    rw [h.cond_locs]
    exact List.disjoint_take_drop hunique (le_refl _) hmem
  have hkept {n : NodeId} (hnew : n ≠ id) (hold : g.isLive n = true) :
      (g'.node n).locs = (g.node n).locs :=
    (h.renews n hnew hold).locs_eq
  -- No other node shares a place with the one that is split.
  have halone {n : NodeId} {l : Loc} (hnew : n ≠ id) (hold : g.isLive n = true)
      (hmem : l ∈ (g'.node n).locs) : l ∉ (g.node id).locs := fun hmem' =>
    hnew (hlaid.apart n id hold hlive l (hkept hnew hold ▸ hmem) hmem')
  refine ⟨(h.carries_iff hlive hlaid.located).1, fun n hthere => ?_,
    fun n m hthere hthere' l hmem hmem' => ?_⟩
  · rcases hisLive.1 hthere with rfl | rfl | ⟨hnew, hold⟩
    · exact h.pre_locs ▸ hunique.sublist (List.take_sublist ..)
    · exact h.cond_locs ▸ hunique.sublist (List.drop_sublist ..)
    · exact hkept hnew hold ▸ hlaid.nodup n hold
  · rcases hisLive.1 hthere with rfl | rfl | ⟨hnew, hold⟩
    · rcases hisLive.1 hthere' with rfl | rfl | ⟨hnew', hold'⟩
      · rfl
      · exact absurd hmem' (halves hmem)
      · exact absurd (hpre hmem) (halone hnew' hold' hmem')
    · rcases hisLive.1 hthere' with rfl | rfl | ⟨hnew', hold'⟩
      · exact absurd hmem (halves hmem')
      · rfl
      · exact absurd (hcond hmem) (halone hnew' hold' hmem')
    · rcases hisLive.1 hthere' with rfl | rfl | ⟨hnew', hold'⟩
      · exact absurd (hpre hmem') (halone hnew hold hmem)
      · exact absurd (hcond hmem') (halone hnew hold hmem)
      · exact hlaid.apart n m hold hold' l (hkept hnew hold ▸ hmem) (hkept hnew' hold' ▸ hmem')

theorem Joins.laid
    (h : Joins g g' id succ)
    (hlive : g.isLive id = true)
    (hliveSucc : g.isLive succ = true)
    (hapart : succ ≠ id)
    (hlaid : g.Laid) :
    g'.Laid := by
  have hisLive {n : NodeId} : g'.isLive n = true ↔ n ≠ succ ∧ g.isLive n = true := by
    simp [h.isLive_eq]
  have hkept {n : NodeId} (hother : n ≠ id) (hother' : n ≠ succ) (hold : g.isLive n = true) :
      (g'.node n).locs = (g.node n).locs :=
    (h.renews n hother hother' hold).locs_eq
  -- No other node shares a place with one of the two that are joined.
  have halone {n : NodeId} {l : Loc} (hother : n ≠ id) (hother' : n ≠ succ)
      (hold : g.isLive n = true)
      (hmem : l ∈ (g'.node n).locs) : l ∉ (g'.node id).locs := by
    rw [hkept hother hother' hold] at hmem
    rw [h.locs_eq, List.mem_append, not_or]
    exact ⟨fun hmem' => hother (hlaid.apart n id hold hlive l hmem hmem'),
      fun hmem' => hother' (hlaid.apart n succ hold hliveSucc l hmem hmem')⟩
  refine ⟨(h.carries_iff hlive hliveSucc hapart hlaid.located).1, fun n hthere => ?_,
    fun n m hthere hthere' l hmem hmem' => ?_⟩
  · obtain ⟨hother', hold⟩ := hisLive.1 hthere
    by_cases here : n = id
    · rw [here, h.locs_eq]
      refine (hlaid.nodup id hlive).append (hlaid.nodup succ hliveSucc) fun l hmem hmem' => ?_
      exact hapart (hlaid.apart id succ hlive hliveSucc l hmem hmem').symm
    · exact hkept here hother' hold ▸ hlaid.nodup n hold
  · obtain ⟨hother, hold⟩ := hisLive.1 hthere
    obtain ⟨hother', hold'⟩ := hisLive.1 hthere'
    by_cases here : n = id
    · by_cases here' : m = id
      · exact here.trans here'.symm
      · exact absurd (here ▸ hmem) (halone here' hother' hold' hmem')
    · by_cases here' : m = id
      · exact absurd (here' ▸ hmem') (halone here hother hold hmem)
      · exact hlaid.apart n m hold hold' l (hkept here hother hold ▸ hmem)
          (hkept here' hother' hold' ▸ hmem')

theorem Bypasses.laid
    (h : Bypasses g g' id succ)
    (hlaid : g.Laid) :
    g'.Laid := by
  have hinherits : Inherits g g' := by
    refine ⟨fun n _ hold => ?_, fun n hlive hold => ?_⟩
    · have hrenews := h.renews n hold
      exact ⟨hrenews.ins_eq, hrenews.locs_eq⟩
    · simp [h.isLive_eq, hold] at hlive
  exact hinherits.laid hlaid

theorem Compacts.laid
    (h : Compacts g id g')
    (hwired : g.Wired)
    (hlaid : g.Laid) :
    g'.Laid ∧ ∀ x, g'.Carries x ↔ g.Carries x := by
  cases h with
  | bypass hlive hkind hsuccs hempty hapart hbypasses =>
      exact ⟨hbypasses.laid hlaid, (hbypasses.carries_iff hempty hlaid.located).2⟩
  | join hlive hkind hsuccs _ _ _ hapart _ _ hjoins =>
      have hliveSucc := (hwired.live id _ (.inl (hsuccs ▸ List.mem_cons_self))).2
      exact ⟨hjoins.laid hlive hliveSucc hapart hlaid,
        (hjoins.carries_iff hlive hliveSucc hapart hlaid.located).2⟩

/-- A graph has been changed and has still the same code. -/
structure Conserves (g g' : FlowGraph) : Prop where
  wired : g'.Wired
  laid : g'.Laid
  carries_iff : ∀ x, g'.Carries x ↔ g.Carries x

/-- **Splitting branch nodes moves code and renews the index.** -/
theorem Exact.splitBranches
    (h : g.Exact)
    (hwired : g.Wired) :
    g.splitBranches.2.Exact ∧ ∀ x, g.splitBranches.2.Carries x ↔ g.Carries x := by
  have hstep (g' : FlowGraph) (id : NodeId) (hsame : Conserves g g') (hlive : g'.isLive id = true)
      (_ : (g'.node id).kind ≠ .statement) (hsplits : Splits g' (g'.splitBranch id) id) :
      Conserves g (g'.splitBranch id) :=
    have hcarries := (hsplits.carries_iff hlive hsame.laid.located).2
    ⟨hsplits.wired, hsplits.laid hlive hsame.laid, fun x =>
      (hcarries x).trans (hsame.carries_iff x)⟩
  obtain hsame | ⟨g', hlast, hresult⟩ := splitBranches_cases (fun _ hsame => hsame.wired) hstep
    ⟨hwired, h.toLaid, fun _ => .rfl⟩
  · rw [hsame]
    exact ⟨h, fun _ => .rfl⟩
  · rw [hresult]
    exact ⟨hlast.laid.reindex, hlast.carries_iff⟩

/-- **Simplification moves code and renews the index.** -/
theorem Exact.compact
    (h : g.Exact)
    (hwired : g.Wired) :
    g.compact.2.Exact ∧ ∀ x, g.compact.2.Carries x ↔ g.Carries x := by
  have hstep (g₁ : FlowGraph) (id : NodeId) (g₂ : FlowGraph) (hsame : Conserves g g₁)
      (hcompacts : Compacts g₁ id g₂) : Conserves g g₂ :=
    have ⟨hlaid, hcarries⟩ := hcompacts.laid hsame.wired hsame.laid
    ⟨hcompacts.wired, hlaid, fun x => (hcarries x).trans (hsame.carries_iff x)⟩
  obtain hsame | ⟨g', hlast, hresult⟩ := compact_cases (fun _ hsame => hsame.wired) hstep
    ⟨hwired, h.toLaid, fun _ => .rfl⟩
  · rw [hsame]
    exact ⟨h, fun _ => .rfl⟩
  · rw [hresult]
    exact ⟨hlast.laid.reindex, hlast.carries_iff⟩

end Moving

end FlowGraph
end DalvikDecompiler
