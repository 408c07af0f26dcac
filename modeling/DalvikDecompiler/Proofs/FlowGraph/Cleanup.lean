import DalvikDecompiler.Proofs.FlowGraph.Wiring

/-!
# What the edits of a cleanup make of a graph
-/

namespace DalvikDecompiler

open OrderedSet (insert_of_not_mem insertAll insertAll_of_disjoint insertAll_of_subset erase
  mem_insertAll mem_erase erase_of_not_mem)
open Edges (replacing replacing_self replacing_of_ne map_replacing_of_not_mem
  not_mem_map_replacing)

/-- A node with the code of another one, and with references that have been changed. -/
structure Node.Renews (f : NodeId → NodeId) (n n' : Node) : Prop where
  ins_eq : n'.ins = n.ins
  locs_eq : n'.locs = n.locs
  kind_eq : n'.kind = n.kind.remap f

namespace FlowGraph

/-- One node goes, and another one takes over the references to it. -/
structure Replaces (g g' : FlowGraph) (old new : NodeId) : Prop where
  wired : g'.Wired
  size_eq : g'.size = g.size
  entry_eq : g'.entry = replacing old new g.entry
  isLive_eq : ∀ n, g'.isLive n = (n != old && g.isLive n)
  renews : ∀ n, g.isLive n = true → (g.node n).Renews (replacing old new) (g'.node n)
  succs_eq : ∀ n, n ≠ old → g'.succs n = erase (g.succs n) old
  handlerSuccs_eq : ∀ n, n ≠ old → g'.handlerSuccs n = erase (g.handlerSuccs n) old

/-- What leaving a node out makes of a graph. -/
structure Bypasses (g g' : FlowGraph) (id succ : NodeId) : Prop where
  wired : g'.Wired
  size_eq : g'.size = g.size
  entry_eq : g'.entry = replacing id succ g.entry
  isLive_eq : ∀ n, g'.isLive n = (n != id && g.isLive n)
  renews : ∀ n, g.isLive n = true → (g.node n).Renews (replacing id succ) (g'.node n)
  succs_eq : ∀ n, n ≠ id → g'.succs n = substitute id succ (g.succs n)
  handlerSuccs_eq : ∀ n, n ≠ id → g'.handlerSuccs n = g.handlerSuccs n

/-- What joining a node with its successor makes of a graph. -/
structure Joins (g g' : FlowGraph) (id succ : NodeId) : Prop where
  wired : g'.Wired
  size_eq : g'.size = g.size
  entry_eq : g'.entry = g.entry
  isLive_eq : ∀ n, g'.isLive n = (n != succ && g.isLive n)
  ins_eq : (g'.node id).ins = (g.node id).ins ++ (g.node succ).ins
  locs_eq : (g'.node id).locs = (g.node id).locs ++ (g.node succ).locs
  kind_eq : (g'.node id).kind = (g.node id).kind.remap (replacing succ id)
  renews : ∀ n, n ≠ id → n ≠ succ → g.isLive n = true →
    (g.node n).Renews (replacing succ id) (g'.node n)
  succs_eq : ∀ n, n ≠ succ → g'.succs n =
    if n = id then insertAll (erase (g.succs id) succ) (g.succs succ) else g.succs n
  handlerSuccs_eq : ∀ n, n ≠ succ → g'.handlerSuccs n = g.handlerSuccs n

/-- What splitting a branch off a node makes of a graph.  The parts get the next two numbers. -/
structure Splits (g g' : FlowGraph) (id : NodeId) : Prop where
  wired : g'.Wired
  size_eq : g'.size = g.size + 2
  entry_eq : g'.entry = replacing id g.size g.entry
  isLive_eq : ∀ n, g'.isLive n = (n == g.size || n == g.size + 1 || n != id && g.isLive n)
  pre_ins : (g'.node g.size).ins = (g.node id).ins.take ((g.node id).ins.length - 1)
  pre_locs : (g'.node g.size).locs = (g.node id).locs.take ((g.node id).ins.length - 1)
  pre_kind : (g'.node g.size).kind = .statement
  pre_succs : g'.succs g.size = [g.size + 1]
  pre_handlers : g'.handlerSuccs g.size = erase (g.handlerSuccs id) id
  cond_ins : (g'.node (g.size + 1)).ins = (g.node id).ins.drop ((g.node id).ins.length - 1)
  cond_locs : (g'.node (g.size + 1)).locs = (g.node id).locs.drop ((g.node id).ins.length - 1)
  cond_kind : (g'.node (g.size + 1)).kind = (g.node id).kind.remap (replacing id g.size)
  cond_succs : g'.succs (g.size + 1) = (g.succs id).map (replacing id g.size)
  cond_handlers : g'.handlerSuccs (g.size + 1) =
    if id ∈ g.handlerSuccs id then erase (g.handlerSuccs id) id ++ [g.size] else g.handlerSuccs id
  renews : ∀ n, n ≠ id → g.isLive n = true → (g.node n).Renews (replacing id g.size) (g'.node n)
  succs_eq : ∀ n, n ≠ id → g.isLive n = true →
    g'.succs n = (g.succs n).map (replacing id g.size)
  handlerSuccs_eq : ∀ n, n ≠ id → g.isLive n = true → g'.handlerSuccs n =
    if id ∈ g.handlerSuccs n then erase (g.handlerSuccs n) id ++ [g.size] else g.handlerSuccs n

section Edits

variable {g : FlowGraph} {id succ old new : NodeId}

theorem Wired.replaces
    (h : g.Wired)
    (old new : NodeId) :
    Replaces g ((g.retarget old new).removeNode old) old new := by
  have hremoves := removes_removeNode (g.retarget old new) old
  obtain ⟨hwired, hsuccs, handlers⟩ := hremoves.wired (h.retarget old new)
  refine ⟨hwired, ?_, ?_, fun n => ?_, fun n hlive => ?_, fun n hother => ?_, fun n hother => ?_⟩
  · rw [hremoves.size_eq, size_retarget]
  · rw [hremoves.entry_eq, entry_retarget]
  · rw [hremoves.isLive_eq, isLive_retarget]
  · rw [hremoves.node_eq, node_retarget _ _ _ _ hlive]
    exact ⟨rfl, rfl, rfl⟩
  · rw [hsuccs, if_neg hother, succs_retarget]
  · rw [handlers, if_neg hother, handlerSuccs_retarget]

theorem exists_foldl_declare_eq
    (n : Node)
    (names : List Symbolic.VarId) :
    ∃ declares, names.foldl Node.declare n = { n with declares } := by
  induction names generalizing n with
  | nil => exact ⟨n.declares, rfl⟩
  | cons v names ih =>
      obtain ⟨declares, h⟩ := ih (n.declare v)
      exact ⟨declares, h⟩

theorem bypasses_bypass
    (h : g.Wired)
    (hedge : succ ∈ g.succs id)
    (hapart : succ ≠ id)
    (hunprotecting : g.handlerPreds id = []) :
    Bypasses g (g.bypass id succ) id succ := by
  have hlive := h.live id succ (.inl hedge)
  have hunhandled (n : NodeId) : id ∉ g.handlerSuccs n := fun hmem =>
    List.not_mem_nil (hunprotecting ▸ h.mem_handlerPreds.2 hmem)
  let declared := g.declareAll succ (g.node id).declares
  have hisLive (n : NodeId) : declared.isLive n = g.isLive n := isLive_modifyNode ..
  have hsuccs (n : NodeId) : declared.succs n = g.succs n := succs_modifyNode ..
  have handlers (n : NodeId) : declared.handlerSuccs n = g.handlerSuccs n :=
    handlerSuccs_modifyNode ..
  have hnode (n : NodeId) : (g.node n).ins = (declared.node n).ins ∧
      (g.node n).locs = (declared.node n).locs ∧ (g.node n).kind = (declared.node n).kind := by
    have h := node_modifyNode g n (fun node => (g.node id).declares.foldl Node.declare node)
      (lt_size_of_isLive hlive.2)
    obtain ⟨declares, hsame⟩ := exists_foldl_declare_eq (g.node n) (g.node id).declares
    rw [show declared.node n = _ from h, hsame]
    split <;> exact ⟨rfl, rfl, rfl⟩
  obtain ⟨hwired, hsame, hsuccs', handlers'⟩ := Wired.moveIncoming (g := declared) (h.modifyNode ..)
    ((hisLive succ).trans hlive.2) hapart
  have hreplaces := hwired.replaces id succ
  refine
    { wired := hreplaces.wired
      size_eq := (hreplaces.size_eq.trans hsame.size_eq).trans (size_modifyNode ..)
      entry_eq := hreplaces.entry_eq.trans (congrArg (replacing id succ) hsame.entry_eq)
      isLive_eq := fun n => ?_
      renews := fun n hthere => ?_
      succs_eq := fun n hother => ?_
      handlerSuccs_eq := fun n hother => ?_ }
  · rw [bypass, hreplaces.isLive_eq, hsame.isLive_eq, hisLive]
  · obtain ⟨hins, hlocs, hkind⟩ := hreplaces.renews n (by rw [hsame.isLive_eq, hisLive, hthere])
    rw [hsame.node_eq] at hins hlocs hkind
    exact ⟨hins.trans (hnode n).1.symm, hlocs.trans (hnode n).2.1.symm,
      hkind.trans (congrArg _ (hnode n).2.2.symm)⟩
  · have hgone : id ∉ substitute id succ (g.succs n) := fun hmem => by
      rcases (Edges.mem_substitute hapart (h.nodup_succs n)).1 hmem with ⟨-, hother⟩ | ⟨hsame, -⟩
      · exact hother rfl
      · exact hapart hsame.symm
    rw [bypass, hreplaces.succs_eq n hother, hsuccs', hsuccs, erase_of_not_mem hgone]
  · rw [bypass, hreplaces.handlerSuccs_eq n hother, handlers', handlers, if_neg (hunhandled n),
      erase_of_not_mem (hunhandled n)]

/-- A node takes over the code of another one, which stays behind without any. -/
structure Absorbs (g g' : FlowGraph) (id succ : NodeId) : Prop where
  wired : g'.Wired
  size_eq : g'.size = g.size
  entry_eq : g'.entry = g.entry
  isLive_eq : ∀ n, g'.isLive n = g.isLive n
  succs_eq : ∀ n, g'.succs n = g.succs n
  handlerSuccs_eq : ∀ n, g'.handlerSuccs n = g.handlerSuccs n
  ins_eq : (g'.node id).ins = (g.node id).ins ++ (g.node succ).ins
  locs_eq : (g'.node id).locs = (g.node id).locs ++ (g.node succ).locs
  kind_eq : (g'.node id).kind = (g.node id).kind
  node_eq : ∀ n, n ≠ id → n ≠ succ → g'.node n = g.node n

theorem Wired.absorbs
    (h : g.Wired)
    (hknown : id < g.size)
    (hknown' : succ < g.size)
    (hapart : succ ≠ id) :
    Absorbs g
      ((g.modifyNode succ fun n => { n with ins := [], locs := [], declares := [] }).modifyNode id
        fun n => (g.node succ).declares.foldl Node.declare
          { n with ins := n.ins ++ (g.node succ).ins, locs := n.locs ++ (g.node succ).locs })
      id succ := by
  obtain ⟨declares, hgrown⟩ := exists_foldl_declare_eq
    { g.node id with
      ins := (g.node id).ins ++ (g.node succ).ins
      locs := (g.node id).locs ++ (g.node succ).locs } (g.node succ).declares
  have hgrows (n : NodeId) := node_modifyNode
    (g.modifyNode succ fun n => { n with ins := [], locs := [], declares := [] }) n
    (fun n => (g.node succ).declares.foldl Node.declare
      { n with ins := n.ins ++ (g.node succ).ins, locs := n.locs ++ (g.node succ).locs })
    ((size_modifyNode ..).symm ▸ hknown)
  have hkept (n : NodeId) (hother : n ≠ succ) :
      (g.modifyNode succ fun n => { n with ins := [], locs := [], declares := [] }).node n =
        g.node n :=
    (node_modifyNode g n _ hknown').trans (if_neg hother)
  have hresult := (hgrows id).trans (if_pos rfl)
  rw [hkept id hapart.symm, hgrown] at hresult
  exact
    { wired := (h.modifyNode ..).modifyNode ..
      size_eq := by simp
      entry_eq := rfl
      isLive_eq := fun n => by simp
      succs_eq := fun n => by simp
      handlerSuccs_eq := fun n => by simp
      ins_eq := by rw [hresult]
      locs_eq := by rw [hresult]
      kind_eq := by rw [hresult]
      node_eq := fun n hother hother' =>
        (hgrows n).trans ((if_neg hother).trans (hkept n hother')) }

theorem Absorbs.joins
    {joined : FlowGraph}
    (habsorbs : Absorbs g joined id succ)
    (h : g.Wired)
    (hedge : succ ∈ g.succs id)
    (hpreds : g.preds succ = [id])
    (hapart : succ ≠ id)
    (hinner : succ ≠ g.entry)
    (hunprotecting : g.handlerPreds succ = [])
    (handlers : g.handlerSuccs id = g.handlerSuccs succ) :
    Joins g
      ((((joined.removeEdge id succ).moveOutgoing succ id).retarget succ id).removeNode succ)
      id succ := by
  have hlive := h.live id succ (.inl hedge)
  have hunhandled (n : NodeId) : succ ∉ g.handlerSuccs n := fun hmem =>
    List.not_mem_nil (hunprotecting ▸ h.mem_handlerPreds.2 hmem)
  have honlyPred (n : NodeId) (hmem : succ ∈ g.succs n) : n = id :=
    List.mem_singleton.1 (hpreds ▸ h.mem_preds.2 hmem)
  obtain ⟨hwired₁, hsame₁, hsuccs₁, handlers₁⟩ := habsorbs.wired.removeEdge id succ
  obtain ⟨hwired₂, hsame₂, hsuccs₂, handlers₂⟩ := hwired₁.moveOutgoing
    ((hsame₁.isLive_eq id).trans ((habsorbs.isLive_eq id).trans hlive.1)) hapart.symm
  have hreplaces := hwired₂.replaces succ id
  have hsame := hsame₁.trans hsame₂
  have hrenews (n : NodeId) (hthere : g.isLive n = true) := hreplaces.renews n
    ((hsame.isLive_eq n).trans ((habsorbs.isLive_eq n).trans hthere))
  simp only [hsame.node_eq] at hrenews
  refine
    { wired := hreplaces.wired
      size_eq := (hreplaces.size_eq.trans hsame.size_eq).trans habsorbs.size_eq
      entry_eq := ?_
      isLive_eq := fun n => by rw [hreplaces.isLive_eq, hsame.isLive_eq, habsorbs.isLive_eq]
      ins_eq := (hrenews id hlive.1).ins_eq.trans habsorbs.ins_eq
      locs_eq := (hrenews id hlive.1).locs_eq.trans habsorbs.locs_eq
      kind_eq := (hrenews id hlive.1).kind_eq.trans (congrArg _ habsorbs.kind_eq)
      renews := fun n hother hother' hthere => by
        rw [← habsorbs.node_eq n hother hother']
        exact hrenews n hthere
      succs_eq := fun n hother => ?_
      handlerSuccs_eq := fun n hother => ?_ }
  · rw [hreplaces.entry_eq, hsame.entry_eq, habsorbs.entry_eq, replacing_of_ne hinner.symm]
  · rw [hreplaces.succs_eq n hother, hsuccs₂, if_neg hother, hsuccs₁, hsuccs₁, if_neg hapart,
      habsorbs.succs_eq, habsorbs.succs_eq]
    split
    · next here =>
        have hfresh : succ ∉ g.succs succ := fun hmem => hapart (honlyPred succ hmem)
        rw [here, map_replacing_of_not_mem hfresh]
        exact erase_of_not_mem (by simp [hfresh])
    · next helsewhere => exact erase_of_not_mem fun hmem => helsewhere (honlyPred n hmem)
  · rw [hreplaces.handlerSuccs_eq n hother, handlers₂, if_neg hother, handlers₁, handlers₁,
      habsorbs.handlerSuccs_eq, habsorbs.handlerSuccs_eq]
    split
    · next here =>
        rw [here, handlers, insertAll_of_subset (List.Subset.refl _),
          erase_of_not_mem (hunhandled succ)]
    · exact erase_of_not_mem (hunhandled n)

theorem joins_join
    (h : g.Wired)
    (hedge : succ ∈ g.succs id)
    (hpreds : g.preds succ = [id])
    (hapart : succ ≠ id)
    (hinner : succ ≠ g.entry)
    (hunprotecting : g.handlerPreds succ = [])
    (handlers : g.handlerSuccs id = g.handlerSuccs succ) :
    Joins g (g.join id succ) id succ := by
  exact (h.absorbs (h.lt_of_succs hedge).1 (h.lt_of_succs hedge).2 hapart).joins h
    hedge hpreds hapart
    hinner hunprotecting handlers

/-- Two nodes without edges join a graph. -/
structure Extends (g g' : FlowGraph) (first second : Node) : Prop where
  wired : g'.Wired
  size_eq : g'.size = g.size + 2
  entry_eq : g'.entry = g.entry
  isLive_eq : ∀ n, g'.isLive n = (n == g.size || n == g.size + 1 || g.isLive n)
  succs_eq : ∀ n, g'.succs n = g.succs n
  handlerSuccs_eq : ∀ n, g'.handlerSuccs n = g.handlerSuccs n
  first_eq : g'.node g.size = first
  second_eq : g'.node (g.size + 1) = second
  node_eq : ∀ n, n < g.size → g'.node n = g.node n

theorem Wired.extends
    (h : g.Wired)
    (first second : Node) :
    Extends g ((g.addNode first).2.addNode second).2 first second where
  wired := (h.addNode first).addNode second
  size_eq := by simp
  entry_eq := rfl
  isLive_eq n := by
    rw [isLive_addNode, isLive_addNode, size_addNode, ← Bool.or_assoc, Bool.or_comm (n == g.size)]
  succs_eq n := by simp
  handlerSuccs_eq n := by simp
  first_eq := by simp [node_addNode]
  second_eq := by simp [node_addNode]
  node_eq n hknown := by
    rw [node_addNode, size_addNode, if_neg (Nat.ne_of_lt (Nat.lt_succ_of_lt hknown)), node_addNode,
      if_neg (Nat.ne_of_lt hknown)]

/-- Two nodes share the code of a branch, and the second one gets the branch itself. -/
structure Halves (n pre cond : Node) : Prop where
  pre_ins : pre.ins = n.ins.take (n.ins.length - 1)
  pre_locs : pre.locs = n.locs.take (n.ins.length - 1)
  pre_kind : pre.kind = .statement
  cond_ins : cond.ins = n.ins.drop (n.ins.length - 1)
  cond_locs : cond.locs = n.locs.drop (n.ins.length - 1)
  cond_kind : cond.kind = n.kind

/-- The edges when both parts of a branch node have them and the node itself is not used any more.
-/
structure Parts (g g' : FlowGraph) (id : NodeId) : Prop where
  wired : g'.Wired
  pre_succs : g'.succs g.size = [g.size + 1]
  pre_handlers : g'.handlerSuccs g.size = g.handlerSuccs id
  cond_succs : g'.succs (g.size + 1) = (g.succs id).map (replacing id g.size)
  cond_handlers : g'.handlerSuccs (g.size + 1) =
    if id ∈ g.handlerSuccs id then erase (g.handlerSuccs id) id ++ [g.size] else g.handlerSuccs id
  succs_eq : ∀ n, n ≠ id → g.isLive n = true →
    g'.succs n = (g.succs n).map (replacing id g.size)
  handlerSuccs_eq : ∀ n, n ≠ id → g.isLive n = true → g'.handlerSuccs n =
    if id ∈ g.handlerSuccs n then erase (g.handlerSuccs n) id ++ [g.size] else g.handlerSuccs n

theorem Extends.parts
    {g₂ : FlowGraph}
    {pre cond : Node}
    (hadded : Extends g g₂ pre cond)
    (h : g.Wired)
    (hlive : g.isLive id = true) :
    SameNodes g₂
        (((g.handlerSuccs id).foldl (fun g' handler => g'.addHandlerEdge g.size handler)
          ((g₂.moveIncoming id g.size).moveOutgoing id (g.size + 1))).addEdge g.size (g.size + 1)) ∧
      Parts g
        (((g.handlerSuccs id).foldl (fun g' handler => g'.addHandlerEdge g.size handler)
          ((g₂.moveIncoming id g.size).moveOutgoing id (g.size + 1))).addEdge g.size (g.size + 1))
        id := by
  have hfresh {n : NodeId} (hlive : g.isLive n = true) : n ≠ g.size ∧ n ≠ g.size + 1 :=
    have hknown := lt_size_of_isLive hlive
    ⟨Nat.ne_of_lt hknown, Nat.ne_of_lt (Nat.lt_succ_of_lt hknown)⟩
  have hdead {n : NodeId} (hknown : g.size ≤ n) : g.succs n = [] ∧ g.handlerSuccs n = [] :=
    have hdead : g.isLive n = false :=
      Bool.eq_false_iff.2 fun hlive => absurd (lt_size_of_isLive hlive) (Nat.not_lt.2 hknown)
    ⟨h.succs_of_not_live hdead, h.handlerSuccs_of_not_live hdead⟩
  have hpreLive : g₂.isLive g.size = true := by simp [hadded.isLive_eq]
  have hcondLive : g₂.isLive (g.size + 1) = true := by simp [hadded.isLive_eq]
  obtain ⟨hwired₃, hsame₃, hsuccs₃, handlers₃⟩ := hadded.wired.moveIncoming hpreLive
    (hfresh hlive).1.symm
  -- The references to `id` move to the first half, and its edges to the second one.
  have hsuccs₃ (n : NodeId) : (g₂.moveIncoming id g.size).succs n =
      (g.succs n).map (replacing id g.size) := by
    have hnew : g.size ∉ g.succs n := fun hmem => lt_irrefl _ (h.lt_of_succs hmem).2
    rw [hsuccs₃, hadded.succs_eq, Edges.substitute_of_new (h.nodup_succs n) hnew]
  have handlers₃ (n : NodeId) : (g₂.moveIncoming id g.size).handlerSuccs n =
      if id ∈ g.handlerSuccs n then erase (g.handlerSuccs n) id ++ [g.size]
      else g.handlerSuccs n := by
    have hnew : g.size ∉ erase (g.handlerSuccs n) id := fun hmem =>
      lt_irrefl _ (h.lt_of_handlerSuccs (mem_erase.1 hmem).1).2
    rw [handlers₃, hadded.handlerSuccs_eq, insert_of_not_mem hnew]
  have hgone : id ∉ (g₂.moveIncoming id g.size).succs id := by
    rw [hsuccs₃]
    exact not_mem_map_replacing (hfresh hlive).1.symm
  obtain ⟨hwired₄, hsame₄, hsuccs₄, handlers₄⟩ := hwired₃.moveOutgoing
    ((hsame₃.isLive_eq _).trans hcondLive) (hfresh hlive).2.symm
  rw [map_replacing_of_not_mem hgone] at hsuccs₄
  have hsame := hsame₃.trans hsame₄
  obtain ⟨hwired₅, hsame₅, hsuccs₅, handlers₅⟩ := hwired₄.addHandlerEdges
    ((hsame.isLive_eq _).trans hpreLive) fun b (hmem : b ∈ g.handlerSuccs id) => by
      rw [hsame.isLive_eq, hadded.isLive_eq, (h.live id b (.inr hmem)).2, Bool.or_true]
  have hsame := hsame.trans hsame₅
  obtain ⟨hwired₆, hsame₆, hsuccs₆, handlers₆⟩ :=
    hwired₅.addEdge ((hsame.isLive_eq _).trans hpreLive)
    ((hsame.isLive_eq _).trans hcondLive)
  refine ⟨hsame.trans hsame₆, hwired₆, ?_, ?_, ?_, ?_, fun n hother hthere => ?_,
    fun n hother hthere => ?_⟩
  · rw [hsuccs₆, if_pos rfl, hsuccs₅, hsuccs₄, if_neg (hfresh hlive).1.symm,
      if_neg (Nat.ne_of_lt (Nat.lt_succ_self _)), hsuccs₃, (hdead (le_refl _)).1]
    rfl
  · rw [handlers₆, handlers₅, if_pos rfl, handlers₄, if_neg (hfresh hlive).1.symm,
      if_neg (Nat.ne_of_lt (Nat.lt_succ_self _)), handlers₃, (hdead (le_refl _)).2,
      if_neg List.not_mem_nil, insertAll_of_disjoint (h.nodup_handlerSuccs id)
        fun _ _ => List.not_mem_nil, List.nil_append]
  · rw [hsuccs₆, if_neg (Nat.succ_ne_self _), hsuccs₅, hsuccs₄,
      if_neg (hfresh hlive).2.symm, if_pos rfl,
      hsuccs₃ (g.size + 1), (hdead (Nat.le_succ _)).1, List.map_nil,
      insertAll_of_disjoint (hwired₃.nodup_succs id) fun _ _ => List.not_mem_nil, List.nil_append,
      hsuccs₃]
  · rw [handlers₆, handlers₅, if_neg (Nat.succ_ne_self _), handlers₄, if_neg (hfresh hlive).2.symm,
      if_pos rfl, handlers₃ (g.size + 1), (hdead (Nat.le_succ _)).2, if_neg List.not_mem_nil,
      insertAll_of_disjoint (hwired₃.nodup_handlerSuccs id) fun _ _ => List.not_mem_nil,
      List.nil_append, handlers₃]
  · rw [hsuccs₆, if_neg (hfresh hthere).1, hsuccs₅, hsuccs₄, if_neg hother,
      if_neg (hfresh hthere).2, hsuccs₃]
  · rw [handlers₆, handlers₅, if_neg (hfresh hthere).1, handlers₄, if_neg hother,
      if_neg (hfresh hthere).2, handlers₃]

theorem Parts.splits
    {g₂ g₆ : FlowGraph}
    {pre cond : Node}
    (hparts : Parts g g₆ id)
    (hsame : SameNodes g₂ g₆)
    (hadded : Extends g g₂ pre cond)
    (hlive : g.isLive id = true)
    (halves : Halves (g.node id) pre cond) :
    Splits g ((g₆.retarget id g.size).removeNode id) id := by
  have hfresh {n : NodeId} (hlive : g.isLive n = true) : n ≠ g.size ∧ n ≠ g.size + 1 :=
    have hknown := lt_size_of_isLive hlive
    ⟨Nat.ne_of_lt hknown, Nat.ne_of_lt (Nat.lt_succ_of_lt hknown)⟩
  have hreplaces := hparts.wired.replaces id g.size
  have hisLive (n : NodeId) : g₆.isLive n = (n == g.size || n == g.size + 1 || g.isLive n) :=
    (hsame.isLive_eq n).trans (hadded.isLive_eq n)
  have hpreRenews := hreplaces.renews g.size (by simp [hisLive])
  have hcondRenews := hreplaces.renews (g.size + 1) (by simp [hisLive])
  rw [hsame.node_eq, hadded.first_eq] at hpreRenews
  rw [hsame.node_eq, hadded.second_eq] at hcondRenews
  have hmoved (n : NodeId) :
      id ∉ if id ∈ g.handlerSuccs n then erase (g.handlerSuccs n) id ++ [g.size]
        else g.handlerSuccs n := by
    split
    · simp [(hfresh hlive).1]
    · next habsent => exact habsent
  refine
    { wired := hreplaces.wired
      size_eq := (hreplaces.size_eq.trans hsame.size_eq).trans hadded.size_eq
      entry_eq := by rw [hreplaces.entry_eq, hsame.entry_eq, hadded.entry_eq]
      isLive_eq := fun n => ?_
      pre_ins := hpreRenews.ins_eq.trans halves.pre_ins
      pre_locs := hpreRenews.locs_eq.trans halves.pre_locs
      pre_kind := hpreRenews.kind_eq.trans (by rw [halves.pre_kind]; rfl)
      pre_succs := ?_
      pre_handlers := ?_
      cond_ins := hcondRenews.ins_eq.trans halves.cond_ins
      cond_locs := hcondRenews.locs_eq.trans halves.cond_locs
      cond_kind := hcondRenews.kind_eq.trans (by rw [halves.cond_kind])
      cond_succs := ?_
      cond_handlers := ?_
      renews := fun n hother hthere => ?_
      succs_eq := fun n hother hthere => ?_
      handlerSuccs_eq := fun n hother hthere => ?_ }
  · rw [hreplaces.isLive_eq, hisLive]
    by_cases here : n = id
    · obtain ⟨hpre, hcond⟩ := hfresh hlive
      rw [here, bne_self_eq_false, beq_false_of_ne hpre, beq_false_of_ne hcond]
      rfl
    · rw [bne_iff_ne.2 here, Bool.true_and, Bool.true_and]
  · rw [hreplaces.succs_eq _ (hfresh hlive).1.symm, hparts.pre_succs]
    exact erase_of_not_mem fun hmem => (hfresh hlive).2 (List.mem_singleton.1 hmem)
  · rw [hreplaces.handlerSuccs_eq _ (hfresh hlive).1.symm, hparts.pre_handlers]
  · rw [hreplaces.succs_eq _ (hfresh hlive).2.symm, hparts.cond_succs]
    exact erase_of_not_mem (not_mem_map_replacing (hfresh hlive).1.symm)
  · rw [hreplaces.handlerSuccs_eq _ (hfresh hlive).2.symm, hparts.cond_handlers]
    exact erase_of_not_mem (hmoved id)
  · have hrenews := hreplaces.renews n (by rw [hisLive, hthere, Bool.or_true])
    rwa [hsame.node_eq, hadded.node_eq n (lt_size_of_isLive hthere)] at hrenews
  · rw [hreplaces.succs_eq n hother, hparts.succs_eq n hother hthere]
    exact erase_of_not_mem (not_mem_map_replacing (hfresh hlive).1.symm)
  · rw [hreplaces.handlerSuccs_eq n hother, hparts.handlerSuccs_eq n hother hthere]
    exact erase_of_not_mem (hmoved n)

/-- What a branch node computes before it branches. -/
def preOf (n : Node) : Node :=
  { n.shell (n.name ++ "-pre") .statement with
    ins := n.ins.take (n.ins.length - 1)
    locs := n.locs.take (n.ins.length - 1)
    declares := n.declares }

/-- The branch of a branch node alone. -/
def condOf (n : Node) : Node :=
  { n.shell (n.name ++ "-cond") n.kind with
    ins := n.ins.drop (n.ins.length - 1)
    locs := n.locs.drop (n.ins.length - 1)
    catchType := none }

theorem splitBranch_eq
    (g : FlowGraph)
    (id : NodeId) :
    g.splitBranch id =
      (((((g.handlerSuccs id).foldl (fun g' handler => g'.addHandlerEdge g.size handler)
        ((((g.addNode (preOf (g.node id))).2.addNode (condOf (g.node id))).2.moveIncoming id
          g.size).moveOutgoing id (g.size + 1))).addEdge g.size
        (g.size + 1)).retarget id g.size).removeNode id) := by
  have hsecond : ((g.addNode (preOf (g.node id))).2.addNode (condOf (g.node id))).1 =
    g.size + 1 := by
    simp
  rw [← hsecond]
  rfl

theorem splits_splitBranch
    (h : g.Wired)
    (hlive : g.isLive id = true) :
    Splits g (g.splitBranch id) id := by
  have hadded := h.extends (preOf (g.node id)) (condOf (g.node id))
  have hparts := hadded.parts h hlive
  rw [splitBranch_eq]
  exact hparts.2.splits hparts.1 hadded hlive ⟨rfl, rfl, rfl, rfl, rfl, rfl⟩

end Edits

section Rounds

variable {g : FlowGraph} {id : NodeId}

/-- A change that `compactNode` makes. -/
inductive Compacts (g : FlowGraph) (id : NodeId) (g' : FlowGraph) : Prop
  | bypass {succ : NodeId} {rest : List NodeId}
      (hlive : g.isLive id = true)
      (hkind : (g.node id).kind = .statement)
      (hsuccs : g.succs id = succ :: rest)
      (hempty : (g.node id).ins = [])
      (hapart : succ ≠ id)
      (hbypasses : Bypasses g g' id succ)
      (hmade : g' = g.bypass id succ)
  | join {succ : NodeId} {rest : List NodeId}
      (hlive : g.isLive id = true)
      (hkind : (g.node id).kind = .statement)
      (hsuccs : g.succs id = succ :: rest)
      (hfilled : (g.node id).ins ≠ [])
      (hkind' : (g.node succ).kind = .statement)
      (hpreds : g.preds succ = [id])
      (hapart : succ ≠ id)
      (hinner : succ ≠ g.entry)
      (handlers : g.handlerSuccs id = g.handlerSuccs succ)
      (hjoins : Joins g g' id succ)
      (hmade : g' = g.join id succ)

theorem compactNode_cases
    (h : g.Wired)
    (changed : Bool)
    (id : NodeId) :
    compactNode (g, changed) id = (g, changed) ∨
      ∃ g', compactNode (g, changed) id = (g', true) ∧ Compacts g id g' := by
  unfold compactNode
  simp only
  split
  · next hstatement =>
      obtain ⟨hlive, hkind⟩ := Bool.and_eq_true_iff.1 hstatement
      split
      · exact .inl rfl
      · next succ rest hsuccs =>
          have hedge : succ ∈ g.succs id := hsuccs ▸ List.mem_cons_self
          split
          · next hbypassable =>
              simp only [isBypassable, Bool.and_eq_true, List.isEmpty_iff,
                bne_iff_ne] at hbypassable
              obtain ⟨⟨hempty, hapart⟩, hunprotecting⟩ := hbypassable
              exact .inr ⟨_, rfl, .bypass hlive (eq_of_beq hkind) hsuccs hempty hapart
                (bypasses_bypass h hedge hapart hunprotecting) rfl⟩
          · split
            · next hjoinable =>
                simp only [isJoinable, Bool.and_eq_true, Bool.not_eq_true',
                  List.isEmpty_eq_false_iff,
                  beq_iff_eq, bne_iff_ne, List.isEmpty_iff] at hjoinable
                obtain ⟨⟨⟨⟨⟨⟨hfilled, hkind'⟩, hsingle⟩, hapart⟩, hinner⟩, hunprotecting⟩,
                  handlers⟩ :=
                  hjoinable
                obtain ⟨pred, hpreds⟩ := List.length_eq_one_iff.1 hsingle
                obtain rfl : id = pred := List.mem_singleton.1 (hpreds ▸ h.mem_preds.2 hedge)
                exact .inr ⟨_, rfl, .join hlive (eq_of_beq hkind) hsuccs hfilled
                  hkind' hpreds hapart
                  hinner handlers (joins_join h hedge hpreds hapart hinner hunprotecting handlers)
                    rfl⟩
            · exact .inl rfl
  · exact .inl rfl

variable {P : FlowGraph → Prop}

/-- What every change keeps, a walk over some nodes keeps. -/
theorem foldl_compactNode_induction
    (hwired : ∀ g, P g → g.Wired)
    (hstep : ∀ g id g', P g → Compacts g id g' → P g')
    (ids : List NodeId)
    {state : FlowGraph × Bool}
    (hstart : P state.1) :
    P (ids.foldl compactNode state).1 := by
  induction ids generalizing state with
  | nil => exact hstart
  | cons id ids ih =>
      refine ih ?_
      obtain hsame | ⟨g', hresult, hcompacts⟩ := compactNode_cases (hwired _ hstart) state.2 id
      · exact (congrArg (P ·.1) hsame).mpr hstart
      · exact (congrArg (P ·.1) hresult).mpr (hstep _ id g' hstart hcompacts)

theorem compactRounds_induction
    (hwired : ∀ g, P g → g.Wired)
    (hstep : ∀ g id g', P g → Compacts g id g' → P g')
    (rounds : Nat)
    (state : FlowGraph × Bool)
    (hstart : P state.1) :
    P (compactRounds rounds state).1 := by
  induction rounds generalizing state with
  | zero => exact hstart
  | succ rounds ih =>
      have hnext : P (state.1.liveIds.foldl compactNode (state.1, false)).1 :=
        foldl_compactNode_induction hwired hstep _ hstart
      unfold compactRounds
      simp only
      split
      · exact ih _ hnext
      · exact hnext

/-- A step that reports no change has made none. -/
theorem compactNode_unchanged
    (state : FlowGraph × Bool)
    (id : NodeId) :
    (compactNode state id).2 = false → compactNode state id = state := by
  obtain ⟨g, changed⟩ := state
  unfold compactNode
  simp only
  split
  · split
    · exact fun _ => rfl
    · split
      · intro hunchanged
        cases hunchanged
      · split
        · intro hunchanged
          cases hunchanged
        · exact fun _ => rfl
  · exact fun _ => rfl

theorem foldl_compactNode_unchanged
    (ids : List NodeId)
    (state : FlowGraph × Bool)
    (hunchanged : (ids.foldl compactNode state).2 = false) :
    ids.foldl compactNode state = state := by
  induction ids generalizing state with
  | nil => rfl
  | cons id ids ih =>
      rw [List.foldl_cons] at hunchanged ⊢
      have hrest := ih _ hunchanged
      rw [hrest] at hunchanged ⊢
      exact compactNode_unchanged state id hunchanged

theorem compactRounds_unchanged
    (rounds : Nat)
    (state : FlowGraph × Bool)
    (hunchanged : (compactRounds rounds state).2 = false) :
    compactRounds rounds state = state := by
  induction rounds generalizing state with
  | zero => rfl
  | succ rounds ih =>
      obtain ⟨g, changed⟩ := state
      unfold compactRounds at hunchanged ⊢
      simp only at hunchanged ⊢
      split at hunchanged
      · have hrest := ih _ hunchanged
        rw [hrest] at hunchanged
        cases hunchanged
      · next hagain =>
          rw [if_neg hagain, foldl_compactNode_unchanged _ _ (Bool.eq_false_of_not_eq_true hagain)]

/-- Simplification changes nothing, or its last step is to renew the index. -/
theorem compact_cases
    (hwired : ∀ g, P g → g.Wired)
    (hstep : ∀ g id g', P g → Compacts g id g' → P g')
    (hstart : P g) :
    g.compact.2 = g ∨ ∃ g', P g' ∧ g.compact.2 = g'.reindex := by
  have hlast := compactRounds_induction hwired hstep (g.size + 1) (g, false) hstart
  have hsame := compactRounds_unchanged (g.size + 1) (g, false)
  unfold compact
  simp only
  split
  · exact .inr ⟨_, hlast, rfl⟩
  · next hunchanged =>
      exact .inl (congrArg Prod.fst (hsame (Bool.eq_false_of_not_eq_true hunchanged)))

/-- What every change and the renewal of the index keep, the whole simplification keeps. -/
theorem compact_induction
    (hwired : ∀ g, P g → g.Wired)
    (hstep : ∀ g id g', P g → Compacts g id g' → P g')
    (hreindex : ∀ g, P g → P g.reindex)
    (hstart : P g) :
    P g.compact.2 := by
  obtain hsame | ⟨g', hlast, hresult⟩ := compact_cases hwired hstep hstart
  · rw [hsame]
    exact hstart
  · rw [hresult]
    exact hreindex g' hlast

end Rounds

end FlowGraph
end DalvikDecompiler
