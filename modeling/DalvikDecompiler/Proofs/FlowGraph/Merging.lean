import DalvikDecompiler.Proofs.FlowGraph.Cleanup
import DalvikDecompiler.Proofs.FlowGraph.Guided
import DalvikDecompiler.Proofs.FlowGraph.Paths
import DalvikDecompiler.Region.ShortCircuit

/-!
# Merging two branches into one condition

**Input.** A flow graph that keeps each edge at both of its ends.

A merge takes a branch and one of its targets out of the graph and puts a new node in their place.
Edges follow the two nodes, apart from those into the second one: the normal one comes from the
first node and is gone with it, and exception edges are removed.

**Results.**
* `Plans`: what has been checked of two branches that are going to be merged.
* `Merges`: what a merge makes of a graph.
* `Merging.passes_induction`: what every merge and every renumbering preserves holds after all
  passes.
-/

namespace DalvikDecompiler

open OrderedSet (insertAll erase mem_insertAll mem_erase)
open Edges (replacing)

section Kinds

variable {f f' : NodeId → NodeId}

theorem SwitchTable.remap_remap
    (s : SwitchTable) :
    (s.remap f).remap f' = s.remap fun n => f' (f n) := by
  simp [SwitchTable.remap, Function.comp_def]

theorem NodeKind.remap_remap
    (kind : NodeKind) :
    (kind.remap f).remap f' = kind.remap fun n => f' (f n) := by
  induction kind with
  | switch cases => exact congrArg NodeKind.switch cases.remap_remap
  | loop inner type ih => exact congrArg (NodeKind.loop · type) ih
  | tryBlock => simp [NodeKind.remap, Function.comp_def]
  | _ => rfl

theorem NodeKind.remap_id
    (kind : NodeKind) :
    (kind.remap fun n => n) = kind := by
  induction kind with
  | switch cases => simp [NodeKind.remap, SwitchTable.remap]
  | loop inner type ih => exact congrArg (NodeKind.loop · type) ih
  | tryBlock => simp [NodeKind.remap]
  | _ => rfl

theorem Node.Renews.refl
    (n : Node) :
    n.Renews (fun m => m) n :=
  ⟨rfl, rfl, n.kind.remap_id.symm⟩

theorem Node.Renews.trans
    {n n' n'' : Node}
    (h : n.Renews f n')
    (h' : n'.Renews f' n'') :
    n.Renews (fun m => f' (f m)) n'' where
  ins_eq := h'.ins_eq.trans h.ins_eq
  locs_eq := h'.locs_eq.trans h.locs_eq
  kind_eq := by rw [h'.kind_eq, h.kind_eq, NodeKind.remap_remap]

end Kinds

namespace FlowGraph

/-- Where a node is found once two nodes have been merged. -/
def combining (first second merged n : NodeId) : NodeId :=
  if n = first ∨ n = second then merged else n

/-- What has been checked of a branch with given targets and a merge planned for it. -/
structure Plans (g : FlowGraph) (first : NodeId) (b : BranchTargets) (merge : Merge) : Prop where
  targets : (g.node merge.second).kind.targets? = some merge.branches
  alone : (g.preds merge.second).length = 1
  apart : merge.second ≠ first
  leaves : ∀ holds, merge.branches.toward holds ≠ first ∧
    merge.branches.toward holds ≠ merge.second
  /-- The outcome of the first branch that leaves the answer to the second one. -/
  selects : b.toward (merge.isAnd != merge.isNot) = merge.second
  /-- The other outcome leads where the second branch goes with the same answer. -/
  shared : b.toward (!(merge.isAnd != merge.isNot)) = merge.branches.toward (!merge.isAnd)

/-- No merge is planned for a node. -/
def Unmergeable (g : FlowGraph) (id : NodeId) : Prop :=
  ∀ b, g.isLive id = true → (g.node id).kind.targets? = some b → b.contains id = false →
    g.mergePlan id b = none

/-- What a merge makes of a graph. -/
structure Merges (g g' : FlowGraph) (first : NodeId) (merge : Merge) : Prop where
  wired : g'.Wired
  size_eq : g'.size = g.size + 1
  entry_eq : g'.entry = combining first merge.second g.size g.entry
  isLive_eq : ∀ n, g'.isLive n = (n == g.size || n != first && n != merge.second && g.isLive n)
  kind_eq : (g'.node g.size).kind =
    .shortCircuit
      { first
        second := merge.second
        isAnd := merge.isAnd
        isNot := merge.isNot
        branches := merge.branches.remap (combining first merge.second g.size) }
  ins_eq : (g'.node g.size).ins = []
  locs_eq : (g'.node g.size).locs = []
  renews : ∀ n, n ≠ first → n ≠ merge.second → g.isLive n = true →
    (g.node n).Renews (combining first merge.second g.size) (g'.node n)
  node_eq : ∀ n, g'.isLive n = false → g'.node n = g.node n
  mem_succs : ∀ a b, b ∈ g'.succs a ↔
    ∃ x, ∃ y ∈ g.succs x, (y = merge.second → x = merge.second) ∧
      combining first merge.second g.size x = a ∧ combining first merge.second g.size y = b
  mem_handlerSuccs : ∀ a b, b ∈ g'.handlerSuccs a ↔
    ∃ x, ∃ y ∈ g.handlerSuccs x, y ≠ merge.second ∧
      combining first merge.second g.size x = a ∧ combining first merge.second g.size y = b

/-- The graph after at most so many passes of merging. -/
def merged (g : FlowGraph) (tree : DominatorTree) (passes : Nat) : FlowGraph :=
  (Merging.passes passes { graph := g, tree, merged := 0, dangling := false }).1.graph

section Combining

variable {first second merged n : NodeId}

theorem combining_first :
    combining first second merged first = merged :=
  if_pos (.inl rfl)

theorem combining_second :
    combining first second merged second = merged :=
  if_pos (.inr rfl)

theorem combining_of_ne
    (h : n ≠ first)
    (h' : n ≠ second) :
    combining first second merged n = n :=
  if_neg (not_or.2 ⟨h, h'⟩)

theorem combining_eq_merged_iff
    (hfresh : n ≠ merged) :
    combining first second merged n = merged ↔ n = first ∨ n = second := by
  unfold combining
  split
  · next heither => exact ⟨fun _ => heither, fun _ => rfl⟩
  · next hneither =>
      exact ⟨fun hsame => absurd hsame hfresh, fun heither => absurd heither hneither⟩

theorem combining_eq_iff
    {m : NodeId}
    (hfresh : m ≠ merged)
    (hother : m ≠ first)
    (hother' : m ≠ second) :
    combining first second merged n = m ↔ n = m := by
  unfold combining
  grind

theorem replacing_replacing :
    replacing second merged (replacing first merged n) = combining first second merged n := by
  unfold replacing combining
  grind

theorem replacing_idem
    {old new : NodeId}
    (hapart : new ≠ old) :
    replacing old new (replacing old new n) = replacing old new n := by
  unfold replacing
  grind

variable {old new a b : NodeId} {xs : List NodeId}

theorem mem_substitute_iff
    (hapart : new ≠ old)
    (hnodup : xs.Nodup) :
    b ∈ substitute old new xs ↔ ∃ y ∈ xs, replacing old new y = b := by
  rw [Edges.mem_substitute hapart hnodup]
  unfold replacing
  grind

theorem mem_readdressed_iff :
    b ∈ (if old ∈ xs then OrderedSet.insert (erase xs old) new else xs) ↔
      ∃ y ∈ xs, replacing old new y = b := by
  unfold replacing
  split
  · simp only [OrderedSet.mem_insert, mem_erase]
    grind
  · grind

theorem mem_moved_iff
    {targets : NodeId → List NodeId}
    (hapart : new ≠ old) :
    b ∈ (if a = old then [] else if a = new then insertAll (targets a) xs else targets a) ↔
      a ≠ old ∧ b ∈ targets a ∨ a = new ∧ b ∈ xs := by
  split
  · next here =>
      subst here
      simp [hapart.symm]
  · split
    · next hthere => simp [hthere, hapart]
    · next here hthere => simp [here, hthere]

theorem exists_moved_iff
    (targets : NodeId → List NodeId) :
    (a ≠ old ∧ ∃ y ∈ targets a, replacing old new y = b) ∨
        (a = new ∧ ∃ y ∈ targets old, replacing old new y = b) ↔
      ∃ x, ∃ y ∈ targets x, replacing old new x = a ∧ replacing old new y = b := by
  unfold replacing
  grind

theorem exists_gathered_iff
    (targets : NodeId → List NodeId)
    (hfresh : second ≠ merged)
    (hapart : second ≠ first) :
    (a ≠ second ∧
          ∃ x, ∃ y ∈ targets x, replacing first merged x = a ∧ replacing first merged y = b) ∨
        (a = merged ∧ ∃ z,
          (∃ x, ∃ y ∈ targets x, replacing first merged x = second ∧ replacing first merged y = z) ∧
            replacing second merged z = b) ↔
      ∃ x, ∃ y ∈ targets x, combining first second merged x = a ∧
        (if x = second then combining first second merged y else replacing first merged y) = b := by
  unfold replacing combining
  grind

theorem exists_gathered_handler_iff
    (targets : NodeId → List NodeId)
    (hfresh : second ≠ merged)
    (hapart : second ≠ first) :
    (a ≠ second ∧
          ∃ x, ∃ y ∈ targets x, replacing first merged x = a ∧ replacing first merged y = b) ∨
        (a = merged ∧
          ∃ x, ∃ y ∈ targets x, replacing first merged x = second ∧ replacing first merged y = b) ↔
      ∃ x, ∃ y ∈ targets x, combining first second merged x = a ∧ replacing first merged y = b := by
  unfold replacing combining
  grind

theorem mem_dropped_iff :
    b ∈ (if a = first then [] else erase (if a = second then [] else erase xs second) first) ↔
      (a ≠ first ∧ a ≠ second) ∧ (b ≠ first ∧ b ≠ second) ∧ b ∈ xs := by
  split
  · next here => simp [here]
  · split
    · next hthere => simp [hthere]
    · next here hthere =>
        simp only [mem_erase, ne_eq, here, hthere, not_false_eq_true, and_self, true_and]
        tauto

theorem exists_dropped_iff
    (targets : NodeId → List NodeId)
    (hapart : second ≠ first)
    (hfresh : merged ≠ first)
    (hfresh' : merged ≠ second) :
    ((a ≠ first ∧ a ≠ second) ∧ (b ≠ first ∧ b ≠ second) ∧
        ∃ x, ∃ y ∈ targets x, combining first second merged x = a ∧
          (if x = second then combining first second merged y else replacing first merged y) = b) ↔
      ∃ x, ∃ y ∈ targets x, (y = second → x = second) ∧
        combining first second merged x = a ∧ combining first second merged y = b := by
  unfold replacing combining
  grind

theorem exists_dropped_handler_iff
    (targets : NodeId → List NodeId)
    (hapart : second ≠ first)
    (hfresh : merged ≠ first)
    (hfresh' : merged ≠ second) :
    ((a ≠ first ∧ a ≠ second) ∧ (b ≠ first ∧ b ≠ second) ∧
        ∃ x, ∃ y ∈ targets x, combining first second merged x = a ∧
          replacing first merged y = b) ↔
      ∃ x, ∃ y ∈ targets x, y ≠ second ∧
        combining first second merged x = a ∧ combining first second merged y = b := by
  unfold replacing combining
  grind

end Combining

section Planning

variable {g : FlowGraph} {id first pred : NodeId} {b inner : BranchTargets} {merge : Merge}

theorem not_contains_iff :
    b.contains id = false ↔ ∀ holds, b.toward holds ≠ id := by
  simp [BranchTargets.contains, BranchTargets.toward, and_comm]

theorem absorbable?_eq_some_iff :
    g.absorbable? id pred = some inner ↔
      (g.node id).kind.targets? = some inner ∧ (g.preds id).length = 1 ∧
        ∀ holds, inner.toward holds ≠ pred ∧ inner.toward holds ≠ id := by
  rw [absorbable?, Option.filter_eq_some_iff]
  simp only [Bool.and_eq_true, beq_iff_eq, Bool.not_eq_true', not_contains_iff,
    forall_and, and_assoc]

/-- The second branch keeps its targets, one of which is the other target of the first one. -/
theorem mergeOnTrue_eq_some
    {second other : NodeId}
    (h : mergeOnTrue second other inner = some merge) :
    merge.second = second ∧ merge.branches = inner ∧ (merge.isAnd != merge.isNot) = true ∧
      other = inner.toward (!merge.isAnd) := by
  obtain ⟨onTrue, onFalse⟩ := inner
  unfold mergeOnTrue at h
  split at h
  · next hshared =>
      obtain rfl : onFalse = other := hshared
      cases h
      exact ⟨rfl, rfl, rfl, rfl⟩
  · split at h
    · next hshared =>
        obtain rfl : onTrue = other := hshared
        cases h
        exact ⟨rfl, rfl, rfl, rfl⟩
    · cases h

theorem mergeOnFalse_eq_some
    {second other : NodeId}
    (h : mergeOnFalse second other inner = some merge) :
    merge.second = second ∧ merge.branches = inner ∧ (merge.isAnd != merge.isNot) = false ∧
      other = inner.toward (!merge.isAnd) := by
  obtain ⟨onTrue, onFalse⟩ := inner
  unfold mergeOnFalse at h
  split at h
  · next hshared =>
      obtain rfl : onFalse = other := hshared
      cases h
      exact ⟨rfl, rfl, rfl, rfl⟩
  · split at h
    · next hshared =>
        obtain rfl : onTrue = other := hshared
        cases h
        exact ⟨rfl, rfl, rfl, rfl⟩
    · cases h

/-- **A merge is planned for two branches that share a target.** -/
theorem plans_mergePlan
    (houter : b.contains first = false)
    (hplanned : g.mergePlan first b = some merge) :
    g.Plans first b merge := by
  rw [not_contains_iff] at houter
  unfold mergePlan at hplanned
  split at hplanned
  · next inner habsorbed =>
      obtain ⟨htargets, halone, hleaves⟩ := absorbable?_eq_some_iff.1 habsorbed
      obtain ⟨hsecond, rfl, hselects, hshared⟩ := mergeOnTrue_eq_some hplanned
      rw [← hsecond] at htargets halone hleaves
      exact ⟨htargets, halone, hsecond ▸ houter true, hleaves, by rw [hselects]; exact hsecond.symm,
        by rw [hselects]; exact hshared⟩
  · split at hplanned
    · next inner habsorbed =>
        obtain ⟨htargets, halone, hleaves⟩ := absorbable?_eq_some_iff.1 habsorbed
        obtain ⟨hsecond, rfl, hselects, hshared⟩ := mergeOnFalse_eq_some hplanned
        rw [← hsecond] at htargets halone hleaves
        exact ⟨htargets, halone, hsecond ▸ houter false, hleaves,
          by rw [hselects]; exact hsecond.symm,
          by rw [hselects]; exact hshared⟩
    · cases hplanned

end Planning

section Merging

variable {g : FlowGraph} {first n : NodeId} {merge : Merge} {b : BranchTargets}

/-- A plan concerns two branches of the graph. -/
theorem Plans.live
    (hplans : g.Plans first b merge)
    (h : g.Wired) :
    g.isLive merge.second = true := by
  obtain ⟨pred, honly⟩ := List.length_eq_one_iff.1 hplans.alone
  exact (h.live pred merge.second
    (.inl (h.mem_preds.1 (honly ▸ List.mem_singleton.2 rfl)))).2

/-- All edges at a node move to a new one. -/
theorem Wired.moveEdges
    {old new : NodeId}
    (h : g.Wired)
    (hlive : g.isLive new = true)
    (hapart : new ≠ old) :
    ((g.moveIncoming old new).moveOutgoing old new).Wired ∧
      SameNodes g ((g.moveIncoming old new).moveOutgoing old new) ∧
      (∀ a b, b ∈ ((g.moveIncoming old new).moveOutgoing old new).succs a ↔
        ∃ x, ∃ y ∈ g.succs x, replacing old new x = a ∧ replacing old new y = b) ∧
      ∀ a b, b ∈ ((g.moveIncoming old new).moveOutgoing old new).handlerSuccs a ↔
        ∃ x, ∃ y ∈ g.handlerSuccs x, replacing old new x = a ∧ replacing old new y = b := by
  obtain ⟨hwired₁, hsame₁, hsuccs₁, handlers₁⟩ := h.moveIncoming hlive hapart
  obtain ⟨hwired₂, hsame₂, hsuccs₂, handlers₂⟩ := hwired₁.moveOutgoing
    ((hsame₁.isLive_eq new).trans hlive) hapart
  refine ⟨hwired₂, hsame₁.trans hsame₂, fun a b => ?_, fun a b => ?_⟩
  · rw [hsuccs₂, mem_moved_iff hapart]
    simp only [List.mem_map, hsuccs₁, mem_substitute_iff hapart (h.nodup_succs _),
      exists_exists_and_eq_and, replacing_idem hapart]
    exact exists_moved_iff g.succs
  · rw [handlers₂, mem_moved_iff hapart]
    simp only [handlers₁, mem_readdressed_iff]
    exact exists_moved_iff g.handlerSuccs

/-- Two branches have given their edges to a new node. -/
structure Gathers (g g' : FlowGraph) (first second : NodeId) : Prop where
  wired : g'.Wired
  mem_succs : ∀ a b, b ∈ g'.succs a ↔ ∃ x, ∃ y ∈ g.succs x,
    combining first second g.size x = a ∧
      (if x = second then combining first second g.size y else replacing first g.size y) = b
  mem_handlerSuccs : ∀ a b, b ∈ g'.handlerSuccs a ↔ ∃ x, ∃ y ∈ g.handlerSuccs x,
    combining first second g.size x = a ∧ replacing first g.size y = b

theorem Wired.gathers
    {second : NodeId}
    (h : g.Wired)
    (added : Node)
    (hknown : first < g.size)
    (hknown' : second < g.size)
    (hapart : second ≠ first) :
    Gathers g
        ((((g.addNode added).2.moveIncoming first g.size).moveOutgoing first g.size).moveOutgoing
          second g.size) first second ∧
      SameNodes (g.addNode added).2
        ((((g.addNode added).2.moveIncoming first g.size).moveOutgoing first g.size).moveOutgoing
          second g.size) := by
  have hlive : (g.addNode added).2.isLive g.size = true := by simp [isLive_addNode]
  obtain ⟨hwired₁, hsame₁, hsuccs₁, handlers₁⟩ := (h.addNode added).moveEdges hlive hknown.ne'
  obtain ⟨hwired₂, hsame₂, hsuccs₂, handlers₂⟩ := hwired₁.moveOutgoing
    ((hsame₁.isLive_eq g.size).trans hlive) hknown'.ne'
  refine ⟨⟨hwired₂, fun a b => ?_, fun a b => ?_⟩, hsame₁.trans hsame₂⟩
  · rw [hsuccs₂, mem_moved_iff hknown'.ne', List.mem_map]
    simp only [hsuccs₁, succs_addNode]
    exact exists_gathered_iff g.succs hknown'.ne hapart
  · rw [handlers₂, mem_moved_iff hknown'.ne']
    simp only [handlers₁, handlerSuccs_addNode]
    exact exists_gathered_handler_iff g.handlerSuccs hknown'.ne hapart

/-- A new node with the edges of two branches, which are not part of the graph any more. -/
structure Swaps (g g' : FlowGraph) (first second : NodeId) (added : Node) : Prop where
  wired : g'.Wired
  size_eq : g'.size = g.size + 1
  entry_eq : g'.entry = g.entry
  isLive_eq : ∀ n, g'.isLive n = (n == g.size || n != first && n != second && g.isLive n)
  node_eq : ∀ n, g'.node n = if n = g.size then added else g.node n
  mem_succs : ∀ a b, b ∈ g'.succs a ↔
    ∃ x, ∃ y ∈ g.succs x, (y = second → x = second) ∧
      combining first second g.size x = a ∧ combining first second g.size y = b
  mem_handlerSuccs : ∀ a b, b ∈ g'.handlerSuccs a ↔
    ∃ x, ∃ y ∈ g.handlerSuccs x, y ≠ second ∧
      combining first second g.size x = a ∧ combining first second g.size y = b

theorem Gathers.swaps
    {g' : FlowGraph}
    {second : NodeId}
    {added : Node}
    (hgathers : Gathers g g' first second)
    (hsame : SameNodes (g.addNode added).2 g')
    (hknown : first < g.size)
    (hknown' : second < g.size)
    (hapart : second ≠ first) :
    Swaps g ((g'.removeNode second).removeNode first) first second added := by
  have hremoves₁ := removes_removeNode g' second
  have hremoves₂ := removes_removeNode (g'.removeNode second) first
  obtain ⟨hwired₁, hsuccs₁, handlers₁⟩ := hremoves₁.wired hgathers.wired
  obtain ⟨hwired₂, hsuccs₂, handlers₂⟩ := hremoves₂.wired hwired₁
  refine
    { wired := hwired₂
      size_eq := ?_
      entry_eq := ?_
      isLive_eq := fun n => ?_
      node_eq := fun n => ?_
      mem_succs := fun a b => ?_
      mem_handlerSuccs := fun a b => ?_ }
  · rw [hremoves₂.size_eq, hremoves₁.size_eq, hsame.size_eq, size_addNode]
  · rw [hremoves₂.entry_eq, hremoves₁.entry_eq, hsame.entry_eq]
    rfl
  · rw [hremoves₂.isLive_eq, hremoves₁.isLive_eq, hsame.isLive_eq, isLive_addNode]
    grind
  · rw [hremoves₂.node_eq, hremoves₁.node_eq, hsame.node_eq, node_addNode]
  · rw [hsuccs₂, hsuccs₁, mem_dropped_iff, hgathers.mem_succs]
    exact exists_dropped_iff g.succs hapart hknown.ne' hknown'.ne'
  · rw [handlers₂, handlers₁, mem_dropped_iff, hgathers.mem_handlerSuccs]
    exact exists_dropped_handler_iff g.handlerSuccs hapart hknown.ne' hknown'.ne'

theorem renews_retarget_retarget
    (node : Node)
    (first second merged : NodeId) :
    node.Renews (combining first second merged)
      ((node.retarget first merged).retarget second merged) where
  ins_eq := rfl
  locs_eq := rfl
  kind_eq := (NodeKind.remap_remap _).trans
    (congrArg node.kind.remap (funext fun _ => replacing_replacing))

theorem Swaps.merges
    {g' : FlowGraph}
    {added : Node}
    (hswaps : Swaps g g' first merge.second added)
    (hkind : added.kind =
      .shortCircuit
        { first
          second := merge.second
          isAnd := merge.isAnd
          isNot := merge.isNot
          branches := merge.branches })
    (hcode : added.ins = [])
    (hplaces : added.locs = []) :
    Merges g ((g'.retarget first g.size).retarget merge.second g.size) first merge := by
  have hnode (n : NodeId) (hlive : g'.isLive n = true) :
      ((g'.retarget first g.size).retarget merge.second g.size).node n =
        ((if n = g.size then added else g.node n).retarget first g.size).retarget
          merge.second g.size := by
    rw [node_retarget _ _ _ _ ((isLive_retarget ..).trans hlive), node_retarget _ _ _ _ hlive,
      hswaps.node_eq]
  have hmerged := hnode g.size (by simp [hswaps.isLive_eq])
  rw [if_pos rfl] at hmerged
  obtain ⟨hins, hlocs, hrenewed⟩ := renews_retarget_retarget added first merge.second g.size
  exact
    { wired := (hswaps.wired.retarget ..).retarget ..
      size_eq := by simp [hswaps.size_eq]
      entry_eq := by
        rw [entry_retarget, entry_retarget, hswaps.entry_eq, replacing_replacing]
      isLive_eq := fun n => by simp [hswaps.isLive_eq]
      kind_eq := by
        rw [hmerged, hrenewed, hkind]
        rfl
      ins_eq := by rw [hmerged, hins, hcode]
      locs_eq := by rw [hmerged, hlocs, hplaces]
      renews := fun n hother hother' hthere => by
        have hfresh : n ≠ g.size := (lt_size_of_isLive hthere).ne
        rw [hnode n (by simp [hswaps.isLive_eq, hother, hother', hthere]), if_neg hfresh]
        exact renews_retarget_retarget ..
      node_eq := fun n hdead => by
        rw [isLive_retarget, isLive_retarget] at hdead
        have hfresh : n ≠ g.size := fun hsame => by simp [hswaps.isLive_eq, hsame] at hdead
        rw [node_retarget_of_not_live _ _ _ _ ((isLive_retarget ..).trans hdead),
          node_retarget_of_not_live _ _ _ _ hdead, hswaps.node_eq, if_neg hfresh]
      mem_succs := fun a b => by simpa using hswaps.mem_succs a b
      mem_handlerSuccs := fun a b => by simpa using hswaps.mem_handlerSuccs a b }

/-- **A merge puts one node in the place of two.** -/
theorem merges_mergeBranches
    (h : g.Wired)
    (hplans : g.Plans first b merge)
    (hlive : g.isLive first = true) :
    Merges g (g.mergeBranches first merge).2 first merge := by
  have hknown := lt_size_of_isLive hlive
  have hknown' := lt_size_of_isLive (hplans.live h)
  let kind : NodeKind :=
    .shortCircuit
      { first
        second := merge.second
        isAnd := merge.isAnd
        isNot := merge.isNot
        branches := merge.branches }
  obtain ⟨declares, hgrown⟩ := exists_foldl_declare_eq
    ((g.node first).shell ((g.node first).name ++ "+" ++ (g.node merge.second).name) kind)
    ((g.node first).declares ++ (g.node merge.second).declares)
  obtain ⟨hgathers, hsame⟩ := h.gathers _ hknown hknown' hplans.apart
  refine (hgathers.swaps hsame hknown hknown' hplans.apart).merges ?_ ?_ ?_
  · exact (congrArg Node.kind hgrown).trans rfl
  · exact (congrArg Node.ins hgrown).trans rfl
  · exact (congrArg Node.locs hgrown).trans rfl

/-- Only the first branch leads to the second one. -/
theorem Plans.eq_first
    (hplans : g.Plans first b merge)
    (h : g.Guided)
    (hlive : g.isLive first = true)
    (htargets : (g.node first).kind.targets? = some b)
    (hedge : merge.second ∈ g.succs n) :
    n = first := by
  obtain ⟨pred, honly⟩ := List.length_eq_one_iff.1 hplans.alone
  have heq_pred {x : NodeId} (hedge : merge.second ∈ g.succs x) : x = pred :=
    List.mem_singleton.1 (honly ▸ h.wired.mem_preds.2 hedge)
  have hselected : merge.second ∈ g.succs first := by
    rw [← hplans.selects]
    exact h.mem_succs first b hlive htargets _
  rw [heq_pred hedge, heq_pred hselected]

section Merges

variable {g' : FlowGraph}

/-- A node is part of the merged graph if it is new, or it was there and is none of the two
branches.
-/
theorem Merges.live_iff
    (hmerges : Merges g g' first merge) :
    g'.isLive n = true ↔
      n = g.size ∨ n ≠ first ∧ n ≠ merge.second ∧ g.isLive n = true := by
  simp [hmerges.isLive_eq, and_assoc]

theorem Merges.live_combining
    (hmerges : Merges g g' first merge)
    (hlive : g.isLive n = true) :
    g'.isLive (combining first merge.second g.size n) = true := by
  rw [hmerges.live_iff]
  unfold combining
  split
  · exact .inl rfl
  · next hother => exact .inr ⟨(not_or.1 hother).1, (not_or.1 hother).2, hlive⟩

/-- The first node of what has been merged into a node. -/
theorem Merges.live_replacing
    (hmerges : Merges g g' first merge)
    (hlive : g.isLive first = true)
    (hthere : g'.isLive n = true) :
    g.isLive (replacing g.size first n) = true := by
  unfold replacing
  split
  · exact hlive
  · next hother => exact ((hmerges.live_iff.1 hthere).resolve_left hother).2.2

theorem Merges.combining_replacing
    (hmerges : Merges g g' first merge)
    (hthere : g'.isLive n = true) :
    combining first merge.second g.size (replacing g.size first n) = n := by
  unfold replacing
  split
  · next here => exact combining_first.trans here.symm
  · next hother =>
      obtain ⟨hdiffer, hdiffer', -⟩ := (hmerges.live_iff.1 hthere).resolve_left hother
      exact combining_of_ne hdiffer hdiffer'

theorem Merges.replacing_ne_second
    (hmerges : Merges g g' first merge)
    (hplans : g.Plans first b merge)
    (hthere : g'.isLive n = true) :
    replacing g.size first n ≠ merge.second := by
  unfold replacing
  split
  · exact hplans.apart.symm
  · next hother => exact ((hmerges.live_iff.1 hthere).resolve_left hother).2.1

theorem replacing_combining
    {second : NodeId}
    (hlive : g.isLive n = true)
    (hother : n ≠ second) :
    replacing g.size first (combining first second g.size n) = n := by
  have hfresh := (lt_size_of_isLive hlive).ne
  unfold combining replacing
  grind

theorem Merges.targets_merged
    (hmerges : Merges g g' first merge) :
    (g'.node g.size).kind.targets? =
      some (merge.branches.remap (combining first merge.second g.size)) := by
  rw [hmerges.kind_eq]
  rfl

theorem Merges.targets_kept
    (hmerges : Merges g g' first merge)
    (hother : n ≠ first)
    (hother' : n ≠ merge.second)
    (hlive : g.isLive n = true) :
    (g'.node n).kind.targets? =
      (g.node n).kind.targets?.map (BranchTargets.remap (combining first merge.second g.size)) := by
  rw [(hmerges.renews n hother hother' hlive).kind_eq, NodeKind.targets?_remap]

/-- **A merge leaves a graph guided.** -/
theorem Merges.guided
    (hmerges : Merges g g' first merge)
    (h : g.Guided)
    (hplans : g.Plans first b merge)
    (hlive : g.isLive first = true)
    (htargets : (g.node first).kind.targets? = some b) :
    g'.Guided := by
  refine ⟨hmerges.wired, fun n b' hthere htargets' holds => ?_⟩
  rw [hmerges.mem_succs]
  rcases hmerges.live_iff.1 hthere with rfl | ⟨hother, hother', hknown⟩
  · rw [hmerges.targets_merged] at htargets'
    cases htargets'
    exact ⟨merge.second, merge.branches.toward holds,
      h.mem_succs _ _ (hplans.live h.wired) hplans.targets holds, fun _ => rfl, combining_second,
      NodeKind.toward_remap.symm⟩
  · rw [hmerges.targets_kept hother hother' hknown, Option.map_eq_some_iff] at htargets'
    obtain ⟨before, htargets', rfl⟩ := htargets'
    have hedge := h.mem_succs n before hknown htargets' holds
    refine ⟨n, before.toward holds, hedge, fun hsame => ?_, combining_of_ne hother hother',
      NodeKind.toward_remap.symm⟩
    exact absurd (hplans.eq_first h hlive htargets (hsame ▸ hedge)) hother

end Merges

end Merging

end FlowGraph

namespace Merging

/-- Visiting a node merges it as planned, or no merge is planned for it and nothing is done. -/
theorem visit_cases
    (s : Merging)
    (id : NodeId) :
    ((s.visit id).graph = s.graph ∧ (s.visit id).tree = s.tree ∧
        (s.visit id).merged = s.merged ∧ s.graph.Unmergeable id) ∨
      ∃ b merge, s.graph.isLive id = true ∧ (s.graph.node id).kind.targets? = some b ∧
        b.contains id = false ∧ s.graph.mergePlan id b = some merge ∧
        (s.visit id).graph = (s.graph.mergeBranches id merge).2 ∧
        (s.visit id).tree = s.tree.mergeInto id merge.second s.graph.size ∧
        (s.visit id).merged = s.merged + 1 := by
  unfold visit
  split
  · next hnone =>
      refine .inl ⟨rfl, rfl, rfl, fun b hlive htargets => ?_⟩
      simp [FlowGraph.node?, hlive, htargets] at hnone
  · next b hfound =>
      obtain ⟨n, hthere, htargets⟩ := Option.bind_eq_some_iff.1 hfound
      obtain ⟨hlive, rfl⟩ : s.graph.isLive id = true ∧ s.graph.node id = n := by
        simpa [FlowGraph.node?] using hthere
      have hsame (b' : BranchTargets) (htargets' : (s.graph.node id).kind.targets? = some b') :
          b = b' :=
        Option.some.inj (htargets.symm.trans htargets')
      split
      · next hown =>
          refine .inl ⟨rfl, rfl, rfl, fun b' _ htargets' houter => ?_⟩
          rw [hsame b' htargets', houter] at hown
          cases hown
      · next houter =>
          dsimp only
          split
          · next hnone =>
              exact .inl ⟨rfl, rfl, rfl, fun b' _ htargets' _ => hsame b' htargets' ▸ hnone⟩
          · next merge hplanned =>
              exact .inr ⟨b, merge, hlive, htargets, by simpa using houter, hplanned, rfl, rfl, rfl⟩

section Passes

variable {s : Merging} {bound : Nat}

/-- A pass that finds nothing is the last one. -/
theorem passes_of_quiet
    (hquiet : s.pass.merged = s.merged) :
    passes (bound + 1) s = (s.pass, false) :=
  if_pos hquiet

/-- Behind a pass that has found something the nodes are numbered anew. -/
theorem passes_of_busy
    (hbusy : s.pass.merged ≠ s.merged) :
    passes (bound + 1) s = passes bound { s.pass with graph := s.pass.graph.reorder } :=
  if_neg hbusy

end Passes

section Induction

variable {P : FlowGraph → DominatorTree → Nat → Prop}
  (hmerge : ∀ g tree count first b merge, P g tree count → g.isLive first = true →
    (g.node first).kind.targets? = some b → b.contains first = false →
    g.mergePlan first b = some merge →
    P (g.mergeBranches first merge).2 (tree.mergeInto first merge.second g.size) (count + 1))

include hmerge

/-- **What every merge preserves holds after a pass**, also where it is about the number of
merges. -/
theorem pass_induction
    (s : Merging)
    (hstart : P s.graph s.tree s.merged) :
    P s.pass.graph s.pass.tree s.pass.merged := by
  have hvisit (s : Merging) (id : NodeId) (h : P s.graph s.tree s.merged) :
      P (s.visit id).graph (s.visit id).tree (s.visit id).merged := by
    rcases s.visit_cases id with
      ⟨hgraph, htree, hmerged, -⟩ | ⟨b, found, hlive, htargets, houter, hplanned, hgraph,
        htree, hmerged⟩
    · rwa [hgraph, htree, hmerged]
    · rw [hgraph, htree, hmerged]
      exact hmerge _ _ _ id b found h hlive htargets houter hplanned
  unfold Merging.pass
  generalize s.graph.postOrder = ids
  induction ids generalizing s with
  | nil => exact hstart
  | cons id ids ih => exact ih (s.visit id) (hvisit s id hstart)

/-- **What every merge and every renumbering preserves holds after all passes**, also where it is
about the number of merges. -/
theorem counted_induction
    (hreorder : ∀ g tree count, P g tree count → P g.reorder tree count)
    (bound : Nat)
    (s : Merging)
    (hstart : P s.graph s.tree s.merged) :
    P (passes bound s).1.graph (passes bound s).1.tree (passes bound s).1.merged := by
  induction bound generalizing s with
  | zero => exact hstart
  | succ bound ih =>
      have hnext := pass_induction hmerge s hstart
      by_cases hquiet : s.pass.merged = s.merged
      · rw [passes_of_quiet hquiet]
        exact hnext
      · rw [passes_of_busy hquiet]
        exact ih _ (hreorder _ _ _ hnext)

end Induction

/-- **What every merge and every renumbering preserves holds after all passes.** -/
theorem passes_induction
    {P : FlowGraph → DominatorTree → Prop}
    (hmerge : ∀ g tree first b merge, P g tree → g.isLive first = true →
      (g.node first).kind.targets? = some b → b.contains first = false →
      g.mergePlan first b = some merge →
      P (g.mergeBranches first merge).2 (tree.mergeInto first merge.second g.size))
    (hreorder : ∀ g tree, P g tree → P g.reorder tree)
    (bound : Nat)
    (s : Merging)
    (hstart : P s.graph s.tree) :
    P (passes bound s).1.graph (passes bound s).1.tree :=
  counted_induction (P := fun g tree _ => P g tree) (fun g tree _ => hmerge g tree)
    (fun g tree _ => hreorder g tree) bound s hstart

end Merging

namespace FlowGraph

/-- The visits of one pass make the graph, apart from its numbers. -/
theorem retouches_merged_one
    (g : FlowGraph)
    (tree : DominatorTree)
    {order : List NodeId}
    (hvisits : g.postOrder = order) :
    Retouches Renumbered
      (order.foldl Merging.visit { graph := g, tree, merged := 0, dangling := false }).graph
      (g.merged tree 1) := by
  subst hvisits
  unfold merged Merging.passes
  dsimp only
  split
  · exact .refl Renumbered.refl _
  · exact retouches_reorder _

end FlowGraph
end DalvikDecompiler
