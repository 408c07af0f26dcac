import DalvikDecompiler.Proofs.Digraph.Collapse
import DalvikDecompiler.Proofs.FlowGraph.Marking
import DalvikDecompiler.Proofs.FlowGraph.Merging

/-!
# Entering protected regions

**Input.** A flow graph that keeps each edge at both of its ends.

A region is entered through a new node, which all edges into its start lead to and which leads to
the start only.  The new node and the start are a part of the graph with the new node at its head,
so that nodes that were there before dominate each other as before.

**Results.**
* `Subdivides`: a graph has more nodes, and its old ones dominate each other as before.
* `Enters.subdivides`: entering a region does that.
* `protect_protects`: entering all regions does, and the new nodes that can be reached are those
  that regions are entered through.
-/

namespace DalvikDecompiler

open Edges (replacing replacing_self replacing_of_ne)

namespace Digraph

variable {g : Digraph} {t i n a : NodeId} {nodes : List NodeId}

/-- What goes on from a node with one successor passes that one. -/
theorem Walk.mem_of_only
    (w : g.Walk t n nodes)
    (honly : ∀ m ∈ g.succs t, m = i)
    (hother : n ≠ t) :
    i ∈ nodes := by
  induction w with
  | here => exact absurd rfl hother
  | @step b c nodes w hedge ih =>
      by_cases here : b = t
      · rw [honly c (here ▸ hedge)]
        exact List.mem_append_right _ (List.mem_singleton.2 rfl)
      · exact List.mem_append_left _ (ih here)

/-- The only successor of a node dominates what the node dominates, apart from itself. -/
theorem Dominates.of_only
    (h : g.Dominates t n)
    (honly : ∀ m ∈ g.succs t, m = i)
    (hother : n ≠ t) :
    g.Dominates i n := by
  intro nodes w
  obtain ⟨front, behind, rfl⟩ := List.append_of_mem (h nodes w)
  exact List.mem_append_right _ ((w.split rfl).2.mem_of_only honly hother)

/-- A graph has the nodes of another one, which are reached and dominate each other as there. -/
structure Subdivides (g g' : Digraph) : Prop where
  size_le : g.size ≤ g'.size
  reachable_iff : ∀ n < g.size, g'.Reachable g'.entry n ↔ g.Reachable g.entry n
  dominates_iff : ∀ d n, d < g.size → n < g.size → g.Reachable g.entry n →
    (g'.Dominates d n ↔ g.Dominates d n)

theorem Subdivides.refl
    (g : Digraph) :
    Subdivides g g :=
  ⟨le_rfl, fun _ _ => .rfl, fun _ _ _ _ _ => .rfl⟩

theorem Subdivides.trans
    {g g' g'' : Digraph}
    (h : Subdivides g g')
    (h' : Subdivides g' g'') :
    Subdivides g g'' where
  size_le := h.size_le.trans h'.size_le
  reachable_iff n hknown :=
    (h'.reachable_iff n (hknown.trans_le h.size_le)).trans (h.reachable_iff n hknown)
  dominates_iff d n hknown hknown' hreached :=
    (h'.dominates_iff d n (hknown.trans_le h.size_le) (hknown'.trans_le h.size_le)
      ((h.reachable_iff n hknown').2 hreached)).trans (h.dominates_iff d n hknown hknown' hreached)

theorem Walk.of_succs
    {g g' : Digraph}
    (hsame : g'.succs = g.succs)
    {a b : NodeId}
    {nodes : List NodeId}
    (w : g.Walk a b nodes) :
    g'.Walk a b nodes := by
  induction w with
  | here => exact .here
  | step _ hedge ih => exact ih.step (hsame ▸ hedge)

/-- Nodes without edges make no difference. -/
theorem subdivides_of_succs
    {g g' : Digraph}
    (hsize_le : g.size ≤ g'.size)
    (hentry : g'.entry = g.entry)
    (hsuccs : g'.succs = g.succs) :
    Subdivides g g' := by
  have hwalk_iff (a b : NodeId) (nodes : List NodeId) : g'.Walk a b nodes ↔ g.Walk a b nodes :=
    ⟨.of_succs hsuccs.symm, .of_succs hsuccs⟩
  refine ⟨hsize_le, fun n _ => ?_, fun d n _ _ _ => ?_⟩
  · simp only [Reachable, hwalk_iff, hentry]
  · simp only [Dominates, hwalk_iff, hentry]

end Digraph

namespace FlowGraph

/-- What entering a region that starts at a node makes of a graph. -/
structure Enters (g g' : FlowGraph) (start : NodeId) : Prop where
  wired : g'.Wired
  size_eq : g'.size = g.size + 1
  entry_eq : g'.entry = replacing start g.size g.entry
  isLive_eq : ∀ n, g'.isLive n = (n == g.size || g.isLive n)
  kind_new : ∃ follow, (g'.node g.size).kind = .tryBlock start [] follow
  ins_new : (g'.node g.size).ins = []
  locs_new : (g'.node g.size).locs = []
  renews : ∀ n, g.isLive n = true → (g.node n).Renews (replacing start g.size) (g'.node n)
  mem_flowSuccs : ∀ a b, b ∈ g'.flowSuccs a ↔
    a = g.size ∧ b = start ∨ ∃ y ∈ g.flowSuccs a, replacing start g.size y = b

section Entering

variable {g g' : FlowGraph} {start n : NodeId}

/-- A node that is not the new one is found again. -/
theorem replacing_back
    {new : NodeId}
    (hother : n ≠ new) :
    replacing new start (replacing start new n) = n := by
  unfold replacing
  grind

theorem replacing_start
    (new : NodeId) :
    replacing new start start = start := by
  unfold replacing
  exact ite_self _

theorem enters_enterTry
    (h : g.Wired)
    (hlive : g.isLive start = true) :
    (g.enterTry start).1 = g.size ∧ Enters g (g.enterTry start).2 start := by
  refine ⟨rfl, ?_⟩
  unfold enterTry
  dsimp only
  rw [fst_addNode]
  generalize g.regionFollow start = follow
  have hcode : ({ (g.node start).shell ((g.node start).name ++ "-try") .statement with
      startsLoop := false, latch := none, loopNodes := [] } : Node).ins = [] ∧
      ({ (g.node start).shell ((g.node start).name ++ "-try") .statement with
        startsLoop := false, latch := none, loopNodes := [] } : Node).locs = [] := ⟨rfl, rfl⟩
  generalize ({ (g.node start).shell ((g.node start).name ++ "-try") .statement with
    startsLoop := false, latch := none, loopNodes := [] } : Node) = added at hcode ⊢
  have hapart : g.size ≠ start := (lt_size_of_isLive hlive).ne'
  let entered := ((g.addNode added).2.retarget start g.size).modifyNode g.size fun n =>
    { n with kind := .tryBlock start [] follow }
  have hwired : entered.Wired := ((h.addNode added).retarget ..).modifyNode ..
  have hisLive (n : NodeId) : entered.isLive n = (n == g.size || g.isLive n) := by
    simp [entered, isLive_addNode]
  have hthere : entered.isLive g.size = true := by simp [hisLive]
  have hnew : ((g.addNode added).2.retarget start g.size).node g.size =
      added.retarget start g.size := by
    rw [node_retarget _ _ _ _ (by simp [isLive_addNode]), node_addNode, if_pos rfl]
  have hnode (n : NodeId) : entered.node n =
      if n = g.size then
        { ((g.addNode added).2.retarget start g.size).node n with
          kind := .tryBlock start [] follow }
      else
        ((g.addNode added).2.retarget start g.size).node n :=
    node_modifyNode _ n _ (by simp)
  obtain ⟨hwired₁, hsame₁, hsuccs₁, handlers₁⟩ := hwired.moveIncoming hthere hapart
  obtain ⟨hwired₂, hsame₂, hsuccs₂, handlers₂⟩ := hwired₁.addEdge (a := g.size) (b := start)
    ((hsame₁.isLive_eq _).trans hthere) (by rw [hsame₁.isLive_eq, hisLive, hlive, Bool.or_true])
  have hsame := hsame₁.trans hsame₂
  refine
    { wired := hwired₂
      size_eq := by rw [hsame.size_eq]; simp [entered]
      entry_eq := hsame.entry_eq
      isLive_eq := fun n => (hsame.isLive_eq n).trans (hisLive n)
      kind_new := ⟨follow, ?_⟩
      ins_new := ?_
      locs_new := ?_
      renews := fun n hknown => ?_
      mem_flowSuccs := fun a b => ?_ }
  · rw [hsame.node_eq, hnode, if_pos rfl]
  · rw [hsame.node_eq, hnode, if_pos rfl, hnew]
    exact hcode.1
  · rw [hsame.node_eq, hnode, if_pos rfl, hnew]
    exact hcode.2
  · rw [hsame.node_eq, hnode, if_neg (lt_size_of_isLive hknown).ne,
      node_retarget _ _ _ _ (by simp [isLive_addNode, hknown]), node_addNode,
      if_neg (lt_size_of_isLive hknown).ne]
    exact ⟨rfl, rfl, rfl⟩
  · have hsuccs : b ∈ ((entered.moveIncoming start g.size).addEdge g.size start).succs a ↔
        a = g.size ∧ b = start ∨ ∃ y ∈ g.succs a, replacing start g.size y = b := by
      have hedges : entered.succs a = g.succs a := by simp [entered]
      rw [hsuccs₂, hsuccs₁, hedges, ← mem_substitute_iff hapart (h.nodup_succs a)]
      split
      · next here => simp [here, OrderedSet.mem_insert, or_comm]
      · next hother => simp [hother]
    have handlers : b ∈ ((entered.moveIncoming start g.size).addEdge g.size start).handlerSuccs a ↔
        ∃ y ∈ g.handlerSuccs a, replacing start g.size y = b := by
      have hedges : entered.handlerSuccs a = g.handlerSuccs a := by simp [entered]
      rw [handlers₂, handlers₁, hedges]
      exact mem_readdressed_iff
    simp only [flowSuccs, List.mem_append]
    rw [hsuccs, handlers, or_assoc, ← exists_or]
    simp only [← or_and_right]

namespace Enters

variable (h : Enters g g' start)
include h

/-- The start is reached if the node in front of it is. -/
theorem reachable_of_replacing
    (houter : g'.toDigraph.Reachable g'.entry (replacing start g.size n)) :
    g'.toDigraph.Reachable g'.entry n := by
  unfold replacing at houter
  split at houter
  · next here => exact houter.step ((h.mem_flowSuccs _ _).2 (.inl ⟨rfl, here⟩))
  · exact houter

/-- The node in front of the start is reached if the start is. -/
theorem new_reachable
    (hlive : g.isLive start = true)
    (hreached : g'.toDigraph.Reachable g'.entry start) :
    g'.toDigraph.Reachable g'.entry g.size := by
  have hapart : g.size ≠ start := (lt_size_of_isLive hlive).ne'
  have hother (y : NodeId) : replacing start g.size y ≠ start := by
    unfold replacing
    split
    · exact hapart
    · next hother => exact hother
  obtain ⟨nodes, w⟩ := hreached
  generalize htarget : start = x at w
  cases w with
  | here => exact absurd (h.entry_eq.symm.trans htarget.symm) (hother _)
  | step w hedge =>
      rcases (h.mem_flowSuccs _ _).1 hedge with ⟨rfl, -⟩ | ⟨y, -, hsame⟩
      · exact ⟨_, w⟩
      · exact absurd (hsame.trans htarget.symm) (hother y)

variable (hwired : g.Wired) (hentry : g.isLive g.entry = true)
include hwired hentry

/-- What has been reached before is reached now, through the new node if it is the start. -/
theorem reachable
    (hreached : g.toDigraph.Reachable g.entry n) :
    g.isLive n = true ∧ g'.toDigraph.Reachable g'.entry (replacing start g.size n) := by
  obtain ⟨nodes, w⟩ := hreached
  induction w with
  | here =>
      rw [← h.entry_eq]
      exact ⟨hentry, .refl _ _⟩
  | @step b c nodes w hedge ih =>
      exact ⟨(hwired.live_of_flow hedge).2, (h.reachable_of_replacing ih.2).step
        ((h.mem_flowSuccs b _).2 (.inr ⟨c, hedge, rfl⟩))⟩

variable (hlive : g.isLive start = true)
include hlive

/-- **A region and the node it is entered through are a part.** -/
theorem collapse :
    g'.toDigraph.Collapse g.toDigraph
      (fun i x => g'.toDigraph.Reachable g'.entry x ∧ replacing g.size start x = i)
      (replacing start g.size) where
  reachable_iff x := ⟨fun ⟨_, hreached, _⟩ => hreached, fun hreached => ⟨_, hreached, rfl⟩⟩
  unique _ _ _ hleft hright := hleft.2.symm.trans hright.2
  head_mem i hreached := by
    obtain ⟨hlive, houter⟩ := h.reachable hwired hentry hreached
    exact ⟨houter, replacing_back (lt_size_of_isLive hlive).ne⟩
  entry := h.entry_eq.symm
  enters := by
    rintro i j x y ⟨-, rfl⟩ ⟨-, rfl⟩ hedge hdiffer
    rcases (h.mem_flowSuccs x y).1 hedge with ⟨rfl, rfl⟩ | ⟨z, horigin, rfl⟩
    · exact absurd (replacing_self.trans (replacing_start ..).symm) hdiffer
    · obtain ⟨hlive, hlive'⟩ := hwired.live_of_flow horigin
      rw [replacing_back (lt_size_of_isLive hlive').ne,
        replacing_of_ne (lt_size_of_isLive hlive).ne]
      exact ⟨rfl, horigin⟩
  exits i j hreached hedge := by
    obtain ⟨hlive, houter⟩ := h.reachable hwired hentry hreached
    exact ⟨i, ⟨h.reachable_of_replacing houter, replacing_of_ne (lt_size_of_isLive hlive).ne⟩,
      (h.mem_flowSuccs i _).2 (.inr ⟨j, hedge, rfl⟩)⟩
  connected i x := by
    rintro ⟨hreached, rfl⟩
    by_cases hnew : x = g.size
    · subst hnew
      rw [replacing_self, replacing_self]
      refine ⟨_, .here, fun n hon => ?_⟩
      obtain rfl := List.mem_singleton.1 hon
      exact ⟨hreached, replacing_self⟩
    rw [replacing_of_ne hnew]
    by_cases hfirst : x = start
    · subst hfirst
      rw [replacing_self]
      refine ⟨_, Digraph.Walk.here.step ((h.mem_flowSuccs _ _).2 (.inl ⟨rfl, rfl⟩)),
        fun n hon => ?_⟩
      rcases List.mem_append.1 hon with hon | hon
      · obtain rfl := List.mem_singleton.1 hon
        exact ⟨h.new_reachable hlive hreached, replacing_self⟩
      · obtain rfl := List.mem_singleton.1 hon
        exact ⟨hreached, replacing_of_ne hnew⟩
    · rw [replacing_of_ne hfirst]
      refine ⟨_, .here, fun n hon => ?_⟩
      obtain rfl := List.mem_singleton.1 hon
      exact ⟨hreached, replacing_of_ne hnew⟩

/-- **Entering a region leaves dominance alone.** -/
theorem subdivides :
    g.toDigraph.Subdivides g'.toDigraph := by
  have hparts := h.collapse hwired hentry hlive
  have hknown {n : NodeId} (hlt : n < g.toDigraph.size) : replacing g.size start n = n :=
    replacing_of_ne (Nat.ne_of_lt hlt)
  have hreachable_iff (n : NodeId) (hlt : n < g.toDigraph.size) :
      g'.toDigraph.Reachable g'.entry n ↔ g.toDigraph.Reachable g.entry n :=
    ⟨fun hreached => hparts.reached ⟨hreached, hknown hlt⟩,
      fun hreached => h.reachable_of_replacing (h.reachable hwired hentry hreached).2⟩
  refine ⟨by simp [toDigraph, h.size_eq], hreachable_iff, fun d n hlt hlt' hreached => ?_⟩
  have hreached' := (hreachable_iff n hlt').2 hreached
  have houtward (hstarted : g.toDigraph.Reachable g.entry d) :
      g.toDigraph.Dominates d n ↔ g'.toDigraph.Dominates (replacing start g.size d) n :=
    hparts.dominates_iff hstarted ⟨hreached', hknown hlt'⟩
  refine ⟨fun hdominates => ?_, fun hdominates => ?_⟩
  · have hstarted := (hreachable_iff d hlt).1 (hdominates.reachable hreached')
    rw [houtward hstarted]
    exact (hparts.dominates_head ⟨hdominates.reachable hreached', hknown hlt⟩).trans hdominates
  · rw [houtward (hdominates.reachable hreached)] at hdominates
    unfold replacing at hdominates
    split at hdominates
    · next here =>
        refine hdominates.of_only (fun m hedge => ?_) (Nat.ne_of_lt hlt')
        rcases (h.mem_flowSuccs _ m).1 hedge with ⟨-, rfl⟩ | ⟨y, horigin, -⟩
        · exact here.symm
        · exact absurd (lt_size_of_isLive (hwired.live_of_flow horigin).1) (lt_irrefl _)
    · exact hdominates

end Enters

end Entering

/-- What holds while regions are entered, one after another. -/
structure Protects (g g' : FlowGraph) (regions : List (NodeId × NodeId)) : Prop where
  wired : g'.Wired
  entry_live : g'.isLive g'.entry = true
  subdivides : g.toDigraph.Subdivides g'.toDigraph
  /-- The new nodes that can be reached are those that regions are entered through. -/
  entered_iff : ∀ n, g'.toDigraph.Reachable g'.entry n →
    ((g'.node n).kind.entered? = none ↔ n < g.size)
  entry_cases : g'.entry = g.entry ∨
    regions.lookup g.entry = some g'.entry ∧ (g'.node g'.entry).kind.entered? = some g.entry

section Protecting

variable {g g' g'' : FlowGraph} {regions : List (NodeId × NodeId)} {tree : DominatorTree}
variable {start n : NodeId}

theorem protects_refl
    (h : g.Wired)
    (hentry : g.isLive g.entry = true)
    (houtside : ∀ n, g.isLive n = true → (g.node n).kind.entered? = none) :
    Protects g g [] where
  wired := h
  entry_live := hentry
  subdivides := .refl _
  entered_iff n hreached :=
    have hlive := h.live_of_reachable hentry hreached
    ⟨fun _ => lt_size_of_isLive hlive, fun _ => houtside n hlive⟩
  entry_cases := .inl rfl

/-- Nodes are changed, but not where the regions start that they enter. -/
theorem Protects.retouch
    (h : Protects g g' regions)
    (htouch : Retouches (fun n n' => n'.kind.entered? = n.kind.entered?) g' g'') :
    Protects g g'' regions where
  wired := h.wired.retouch htouch
  entry_live := by
    rw [htouch.isLive_eq, htouch.entry_eq]
    exact h.entry_live
  subdivides := htouch.toDigraph_eq ▸ h.subdivides
  entered_iff n hreached := by
    rw [htouch.toDigraph_eq, htouch.entry_eq] at hreached
    rw [htouch.kept n]
    exact h.entered_iff n hreached
  entry_cases := by
    rw [htouch.entry_eq, htouch.kept]
    exact h.entry_cases

/-- A node without edges joins the graph. -/
theorem Protects.addNode
    (h : Protects g g' regions)
    (added : Node) :
    Protects g (g'.addNode added).2 regions := by
  have hsubdivides : g'.toDigraph.Subdivides (g'.addNode added).2.toDigraph :=
    Digraph.subdivides_of_succs (by simp [toDigraph]) rfl
      (funext fun n => by simp [toDigraph, flowSuccs])
  have hreachable {n : NodeId}
      (hreached : (g'.addNode added).2.toDigraph.Reachable (g'.addNode added).2.entry n) :
      n < g'.size ∧ g'.toDigraph.Reachable g'.entry n := by
    have hreached : g'.toDigraph.Reachable g'.entry n := by
      obtain ⟨nodes, w⟩ := hreached
      exact ⟨nodes, w.of_succs (funext fun n => by simp [toDigraph, flowSuccs])⟩
    exact ⟨lt_size_of_isLive (h.wired.live_of_reachable h.entry_live hreached), hreached⟩
  have hkept {n : NodeId} (hknown : n < g'.size) : (g'.addNode added).2.node n = g'.node n := by
    rw [node_addNode, if_neg hknown.ne]
  refine ⟨h.wired.addNode added, ?_, h.subdivides.trans hsubdivides, fun n hreached => ?_, ?_⟩
  · rw [isLive_addNode, show (g'.addNode added).2.entry = g'.entry from rfl, h.entry_live,
      Bool.or_true]
  · obtain ⟨hknown, hreached⟩ := hreachable hreached
    rw [hkept hknown]
    exact h.entered_iff n hreached
  · rw [show (g'.addNode added).2.entry = g'.entry from rfl, hkept (lt_size_of_isLive h.entry_live)]
    exact h.entry_cases

/-- A region is entered for the first time. -/
theorem Protects.enter
    (h : Protects g g' regions)
    (hreached : g.toDigraph.Reachable g.entry start)
    (hknown : start < g.size)
    (hfresh : regions.lookup start = none) :
    Protects g (g'.enterTry start).2 (regions ++ [(start, (g'.enterTry start).1)]) := by
  have hreached' := (h.subdivides.reachable_iff start hknown).2 hreached
  have hlive := h.wired.live_of_reachable h.entry_live hreached'
  obtain ⟨hnew, henters⟩ := enters_enterTry h.wired hlive
  rw [hnew]
  generalize (g'.enterTry start).2 = entered at henters
  have hsubdivides := henters.subdivides h.wired h.entry_live hlive
  have hsize_le : g.size ≤ g'.size := h.subdivides.size_le
  have hlive_iff {n : NodeId} : entered.isLive n = true ↔ n = g'.size ∨ g'.isLive n = true := by
    simp [henters.isLive_eq]
  have hkind {n : NodeId} (hthere : g'.isLive n = true) : (entered.node n).kind.entered? =
      (g'.node n).kind.entered?.map (replacing start g'.size) := by
    rw [(henters.renews n hthere).kind_eq, NodeKind.entered?_remap]
  have hkind_new : (entered.node g'.size).kind.entered? = some start := by
    obtain ⟨follow, hkind⟩ := henters.kind_new
    rw [hkind]
    rfl
  have hentry_live : entered.isLive entered.entry = true := by
    rw [hlive_iff, henters.entry_eq]
    unfold replacing
    split
    · exact .inl rfl
    · exact .inr h.entry_live
  refine ⟨henters.wired, hentry_live, h.subdivides.trans hsubdivides, fun n hreached => ?_, ?_⟩
  · rcases hlive_iff.1 (henters.wired.live_of_reachable hentry_live hreached) with rfl | hthere
    · rw [hkind_new]
      exact ⟨nofun, fun hlt => absurd hsize_le (Nat.not_le.2 hlt)⟩
    · rw [hkind hthere, Option.map_eq_none_iff]
      exact h.entered_iff n ((hsubdivides.reachable_iff n (lt_size_of_isLive hthere)).1 hreached)
  · rw [henters.entry_eq]
    rcases h.entry_cases with hsame | ⟨hfound, hthrough⟩
    · by_cases here : g.entry = start
      · rw [hsame, here, replacing_self, hkind_new]
        exact .inr ⟨by simp [List.lookup_append, hfresh], rfl⟩
      · exact .inl (by rw [hsame, replacing_of_ne here])
    · have hother : g.entry ≠ start := fun here => by
        rw [here, hfresh] at hfound
        cases hfound
      have hother' : g'.entry ≠ start := fun here => by
        have hnone := (h.entered_iff start hreached').2 hknown
        rw [← here, hthrough] at hnone
        cases hnone
      rw [replacing_of_ne hother', hkind h.entry_live, hthrough, List.lookup_append, hfound]
      exact .inr ⟨rfl, congrArg some (replacing_of_ne hother)⟩

theorem retouches_dropBinding
    (handler : NodeId) :
    Retouches Recoded g (g.dropBinding handler) := by
  unfold dropBinding
  split
  · exact .refl Recoded.refl g
  · exact retouches_removeInstr g _
  · exact retouches_modifyNode handler Recoded.refl fun _ => rfl

theorem retouches_addCatch
    (region handler : NodeId) :
    Retouches (fun n n' => n'.kind.entered? = n.kind.entered?) g (g.addCatch region handler) := by
  refine retouches_modifyNode region (fun _ => rfl) fun n => ?_
  split
  · next hkind => rw [hkind]; rfl
  · rfl

/-- Every handler is entered through a node of its own. -/
theorem Protects.enterCatch
    (h : Protects g g' regions)
    (handler : NodeId) :
    Protects g (g'.enterCatch handler).2 regions :=
  (h.retouch ((retouches_dropBinding handler).mono fun _ _ hsame => by rw [hsame.sameKind])).addNode
    _

/-- The region that starts at a node is there when it is asked for. -/
theorem Protects.region
    {s : Protection}
    (h : Protects g s.graph s.regions)
    (hreached : g.toDigraph.Reachable g.entry start)
    (hknown : start < g.size) :
    Protects g (s.region start).2.graph (s.region start).2.regions := by
  unfold Protection.region
  split
  · exact h
  · next hfresh =>
      have hentered := h.enter hreached hknown hfresh
      generalize s.graph.enterTry start = made at hentered ⊢
      exact hentered

/-- A handler is put into the region that starts right above it. -/
theorem Protects.addHandler
    {s : Protection}
    (h : Protects g s.graph s.regions)
    (handler : NodeId)
    (habove : ∀ start, tree.immediateDominator handler = some start →
      g.toDigraph.Reachable g.entry start ∧ start < g.size) :
    Protects g (s.addHandler tree handler).graph (s.addHandler tree handler).regions := by
  unfold Protection.addHandler
  split
  · exact h
  · next start hfound =>
      obtain ⟨hreached, hknown⟩ := habove start hfound
      exact ((h.region hreached hknown).enterCatch handler).retouch (retouches_addCatch _ _)

/-- **Entering all regions leaves the graph as it was, apart from the nodes they are entered
through.**
-/
theorem protect_protects
    (h : g.Wired)
    (hentry : g.isLive g.entry = true)
    (horder : g.order = g.toDigraph.reversePostorder g.entry)
    (houtside : ∀ n, g.isLive n = true → (g.node n).kind.entered? = none)
    (hfits : tree.Fits g.toDigraph) :
    ∃ regions, Protects g (g.protect tree).graph regions := by
  have hsweep := Digraph.reversePostorder_isSweepOrder h.wellFormed (lt_size_of_isLive hentry)
  have habove (handler : NodeId) (hmem : handler ∈ g.handlers) (start : NodeId)
      (hfound : tree.immediateDominator handler = some start) :
      g.toDigraph.Reachable g.entry start ∧ start < g.size := by
    have hlisted : handler ∈ g.order := (List.mem_filter.1 hmem).1
    have hreached := (hsweep.mem_iff handler).1 (horder ▸ hlisted)
    have hreached := ((hfits.some_iff handler start hreached).1 hfound).1.2.reachable hreached
    exact ⟨hreached, lt_size_of_isLive (h.live_of_reachable hentry hreached)⟩
  unfold protect
  generalize g.handlers = handlers at habove
  have hall (s : Protection) (hstart : Protects g s.graph s.regions) :
      Protects g (handlers.foldl (Protection.addHandler tree) s).graph
        (handlers.foldl (Protection.addHandler tree) s).regions := by
    induction handlers generalizing s with
    | nil => exact hstart
    | cons handler rest ih =>
        exact ih (fun n hmem => habove n (List.mem_cons_of_mem _ hmem)) _
          (hstart.addHandler handler (habove handler List.mem_cons_self))
  exact ⟨_, hall _ (protects_refl h hentry houtside)⟩

end Protecting

end FlowGraph

namespace DominatorTree

/-- A tree fits a graph apart from the nodes that regions are entered through: these are not in the
tree, and of the others it names the nearest dominators among each other. -/
structure FitsApart (g : FlowGraph) (t : DominatorTree) : Prop where
  entry_eq : t.entry = (g.node g.entry).kind.entered?.getD g.entry
  none_iff : ∀ n, g.toDigraph.Reachable g.entry n → (g.node n).kind.entered? = none →
    (t.immediateDominator n = none ↔ n = t.entry)
  some_iff : ∀ n d, g.toDigraph.Reachable g.entry n → (g.node n).kind.entered? = none →
    (t.immediateDominator n = some d ↔
      (g.node d).kind.entered? = none ∧ g.toDigraph.StrictlyDominates d n ∧
        ∀ e, (g.node e).kind.entered? = none → g.toDigraph.StrictlyDominates e n →
          g.toDigraph.Dominates e d)
  missing : ∀ n, g.toDigraph.Reachable g.entry n → (g.node n).kind.entered? ≠ none →
    t.immediateDominator n = none

/-- Where no region is entered, the tree is that of the graph. -/
theorem FitsApart.fits
    {g : FlowGraph}
    {t : DominatorTree}
    (h : FitsApart g t)
    (houtside : ∀ n, g.toDigraph.Reachable g.entry n → (g.node n).kind.entered? = none) :
    t.Fits g.toDigraph := by
  have hentry_eq : t.entry = g.entry := by
    rw [h.entry_eq, houtside g.entry (.refl _ _)]
    rfl
  refine ⟨hentry_eq, fun n hreached => ?_, fun n d hreached => ?_⟩
  · rw [h.none_iff n hreached (houtside n hreached), hentry_eq]
    rfl
  · rw [h.some_iff n d hreached (houtside n hreached)]
    refine ⟨fun ⟨_, hstrict, hnearest⟩ => ⟨hstrict, fun e hother => ?_⟩,
      fun ⟨hstrict, hnearest⟩ => ⟨?_, hstrict, fun e _ hother => hnearest e hother⟩⟩
    · exact hnearest e (houtside e (hother.2.reachable hreached)) hother
    · exact houtside d (hstrict.2.reachable hreached)

end DominatorTree

namespace FlowGraph

open DominatorTree (FitsApart)

variable {g g' : FlowGraph} {regions : List (NodeId × NodeId)} {tree : DominatorTree}

/-- **The tree of a graph fits it apart from regions entered since then.** -/
theorem Protects.fitsApart
    (h : Protects g g' regions)
    (hwired : g.Wired)
    (hentry : g.isLive g.entry = true)
    (hfits : tree.Fits g.toDigraph)
    (hbeyond : ∀ n, g.size ≤ n → tree.immediateDominator n = none) :
    FitsApart g' tree := by
  have hold {n : NodeId} (hreached : g'.toDigraph.Reachable g'.entry n)
      (houtside : (g'.node n).kind.entered? = none) :
      n < g.size ∧ g.toDigraph.Reachable g.entry n :=
    have hknown := (h.entered_iff n hreached).1 houtside
    ⟨hknown, (h.subdivides.reachable_iff n hknown).1 hreached⟩
  have hentry_eq : tree.entry = (g'.node g'.entry).kind.entered?.getD g'.entry := by
    rw [hfits.entry_eq]
    rcases h.entry_cases with hsame | ⟨-, hthrough⟩
    · have hknown : g'.entry < g.size := hsame ▸ lt_size_of_isLive hentry
      rw [(h.entered_iff _ (.refl _ _)).2 hknown]
      exact hsame.symm
    · rw [hthrough]
      rfl
  refine ⟨hentry_eq, fun n hreached houtside => ?_, fun n d hreached houtside => ?_,
    fun n hreached hentering => ?_⟩
  · rw [hfits.none_iff n (hold hreached houtside).2, hfits.entry_eq]
  · obtain ⟨hknown, hbefore⟩ := hold hreached houtside
    have hdominates_iff {e : NodeId} (hknown' : e < g.size) :=
      h.subdivides.dominates_iff e n hknown' hknown hbefore
    rw [hfits.some_iff n d hbefore]
    constructor
    · rintro ⟨⟨hother, hdominates⟩, hnearest⟩
      have hcame := hdominates.reachable hbefore
      have hknown' := lt_size_of_isLive (hwired.live_of_reachable hentry hcame)
      have hcame' := (h.subdivides.reachable_iff d hknown').2 hcame
      refine ⟨(h.entered_iff d hcame').2 hknown', ⟨hother, (hdominates_iff hknown').2 hdominates⟩,
        fun e hfree hstrict => ?_⟩
      obtain ⟨hknown'', -⟩ := hold (hstrict.2.reachable hreached) hfree
      exact (h.subdivides.dominates_iff e d hknown'' hknown' hcame).2
        (hnearest e ⟨hstrict.1, (hdominates_iff hknown'').1 hstrict.2⟩)
    · rintro ⟨hfree, ⟨hother, hdominates⟩, hnearest⟩
      obtain ⟨hknown', hcame⟩ := hold (hdominates.reachable hreached) hfree
      refine ⟨⟨hother, (hdominates_iff hknown').1 hdominates⟩, fun e hstrict => ?_⟩
      have hcame' := hstrict.2.reachable hbefore
      have hknown'' := lt_size_of_isLive (hwired.live_of_reachable hentry hcame')
      have hcame'' := (h.subdivides.reachable_iff e hknown'').2 hcame'
      exact (h.subdivides.dominates_iff e d hknown'' hknown' hcame).1
        (hnearest e ((h.entered_iff e hcame'').2 hknown'')
          ⟨hstrict.1, (hdominates_iff hknown'').2 hstrict.2⟩)
  · exact hbeyond n (Nat.le_of_not_lt fun hknown => hentering ((h.entered_iff n hreached).2 hknown))

end FlowGraph
end DalvikDecompiler
