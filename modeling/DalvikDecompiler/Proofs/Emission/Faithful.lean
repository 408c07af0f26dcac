import DalvikDecompiler.Proofs.Emission.Branches
import DalvikDecompiler.Proofs.Emission.Coupling
import DalvikDecompiler.Proofs.FlowGraph.Topological
import DalvikDecompiler.Region.Structure

/-!
# Code without loops keeps its control flow

Running the body that is written for code without loops shows the same as walking its flow graph,
however the conditions come out, and wherever branches are said to come together.  The numbers of
the nodes matter, since they name the labels and decide which branch is written first; those that a
graph without cycles gets when it is ordered will do.

Main statements: `emit_follows_walks`, `emit_visits_reachable`, `ascending_of_numbersCurrent`,
`distinctNumbers_of_numbersCurrent`.
-/

namespace DalvikDecompiler
namespace Emission

open Symbolic (VarId Variables Instr)
open Java (Block Statement Expression Action Behind)

/-- Running some code shows the same as walking the graph from a node. -/
structure Follows (w : Writing) (g : FlowGraph) (vars : Variables) (whole block : Block)
    (id : NodeId) : Prop where
  runs : ∀ flow, g.Walks id flow →
    ∃ events, Java.Runs whole block events ∧ Renders w vars flow events
  walks : ∀ events, Java.Runs whole block events →
    ∃ flow, g.Walks id flow ∧ Renders w vars flow events

/-- A body in which labels stand in front of their nodes, and no label is missing. -/
structure WellLabelled (src : Source) (vars : Variables) (whole : Block) : Prop where
  marked : ∀ name found, Behind whole [] name found →
    ∃ id, src.graph.isLive id = true ∧ src.labelOf id = name ∧ Here src vars found id
  labelled : ∀ id ∈ src.labels, ∃ found, Behind whole [] (src.labelOf id) found

/-- The nodes that a walk from the entry may come to. -/
def Reached (g : FlowGraph) (id : NodeId) : Prop :=
  Relation.ReflTransGen g.Leads g.entry id

/-- The number of a node that can be reached is not that of another node. -/
def DistinctNumbers (g : FlowGraph) : Prop :=
  ∀ id other, Reached g id → g.isLive other = true →
    (g.node id).num = (g.node other).num → id = other

variable {src : Source} {vars : Variables} {whole block rest : Block} {id : NodeId}

theorem Reached.isLive
    {g : FlowGraph}
    (h : g.LoopFree)
    (hreached : Reached g id) :
    g.isLive id = true := by
  induction hreached with
  | refl => exact h.entry
  | tail _ hleads hlive => exact h.isLive_of_leads hlive hleads

section Nodes

theorem follows_straight
    {next : NodeId}
    {own : Block}
    (hkind : (src.node id).kind = .statement)
    (hsuccs : src.graph.succs id = [next])
    (hstays : ∀ ins ∈ (src.node id).ins, ins.leaves = false)
    (hspells : Spells src.writing vars (src.node id).ins own)
    (h : Follows src.writing src.graph vars whole rest next) :
    Follows src.writing src.graph vars whole (own ++ rest) id := by
  constructor
  · intro flow hwalk
    obtain ⟨more, rfl, honward⟩ := (FlowGraph.walks_straight_iff hkind hsuccs).1 hwalk
    obtain ⟨events, hrun, hshown⟩ := h.runs more honward
    exact ⟨_, (hspells.runs_iff hstays).2 ⟨events, rfl, hrun⟩, hspells.renders.append hshown⟩
  · intro events hrun
    obtain ⟨later, rfl, honward⟩ := (hspells.runs_iff hstays).1 hrun
    obtain ⟨flow, hwalk, hshown⟩ := h.walks later honward
    exact ⟨_, (FlowGraph.walks_straight_iff hkind hsuccs).2 ⟨flow, rfl, hwalk⟩,
      hspells.renders.append hshown⟩

theorem follows_leave
    {own : Block}
    {ahead : List Instr}
    {last : Instr}
    (hkind : (src.node id).kind = .ret ∨ (src.node id).kind = .throw)
    (hcode : (src.node id).ins = ahead ++ [last])
    (hstays : ∀ ins ∈ ahead, ins.leaves = false)
    (hleaves : last.leaves = true)
    (hspells : Spells src.writing vars (src.node id).ins own) :
    Follows src.writing src.graph vars whole (own ++ rest) id := by
  have hruns_iff {events : List Action} :
      Java.Runs whole (own ++ rest) events ↔ events = ranAll own :=
    (hcode ▸ hspells).runs_leaving_iff hstays hleaves
  constructor
  · intro flow hwalk
    obtain rfl := (FlowGraph.walks_leave_iff hkind).1 hwalk
    exact ⟨_, hruns_iff.2 rfl, hspells.renders⟩
  · intro events hrun
    obtain rfl := hruns_iff.1 hrun
    exact ⟨_, (FlowGraph.walks_leave_iff hkind).2 rfl, hspells.renders⟩

section Branch

variable {b : BranchTargets} {vars' : Variables}
variable (hloop : (src.node id).kind.isLoop = false)
    (htargets : (src.node id).kind.targets? = some b)
variable (hcondition : src.graph.Testable id) (hsame : SameVars vars vars')
include hloop htargets hcondition hsame

theorem follows_branch
    {negate : Bool}
    {thenBlock : Block}
    {elseBlock : Option Block}
    (honTrue : Follows src.writing src.graph vars whole (thenBlock ++ rest) (b.toward (!negate)))
    (honFalse :
      Follows src.writing src.graph vars whole (elseBlock.getD [] ++ rest) (b.toward negate)) :
    Follows src.writing src.graph vars whole
      (.ifThen (src.conditionWithin vars' (src.graph.size + 1) id negate) thenBlock elseBlock ::
        rest) id := by
  have hconveys := conveys_condition hcondition hsame negate
  have hselected (holds : Bool) :
      Follows src.writing src.graph vars whole
        ((if holds then thenBlock else elseBlock.getD []) ++ rest)
        (b.toward (holds != negate)) := by
    cases holds
    · simpa using honFalse
    · simpa using honTrue
  constructor
  · intro flow hwalk
    obtain ⟨before, holds, more, rfl, hdecided, honward⟩ :=
      (FlowGraph.walks_branch_iff hloop htargets).1 hwalk
    obtain ⟨events, hevaluated, hshown⟩ := hconveys.evaluates _ _ hdecided
    have hundone : ((holds != negate) != negate) = holds := by cases holds <;> cases negate <;> rfl
    obtain ⟨later, hrun, hshown'⟩ :=
      (hselected (holds != negate)).runs more (hundone.symm ▸ honward)
    exact ⟨_, .ifThen hevaluated hrun, hshown.append hshown'⟩
  · intro events hrun
    obtain ⟨before, later, holds, rfl, hevaluated, honward⟩ := Java.runs_ifThen_iff.1 hrun
    obtain ⟨flow, hdecided, hshown⟩ := hconveys.decides _ _ hevaluated
    obtain ⟨more, hwalk, hshown'⟩ := (hselected holds).walks later honward
    exact ⟨_, (FlowGraph.walks_branch_iff hloop htargets).2 ⟨_, _, _, rfl, hdecided, hwalk⟩,
      hshown.append hshown'⟩

/-- A condition that is tested for nothing: a single comparison is a statement of its own. -/
theorem follows_pass
    (hsingle : b.onTrue = b.onFalse)
    (h : Follows src.writing src.graph vars whole rest b.onTrue) :
    Follows src.writing src.graph vars whole
      (.expression (src.conditionWithin vars' (src.graph.size + 1) id false) :: rest) id := by
  have htoward (holds : Bool) : b.toward holds = b.onTrue := by
    cases holds <;> simp [BranchTargets.toward, hsingle]
  have hconveys := conveys_condition hcondition hsame false
  cases hcondition with
  | @single _ ins hplain hcode =>
      rw [conditionWithin_single vars' _ false hplain hcode]
      have hstatement : (Statement.expression
          (Emission.condition vars' src.writing.method.owner ins false)).Plain :=
        .expression (joined?_condition ..)
      constructor
      · intro flow hwalk
        obtain ⟨before, holds, more, rfl, hdecided, honward⟩ :=
          (FlowGraph.walks_branch_iff hloop htargets).1 hwalk
        obtain rfl := (FlowGraph.decides_single_iff hplain hcode).1 hdecided
        obtain ⟨events, hrun, hshown⟩ := h.runs more (htoward holds ▸ honward)
        exact ⟨_, (Java.runs_plain_iff hstatement).2 ⟨events, rfl, hrun⟩, .discarded hsame hshown⟩
      · intro events hrun
        obtain ⟨later, rfl, honward⟩ := (Java.runs_plain_iff hstatement).1 hrun
        obtain ⟨flow, hwalk, hshown⟩ := h.walks later honward
        have hdecided := (@FlowGraph.decides_single_iff _ _ _ true _ hplain hcode).2 rfl
        exact ⟨_, (FlowGraph.walks_branch_iff hloop htargets).2
          ⟨_, true, flow, rfl, hdecided, (htoward true).symm ▸ hwalk⟩, .discarded hsame hshown⟩
  | joined hjoined =>
      have htwoParts := joined?_conditionWithin vars' src.graph.size false hjoined
      constructor
      · intro flow hwalk
        obtain ⟨before, holds, more, rfl, hdecided, honward⟩ :=
          (FlowGraph.walks_branch_iff hloop htargets).1 hwalk
        obtain ⟨events, hevaluated, hshown⟩ := hconveys.evaluates _ _ hdecided
        obtain ⟨later, hrun, hshown'⟩ := h.runs more (htoward holds ▸ honward)
        exact ⟨_, .tests (by simp [htwoParts]) hevaluated hrun, hshown.append hshown'⟩
      · intro events hrun
        cases hrun with
        | expression hplain => simp [htwoParts] at hplain
        | @tests _ holds _ before later _ hevaluated hrun =>
            obtain ⟨flow, hdecided, hshown⟩ := hconveys.decides _ _ hevaluated
            obtain ⟨more, hwalk, hshown'⟩ := h.walks later hrun
            exact ⟨_, (FlowGraph.walks_branch_iff hloop htargets).2
              ⟨_, _, _, rfl, hdecided, (htoward _).symm ▸ hwalk⟩, hshown.append hshown'⟩

end Branch

end Nodes

/-- The code of a node does what a walk from the node does, if this holds of the nodes it leads
to. -/
theorem follows_of_code
    (hloopFree : src.graph.LoopFree)
    (hlive : src.graph.isLive id = true)
    (ih : ∀ next, src.graph.Leads id next → ∀ block, At src vars block next →
      Follows src.writing src.graph vars whole block next)
    (h : Code src vars block id) :
    Follows src.writing src.graph vars whole block id := by
  cases h with
  | straight hkind hsuccs hspells h =>
      have hstays := hloopFree.stays id hlive hkind
      exact follows_straight hkind hsuccs hstays hspells (ih _ (.straight hkind hsuccs) _ h)
  | leave hexit hspells =>
      obtain ⟨_, _, hcode, hstays, hleaves⟩ := hloopFree.leaves id hlive hexit
      have hkind := hloopFree.leave_of_isExit hlive hexit
      exact follows_leave hkind hcode hstays hleaves hspells
  | pass htargets hsingle hsame h =>
      have hloop := hloopFree.isLoop_of_targets hlive htargets
      have hcondition := hloopFree.testable id hlive (Option.isSome_iff_exists.2 ⟨_, htargets⟩)
      exact follows_pass hloop htargets hcondition hsame hsingle
        (ih _ (.branch true htargets rfl) _ h)
  | branch htargets hsame honTrue honFalse =>
      have hloop := hloopFree.isLoop_of_targets hlive htargets
      have hcondition := hloopFree.testable id hlive (Option.isSome_iff_exists.2 ⟨_, htargets⟩)
      exact follows_branch hloop htargets hcondition hsame (ih _ (.branch _ htargets rfl) _ honTrue)
        (ih _ (.branch _ htargets rfl) _ honFalse)

theorem follows_of_silent
    {front : Block}
    (hsilent : ∀ s ∈ front, s.Silent)
    (h : Follows src.writing src.graph vars whole block id) :
    Follows src.writing src.graph vars whole (front ++ block) id where
  runs flow hwalk := by
    obtain ⟨events, hrun, hshown⟩ := h.runs flow hwalk
    exact ⟨events, (Java.runs_silent_iff hsilent).2 hrun, hshown⟩
  walks events hrun := h.walks events ((Java.runs_silent_iff hsilent).1 hrun)

/-- Wherever the code is that of a node, running it shows the same as walking from the node. -/
theorem follows_of_at
    (h : src.graph.LoopFree)
    (hdistinct : DistinctNumbers src.graph)
    (hlabels : WellLabelled src vars whole) :
    ∀ id, src.graph.isLive id = true → Reached src.graph id →
      ∀ block, At src vars block id → Follows src.writing src.graph vars whole block id := by
  refine h.induction fun id hlive ih hreached block hat_ => ?_
  have hcode {block : Block} (hc : Code src vars block id) :
      Follows src.writing src.graph vars whole block id :=
    follows_of_code h hlive (fun next hleads => ih next hleads (hreached.tail hleads)) hc
  cases hat_ with
  | written hsilent hc => exact follows_of_silent hsilent (hcode hc)
  | jump hlabelled =>
      -- A label with the name of the node stands in front of no other node.
      have htarget {found : Block} (hbehind : Behind whole [] (src.labelOf id) found) :
          Follows src.writing src.graph vars whole found id := by
        obtain ⟨other, hlive', hname, front, block, rfl, hsilent, hc⟩ := hlabels.marked _ _ hbehind
        obtain rfl := hdistinct id other hreached hlive' (num_of_labelOf_eq hname.symm)
        exact follows_of_silent hsilent (hcode hc)
      obtain ⟨found, hbehind⟩ := hlabels.labelled id hlabelled
      constructor
      · intro flow hwalk
        obtain ⟨events, hrun, hshown⟩ := (htarget hbehind).runs flow hwalk
        exact ⟨events, Java.runs_goto_iff.2 ⟨found, hbehind, hrun⟩, hshown⟩
      · intro events hrun
        obtain ⟨found', hbehind', hrun⟩ := Java.runs_goto_iff.1 hrun
        exact (htarget hbehind').walks events hrun

/-- What is written for the entry of code without loops. -/
theorem emit_visits
    (w : Writing)
    {g : FlowGraph}
    (vars : Variables)
    (naming : Java.Naming)
    (h : g.Acyclic)
    (hascending : Ascending g) :
    ∃ (src : Source) (naming' : Java.Naming) (block : Block) (s : Progress),
      src.writing = w ∧ src.graph = g ∧
        Visits src vars g.entry none (.start vars naming') block s ∧
        s.gotoTargets = src.labels ∧
        (emit w g vars naming).method.body = some block ∧
        (emit w g vars naming).visited = s.visited ∧
        (emit w g vars naming).dangling = false := by
  obtain ⟨src, naming', block, s, rfl, rfl, hrun, hlabels, hbody, hvisited, hdangling⟩ :=
    emit_eq w g vars naming
  have hvisits : Ensures src.body (.start vars naming')
      (Visits src vars src.graph.entry none (.start vars naming')) :=
    walk_visits h hascending _ .outermost src.graph.entry _ h.entry .outermost
      ⟨rfl, rfl, card_unvisited_lt_depth⟩
  rw [Ensures, hrun] at hvisits
  exact ⟨src, naming', block, s, rfl, rfl, hvisits, hlabels, hbody, hvisited,
    hdangling.trans hvisits.grows.dangling⟩

/-- Code without loops keeps its control flow: whatever the conditions answer there is a walk, each
walk is shown by a run of the body, and each run of the body shows a walk. -/
theorem emit_follows_walks
    (w : Writing)
    (g : FlowGraph)
    (vars : Variables)
    (naming : Java.Naming)
    (hloopFree : g.LoopFree)
    (hascending : Ascending g)
    (hdistinct : DistinctNumbers g) :
    ∃ body, (emit w g vars naming).method.body = some body ∧
      (emit w g vars naming).dangling = false ∧
      (∀ outcomes : Nat → Bool, ∃ flow count,
        g.Walks g.entry flow ∧
          flow.filterMap FlowEvent.outcome? = (List.range count).map outcomes) ∧
      Follows w g vars body body g.entry := by
  obtain ⟨src, naming', body, s, rfl, rfl, hvisits, hlabels, hbody, -, hdangling⟩ :=
    emit_visits w vars naming hloopFree.toAcyclic hascending
  have hknown : s.gotoTargets ⊆ src.labels := hlabels ▸ List.Subset.refl _
  have hwellLabelled : WellLabelled src vars body :=
    { marked := hvisits.marked [] hknown nofun
      labelled := fun id hid => by
        have hvisited := (hvisits.met id (hlabels ▸ hid)).resolve_left List.not_mem_nil
        exact hvisits.labelled id hvisited List.not_mem_nil hid [] }
  have hstart : At src vars body src.graph.entry := by
    simpa using hvisits.arrives [] hknown nofun
  refine ⟨body, hbody, hdangling, fun outcomes => ?_,
    follows_of_at hloopFree hdistinct hwellLabelled _ hloopFree.entry .refl body hstart⟩
  obtain ⟨flow, count, hwalk, houts⟩ := hloopFree.exists_walk outcomes _ hloopFree.entry 0
  exact ⟨flow, count, hwalk, by rw [houts, List.range_eq_range']⟩

/-- No other node has the number of one that is listed, when a graph was ordered. -/
theorem eq_of_num_eq
    {g : FlowGraph}
    {id other : NodeId}
    (hcurrent : g.NumbersCurrent)
    (hlisted : id ∈ g.toDigraph.reversePostorder g.entry)
    (hsame : (g.node id).num = (g.node other).num) :
    id = other := by
  rw [hcurrent, hcurrent, FlowGraph.numberIn, FlowGraph.numberIn, if_pos hlisted] at hsame
  split at hsame
  · exact (List.idxOf_inj hlisted).1 (Nat.succ.inj hsame)
  · exact absurd hsame (Nat.succ_ne_zero _)

section Numbers

variable {g : FlowGraph}
variable (hcurrent : g.NumbersCurrent)
variable (hknown : g.toDigraph.WellFormed) (hentry : g.entry < g.size)
variable (hedges : ∀ id next, g.Leads id next → g.toDigraph.Edge id next)
include hcurrent hknown hentry hedges

/-- The numbers of a graph that was ordered ascend, if no edges lead around in a circle. -/
theorem ascending_of_numbersCurrent
    (hacyclic : ∀ n, ¬ Relation.TransGen g.toDigraph.Edge n n) :
    Ascending g := by
  have horder := Digraph.reversePostorder_isSweepOrder hknown hentry
  intro id b _ htargets
  have hedge : g.toDigraph.Edge id b.onTrue := hedges id b.onTrue (.branch true htargets rfl)
  rw [hcurrent, hcurrent]
  by_cases hlisted : id ∈ g.toDigraph.reversePostorder g.entry
  · have hnext : b.onTrue ∈ g.toDigraph.reversePostorder g.entry :=
      (horder.mem_iff _).2 (((horder.mem_iff id).1 hlisted).step hedge)
    have hincreasing := Digraph.reversePostorder_increasing hknown hacyclic hlisted hedge
    rw [FlowGraph.numberIn, FlowGraph.numberIn, if_pos hlisted, if_pos hnext]
    omega
  · simp [FlowGraph.numberIn, hlisted]

/-- No other node has the number of one that can be reached, when a graph was ordered. -/
theorem distinctNumbers_of_numbersCurrent :
    DistinctNumbers g := by
  have horder := Digraph.reversePostorder_isSweepOrder hknown hentry
  intro id other hreached _ hsame
  have hlisted : id ∈ g.toDigraph.reversePostorder g.entry := by
    clear hsame
    induction hreached with
    | refl => exact (horder.mem_iff _).2 (.refl _ _)
    | tail _ hleads ih =>
        exact (horder.mem_iff _).2 (((horder.mem_iff _).1 ih).step (hedges _ _ hleads))
  exact eq_of_num_eq hcurrent hlisted hsame

end Numbers

/-- Nothing that can be reached is left out of code without loops, and nothing but nodes of the
graph is visited. -/
theorem emit_visits_reachable
    (w : Writing)
    (g : FlowGraph)
    (vars : Variables)
    (naming : Java.Naming)
    (hacyclic : g.Acyclic)
    (hascending : Ascending g)
    (hreachable : ∀ id, g.isLive id = true → Reached g id)
    (id : NodeId) :
    id ∈ (emit w g vars naming).visited ↔ id ∈ g.liveIds := by
  obtain ⟨src, naming', body, s, rfl, rfl, hvisits, -, -, hvisited, -⟩ :=
    emit_visits w vars naming hacyclic hascending
  rw [hvisited, FlowGraph.mem_liveIds_iff]
  constructor
  · exact fun hvisited' => (hvisits.closed id hvisited' List.not_mem_nil).1
  · intro hlive
    have hall {n : NodeId} (hreached : Reached src.graph n) : n ∈ s.visited := by
      induction hreached with
      | refl => exact hvisits.reached.resolve_right nofun
      | tail _ hleads ih =>
          exact ((hvisits.closed _ ih List.not_mem_nil).2 _ hleads).resolve_right nofun
    exact hall (hreachable id hlive)

section Examples

/-- `if (a == 0) { x = 1; } else if (b == 0 && c == 0) { … }`, where the second branch is said to
come together at a node it does not lead to. -/
def crossedBranches : FlowGraph :=
  { FlowGraph.empty with
    entry := 2
    slots := #[
      { sampleSlot 3 none (.conditional ⟨1, 6⟩) [sampleTest 2] [] [] with live := false },
      { sampleSlot 4 none (.conditional ⟨5, 6⟩) [sampleTest 3] [] [] with live := false },
      sampleSlot 1 none (.conditional ⟨3, 4⟩) [sampleTest 0] [3, 4] [],
      sampleSlot 2 none .statement [sampleAssignment 1] [5] [2],
      sampleSlot 3 (some 3)
        (.shortCircuit
          { first := 0, second := 1, isAnd := true, isNot := false, branches := ⟨5, 6⟩ })
        [] [5, 6] [2],
      sampleSlot 4 none .statement [sampleAssignment 2] [6] [3, 4],
      sampleSlot 5 none .ret [.ret none] [] [4, 5]] }

theorem crossedBranches_live_cases
    {P : NodeId → Prop}
    (h : P 2 ∧ P 3 ∧ P 4 ∧ P 5 ∧ P 6) :
    ∀ id, crossedBranches.isLive id = true → P id := by
  have hids : crossedBranches.liveIds = [2, 3, 4, 5, 6] := by decide
  intro id hlive
  have hmem := FlowGraph.mem_liveIds_iff.2 hlive
  rw [hids] at hmem
  grind

theorem crossedBranches_loopFree :
    crossedBranches.LoopFree := by
  have hcondition : crossedBranches.Testable 4 :=
    .joined rfl rfl (.single nofun rfl) (.single nofun rfl)
  exact
    { toAcyclic := FlowGraph.acyclic_of_lt rfl (by decide) (by decide)
      stays := crossedBranches_live_cases ⟨nofun, by decide, nofun, by decide, nofun⟩
      testable := crossedBranches_live_cases
        ⟨fun _ => .single nofun rfl, nofun, fun _ => hcondition, nofun, nofun⟩
      leaves := crossedBranches_live_cases
        ⟨nofun, nofun, nofun, nofun, fun _ => ⟨[], _, rfl, nofun, rfl⟩⟩ }

theorem crossedBranches_ascending :
    Ascending crossedBranches := by
  have htable : ∀ id ∈ crossedBranches.liveIds, ∀ b ∈ (crossedBranches.node id).kind.targets?,
      (crossedBranches.node id).num ≤ (crossedBranches.node b.onTrue).num := by decide
  exact fun id b hlive htargets => htable id (FlowGraph.mem_liveIds_iff.2 hlive) b htargets

theorem crossedBranches_distinct :
    DistinctNumbers crossedBranches := by
  have htable : ∀ id ∈ crossedBranches.liveIds, ∀ other ∈ crossedBranches.liveIds,
      (crossedBranches.node id).num = (crossedBranches.node other).num → id = other := by decide
  exact fun id other hreached hlive =>
    htable id (FlowGraph.mem_liveIds_iff.2 (hreached.isLive crossedBranches_loopFree)) other
      (FlowGraph.mem_liveIds_iff.2 hlive)

theorem emit_follows_walks_crossedBranches :
    crossedBranches.LoopFree ∧ Ascending crossedBranches ∧ DistinctNumbers crossedBranches ∧
      ∃ body, (emit sampleWriting crossedBranches .empty .empty).method.body = some body ∧
        (emit sampleWriting crossedBranches .empty .empty).dangling = false ∧
        (∀ outcomes : Nat → Bool, ∃ flow count,
          crossedBranches.Walks crossedBranches.entry flow ∧
            flow.filterMap FlowEvent.outcome? = (List.range count).map outcomes) ∧
        Follows sampleWriting crossedBranches .empty body body crossedBranches.entry :=
  ⟨crossedBranches_loopFree, crossedBranches_ascending, crossedBranches_distinct,
    emit_follows_walks sampleWriting crossedBranches .empty .empty crossedBranches_loopFree
      crossedBranches_ascending crossedBranches_distinct⟩

/-- A call of `a` with a handler that calls `b` and is protected itself by one that calls `c`. -/
def nestedHandlers : FlowGraph :=
  let call (name : String) : Instr := .assign none (.staticCall ⟨"LP;", name, "()V"⟩ [])
  { FlowGraph.empty with
    slots := #[
      { sampleSlot 1 none .statement [call "a"] [1] [] with handlerSuccs := [2] },
      sampleSlot 4 none .ret [.ret none] [] [0, 2, 3],
      { sampleSlot 2 none .statement [call "b"] [1] [] with
        handlerSuccs := [3]
        handlerPreds := [0] },
      { sampleSlot 3 none .statement [call "c"] [1] [] with handlerPreds := [2] }]
    order := [0, 2, 3, 1] }

/-- A handler that is protected itself is left out, together with its own handler. -/
theorem nestedHandlers_unvisited :
    let g := (nestedHandlers.structured nestedHandlers.dominatorTree 64 "f").graph
    (emit sampleWriting g .empty .empty).visited = [0, 1] ∧ g.liveIds = [0, 1, 2, 3, 4, 5] := by
  cbv

/-- An assignment stands in front of a comparison, and is not written. -/
def leadingAssignment : FlowGraph :=
  { FlowGraph.empty with
    slots := #[
      sampleSlot 1 none (.conditional ⟨1, 2⟩) [sampleAssignment 7, sampleTest 0] [1, 2] [],
      sampleSlot 2 none .ret [.ret none] [] [0],
      sampleSlot 3 none .ret [.ret none] [] [0]] }

/-- An exit without an instruction that leaves the method: what is written behind it is run. -/
def silentExit : FlowGraph :=
  { FlowGraph.empty with
    slots := #[
      sampleSlot 1 (some 3) (.conditional ⟨1, 2⟩) [sampleTest 0] [1, 2] [],
      sampleSlot 2 none .ret [] [] [0],
      sampleSlot 3 none .statement [] [3] [0],
      sampleSlot 4 none .ret [.ret none] [] [2]] }

/-- A node with a number that suggests it stands in front of the branch that leads to it, and is not
written. -/
def staleNumber : FlowGraph :=
  { FlowGraph.empty with
    slots := #[
      sampleSlot 2 (some 2) (.conditional ⟨1, 2⟩) [sampleTest 0] [1, 2] [],
      sampleSlot 1 none .statement [sampleAssignment 7] [2] [0],
      sampleSlot 3 none .ret [.ret none] [] [0, 1]] }

/-- Two nodes with the same number: a jump to one of them may lead to the other. -/
def sharedNumber : FlowGraph :=
  { FlowGraph.empty with
    slots := #[
      sampleSlot 1 none (.conditional ⟨1, 2⟩) [sampleTest 0] [1, 2] [],
      sampleSlot 2 none (.conditional ⟨3, 4⟩) [sampleTest 2] [3, 4] [0],
      sampleSlot 3 none (.conditional ⟨3, 4⟩) [sampleTest 3] [3, 4] [0],
      sampleSlot 4 none .statement [] [5] [1, 2],
      sampleSlot 4 none .statement [sampleAssignment 7] [5] [1, 2],
      sampleSlot 5 none .ret [.ret none] [] [3, 4]] }

/-- A graph of straight nodes, branches and exits without a cycle that is written with another
control flow. -/
def LosesFlow (g : FlowGraph) : Prop :=
  g.Acyclic ∧ ∃ body, (emit sampleWriting g .empty .empty).method.body = some body ∧
    ¬ Follows sampleWriting g .empty body body g.entry

theorem eq_empty_of_sameVars
    {vars : Variables}
    (h : SameVars .empty vars) :
    vars = .empty := by
  obtain ⟨entries, registers, params, temps⟩ := vars
  simpa [SameVars, undeclared, Variables.empty] using h

/-- The Java form of a comparison with zero. -/
def writtenTest (v : VarId) (negate : Bool) : Expression :=
  condition .empty sampleWriting.method.owner (sampleTest v) negate

theorem evaluates_writtenTest
    {v : VarId}
    {negate holds : Bool}
    {events : List Action}
    (h : Java.Evaluates (writtenTest v negate) events holds) :
    events = [.tested (writtenTest v negate).bare holds] :=
  (Java.Evaluates.single_iff (joined?_condition ..)).1 h

theorem leadingAssignment_losesFlow :
    LosesFlow leadingAssignment := by
  refine ⟨FlowGraph.acyclic_of_lt rfl (by decide) (by decide),
    [.ifThen (writtenTest 0 false) [.ret none] (some [.ret none])], rfl, fun hfollows => ?_⟩
  have hwalk : leadingAssignment.Walks 0
      [.performs (sampleAssignment 7), .tests (sampleTest 0) true, .performs (.ret none)] :=
    .branch rfl
      (@FlowGraph.Decides.single leadingAssignment 0 [sampleAssignment 7] (sampleTest 0) true
        nofun rfl)
      (.leave rfl)
  obtain ⟨events, hrun, hshown⟩ := hfollows.runs _ hwalk
  obtain ⟨before, later, holds, rfl, hevaluated, -⟩ := Java.runs_ifThen_iff.1 hrun
  obtain rfl := evaluates_writtenTest hevaluated
  rcases hshown.of_performs with ⟨hunwritten, -⟩ | ⟨_, _, _, -, -, hfirst, -⟩
  · nomatch hunwritten
  · nomatch hfirst

/-- Behind an empty branch only the end of the method is left. -/
theorem runs_emptyBranch
    {c : Expression}
    {whole : Block}
    {events : List Action}
    (hplain : c.joined? = none)
    (h : Java.Runs whole [.ifThen c [] none, .ret none] events) :
    ∃ test, events = [test, .ran (.ret none)] := by
  obtain ⟨before, later, holds, rfl, hevaluated, honward⟩ := Java.runs_ifThen_iff.1 h
  obtain rfl := (Java.Evaluates.single_iff hplain).1 hevaluated
  obtain rfl : later = [.ran (.ret none)] := by
    cases holds <;> exact (Java.runs_leaving_iff .ret).1 honward
  exact ⟨_, rfl⟩

theorem silentExit_losesFlow :
    LosesFlow silentExit := by
  refine ⟨FlowGraph.acyclic_of_lt rfl (by decide) (by decide),
    [.ifThen (writtenTest 0 false) [] none, .ret none], rfl, fun hfollows => ?_⟩
  have hwalk : silentExit.Walks 0 [.tests (sampleTest 0) true] :=
    .branch rfl (@FlowGraph.Decides.single silentExit 0 [] (sampleTest 0) true nofun rfl)
      (.leave rfl)
  obtain ⟨events, hrun, hshown⟩ := hfollows.runs _ hwalk
  obtain ⟨test, rfl⟩ := runs_emptyBranch (joined?_condition ..) hrun
  obtain ⟨_, _, rest, -, hsame, hshown, -⟩ := hshown.of_tests
  obtain rfl := hshown.of_nil
  nomatch hsame

theorem staleNumber_losesFlow :
    LosesFlow staleNumber := by
  refine ⟨FlowGraph.acyclic_of_lt rfl (by decide) (by decide),
    [.ifThen (writtenTest 0 true) [] none, .ret none], rfl, fun hfollows => ?_⟩
  have hwalk : staleNumber.Walks 0
      [.tests (sampleTest 0) true, .performs (sampleAssignment 7), .performs (.ret none)] :=
    .branch rfl (@FlowGraph.Decides.single staleNumber 0 [] (sampleTest 0) true nofun rfl)
      (.straight rfl rfl (.leave rfl))
  obtain ⟨events, hrun, hshown⟩ := hfollows.runs _ hwalk
  obtain ⟨test, rfl⟩ := runs_emptyBranch (joined?_condition ..) hrun
  obtain ⟨_, _, _, -, hsame, hshown, -⟩ := hshown.of_tests
  obtain ⟨rfl, rfl⟩ := List.cons.inj hsame
  rcases hshown.of_performs with ⟨hunwritten, -⟩ | ⟨_, _, _, -, -, hsame, hshown⟩
  · nomatch hunwritten
  obtain ⟨-, rfl⟩ := List.cons.inj hsame
  rcases hshown.of_performs with ⟨hunwritten, -⟩ | ⟨_, _, _, -, -, hsame, -⟩
  · nomatch hunwritten
  · nomatch hsame

/-- A comparison shows how it comes out, whether it is negated or not. -/
theorem outcome_of_renders
    {v v' : VarId}
    {holds value negate : Bool}
    {flow : List FlowEvent}
    {rest : List Action}
    (h : Renders sampleWriting .empty (.tests (sampleTest v) holds :: flow)
      (.tested (writtenTest v' negate).bare value :: rest)) :
    holds = (value != negate) ∧ Renders sampleWriting .empty flow rest := by
  obtain ⟨vars', shown, later, hsame, hevents, h, hform⟩ := h.of_tests
  obtain rfl := eq_empty_of_sameVars hsame
  obtain ⟨rfl, rfl⟩ := List.cons.inj hevents
  refine ⟨?_, h⟩
  rcases hform with ⟨negated, htest⟩ | hran
  · obtain ⟨hwritten, rfl⟩ := Action.tested.inj htest
    have hsymbols := (Expression.binary.inj hwritten).1
    cases negate <;> cases negated
    -- The two signs of comparison differ.
    case false.true | true.false => exact absurd hsymbols (by decide)
    all_goals simp
  · nomatch hran

/-- The walk that a run shows takes the target that the comparison selects. -/
theorem exists_walk_of_renders
    {g : FlowGraph}
    {id : NodeId}
    {b : BranchTargets}
    {v v' : VarId}
    {value : Bool}
    {flow : List FlowEvent}
    {rest : List Action}
    (hkind : (g.node id).kind = .conditional b)
    (hcode : (g.node id).ins = [sampleTest v])
    (hwalk : g.Walks id flow)
    (hshown :
      Renders sampleWriting .empty flow (.tested (writtenTest v' false).bare value :: rest)) :
    ∃ onward, g.Walks (b.toward value) onward ∧ Renders sampleWriting .empty onward rest := by
  have hloop : (g.node id).kind.isLoop = false := by simp [hkind, NodeKind.isLoop]
  have htargets : (g.node id).kind.targets? = some b := by simp [hkind, NodeKind.targets?]
  obtain ⟨before, holds, onward, rfl, hdecided, hnext⟩ :=
    (FlowGraph.walks_branch_iff hloop htargets).1 hwalk
  obtain rfl := (FlowGraph.decides_single_iff (by simp [hkind, NodeKind.base]) hcode).1 hdecided
  obtain ⟨rfl, hlater⟩ := outcome_of_renders hshown
  exact ⟨onward, Bool.bne_false value ▸ hnext, hlater⟩

theorem sharedNumber_losesFlow :
    LosesFlow sharedNumber := by
  let assigned : Statement := .expression (.assign (.localVar "var1") (literal "7" "I"))
  let whole : Block :=
    [.ifThen (writtenTest 0 false)
      [.ifThen (writtenTest 2 false) [.label "L4", .ret none]
        (some [.label "L4", assigned, .ret none])]
      (some [.ifThen (writtenTest 3 false) [.jump .goto (some "L4")]
        (some [.jump .goto (some "L4")])])]
  refine ⟨FlowGraph.acyclic_of_lt rfl (by decide) (by decide), whole, rfl, fun hfollows => ?_⟩
  -- The jump for one node leads to the label of the other one.
  have hfound : Behind whole [] "L4" [assigned, .ret none] := .inThen (.inElse .here)
  have hrun : Java.Runs whole whole
      [.tested (writtenTest 0 false).bare false, .tested (writtenTest 3 false).bare true,
        .ran assigned, .ran (.ret none)] :=
    .ifThen (.single false (joined?_condition ..)) (.ifThen (.single true (joined?_condition ..))
      (.goto hfound (.expression rfl .ret)))
  obtain ⟨flow, hwalk, hshown⟩ := hfollows.walks _ hrun
  obtain ⟨flow, hwalk, hshown⟩ := exists_walk_of_renders rfl rfl hwalk hshown
  obtain ⟨flow, hwalk, hshown⟩ := exists_walk_of_renders rfl rfl hwalk hshown
  obtain ⟨flow, rfl, hlast⟩ := (FlowGraph.walks_straight_iff rfl rfl).1 hwalk
  obtain rfl := (FlowGraph.walks_leave_iff (.inl rfl)).1 hlast
  rcases hshown.of_performs with ⟨hunwritten, -⟩ | ⟨_, _, _, -, -, hsame, hshown⟩
  · nomatch hunwritten
  · obtain ⟨-, rfl⟩ := List.cons.inj hsame
    nomatch hshown.of_nil

/-- Without any one of these conditions on the code and the numbers, control flow is lost. -/
theorem acyclic_losesFlow :
    LosesFlow leadingAssignment ∧ LosesFlow silentExit ∧ LosesFlow staleNumber ∧
      LosesFlow sharedNumber :=
  ⟨leadingAssignment_losesFlow, silentExit_losesFlow, staleNumber_losesFlow, sharedNumber_losesFlow⟩

end Examples

end Emission
end DalvikDecompiler
