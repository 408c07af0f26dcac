import DalvikDecompiler.Proofs.Emission.Coupling
import DalvikDecompiler.Proofs.Emission.WalkLayout

/-!
# Walks come to an end

**Input.** A graph, any code that is written from it and the state at a call.

A call goes on from other nodes through the walk it is given.  Either it does not use this walk at
all, or it visits its node for the first time and uses the walk only where this node has been
visited.  The number of nodes that were not visited therefore bounds how deep a walk gets.

Exits are written again whenever they are met.  This is harmless as long as no exit is the head of a
loop: what follows a loop is written behind it.

**Results.**
* `stops_or_discovers`: a call that goes on discovers a node.
* `walkOver_eq`: what lies below the depth of a walk makes no difference.
* `terminates`: the walks through a graph and its conditions come to an end.
* `not_terminates`: a loop that an exit is the head of and that it also follows is written for ever.
-/

namespace DalvikDecompiler
namespace Emission

open Symbolic (Variables)
open Java (Block)

/-- A call that goes on from no other node: how this is done makes no difference. -/
def Source.Stops (src : Source) (ctx : Context) (id : NodeId) (s : Progress) : Prop :=
  ∀ visit visit' : Walk, (src.enterNode visit ctx id).run s = (src.enterNode visit' ctx id).run s

/-- Two walks do the same where some nodes have been visited, and forget none of these nodes. -/
def AgreeAbove (base : List NodeId) (visit visit' : Walk) : Prop :=
  ∀ ctx id s, base ⊆ s.visited →
    (visit ctx id).run s = (visit' ctx id).run s ∧ base ⊆ ((visit ctx id).run s).2.visited

/-- A call that visits its node for the first time.  It goes on from others only where this node and
all those before have been visited. -/
structure Source.Discovers (src : Source) (ctx : Context) (id : NodeId) (s : Progress) : Prop where
  slot : id < src.graph.size
  new : id ∉ s.visited
  only : ∀ visit visit' : Walk, AgreeAbove (OrderedSet.insert s.visited id) visit visit' →
    (src.enterNode visit ctx id).run s = (src.enterNode visit' ctx id).run s ∧
      OrderedSet.insert s.visited id ⊆ ((src.enterNode visit ctx id).run s).2.visited

/-- The states in which some nodes have been visited, each of which corresponds to itself. -/
def Coupling.above (base : List NodeId) : Coupling where
  Relates s s' := s = s' ∧ base ⊆ s.visited
  exact := True
  same _ _ _ hrelated := hrelated.1
  course hrelated := hrelated.1 ▸ .refl _
  steady h _ hsame _ _ hrelated := by
    obtain ⟨rfl, hpassed⟩ := hrelated
    obtain rfl := hsame trivial
    refine ⟨rfl, ?_⟩
    rw [(h _).visited]
    exact hpassed
  proceed h _ _ hrelated := by
    obtain ⟨rfl, hpassed⟩ := hrelated
    exact ⟨rfl, List.Subset.trans hpassed (h.visited _)⟩

theorem parallel_above_iff
    {base : List NodeId}
    {α : Type}
    {m m' : EmitM α} :
    Parallel (.above base) m m' ↔
      ∀ s, base ⊆ s.visited → m.run s = m'.run s ∧ base ⊆ (m.run s).2.visited := by
  constructor
  · intro h s hpassed
    obtain ⟨hresult, hstate, hkept⟩ := h s s ⟨rfl, hpassed⟩
    exact ⟨Prod.ext (hresult trivial) hstate, hkept⟩
  · rintro h s _ ⟨rfl, hpassed⟩
    obtain ⟨hsame, hkept⟩ := h s hpassed
    exact ⟨fun _ => congrArg Prod.fst hsame, congrArg Prod.snd hsame, hkept⟩

section Calls

variable {src : Source} {ctx : Context} {id : NodeId} {s : Progress}

/-- A node that does not refer to others, or that is no node at all, goes on from no other node. -/
theorem writeKind_of_leaves
    (hexits : ExitsEnd src.graph)
    (hleaves : (src.node id).kind.isExit = true ∨ src.graph.size ≤ id)
    (visit visit' : Walk) :
    src.writeKind visit id (src.node id).kind ctx =
      src.writeKind visit' id (src.node id).kind ctx := by
  rcases hleaves with hexit | hbeyond
  · rcases leaves_of_isExit hexit (hexits id hexit) with hkind | hkind <;> rw [hkind] <;> rfl
  · have hkind : (src.node id).kind = .statement := by
      rw [Source.node, FlowGraph.node_of_size_le hbeyond]
      rfl
    have hsuccs : src.graph.succs id = [] := by
      simp [FlowGraph.succs, Array.getElem?_eq_none hbeyond]
    simp only [hkind, Source.writeKind, Source.writeStraight, hsuccs]

/-- Whether a node is marked once or twice makes no difference. -/
theorem run_writeNode_marked
    (visit : Walk) :
    (src.writeNode visit ctx id).run { s with visited := OrderedSet.insert s.visited id } =
      (src.writeNode visit ctx id).run s := by
  have hmarked : OrderedSet.insert (OrderedSet.insert s.visited id) id =
      OrderedSet.insert s.visited id := OrderedSet.insert_of_mem (by simp)
  unfold Source.writeNode Source.markVisited
  simp only [StateT.run_bind, StateT.run_modify, hmarked]

/-- **A call that goes on discovers a node**, if no exit is the head of a loop. -/
theorem stops_or_discovers
    (hexits : ExitsEnd src.graph)
    (ctx : Context)
    (id : NodeId)
    (s : Progress) :
    src.Stops ctx id s ∨ src.Discovers ctx id s := by
  by_cases hleaves : (src.node id).kind.isExit = true ∨ src.graph.size ≤ id
  · refine .inl fun visit visit' => ?_
    unfold Source.enterNode Source.writeNode
    rw [writeKind_of_leaves hexits hleaves visit visit']
  obtain ⟨hstays, hslot⟩ := not_or.1 hleaves
  by_cases helsewhere : ctx.continuesLoop id = true ∨ ctx.isWrittenBehind id = true
  · refine .inl fun visit visit' => ?_
    unfold Source.enterNode
    rcases helsewhere with here | here <;> simp [here]
  obtain ⟨honward, hapart⟩ := not_or.1 helsewhere
  have hstays : (src.node id).kind.isExit = false := by simpa using hstays
  by_cases hagain : id ∈ s.visited
  · refine .inl fun visit visit' => ?_
    unfold Source.enterNode
    simp [honward, hapart, hstays, hagain, Source.requireSlot]
  · have henters (visit : Walk) : (src.enterNode visit ctx id).run s =
        (src.writeNode visit ctx id).run
          { s with dangling := s.dangling || !src.graph.hasSlot id } := by
      unfold Source.enterNode
      simp [honward, hapart, hstays, hagain, Source.requireSlot]
    refine .inr ⟨not_le.1 hslot, hagain, fun visit visit' hagree => ?_⟩
    have hsame : Parallel (.above (OrderedSet.insert s.visited id)) (src.writeNode visit ctx id)
        ((src.relabel src.labels).writeNode visit' ctx id) :=
      parallel_writeNode (fun _ => rfl) fun ctx id => parallel_above_iff.2 (hagree ctx id)
    rw [henters, henters, ← run_writeNode_marked visit, ← run_writeNode_marked visit']
    exact parallel_above_iff.1 hsame _ (List.Subset.refl _)

/-- A call that goes on from no other node forgets no visited node. -/
theorem Source.Stops.passes
    (h : src.Stops ctx id s)
    (visit : Walk) :
    s.visited ⊆ ((src.enterNode visit ctx id).run s).2.visited := by
  have hsame : Parallel (.above s.visited) (src.enterNode (fun _ _ => pure []) ctx id)
      ((src.relabel src.labels).enterNode (fun _ _ => pure []) ctx id) :=
    parallel_enterNode (fun _ => rfl) fun _ _ => .pure fun _ => rfl
  rw [h visit fun _ _ => pure []]
  exact (parallel_above_iff.1 hsame s (List.Subset.refl _)).2

end Calls

section Walks

variable {src : Source} {ctx : Context} {id : NodeId} {s : Progress} {depth depth' : Nat}

/-- **What lies below a walk makes no difference**, as soon as it is deeper than the number of nodes
that were not visited, and no visited node is forgotten. -/
theorem walkOver_eq
    (hexits : ExitsEnd src.graph)
    (bottom bottom' : Walk)
    (hroom : (unvisited src s).card < depth)
    (hroom' : (unvisited src s).card < depth') :
    (src.walkOver bottom depth ctx id).run s = (src.walkOver bottom' depth' ctx id).run s ∧
      s.visited ⊆ ((src.walkOver bottom depth ctx id).run s).2.visited := by
  induction depth generalizing depth' ctx id s with
  | zero => exact absurd hroom (Nat.not_lt_zero _)
  | succ depth ih =>
      cases depth' with
      | zero => exact absurd hroom' (Nat.not_lt_zero _)
      | succ depth' =>
          rcases stops_or_discovers hexits ctx id s with hstops | hdiscovers
          · exact ⟨hstops _ _, hstops.passes _⟩
          · have hagree : AgreeAbove (OrderedSet.insert s.visited id) (src.walkOver bottom depth)
                (src.walkOver bottom' depth') := by
              intro _ _ t hpassed
              -- The node that has been discovered is not there any more.
              have hfewer : (unvisited src t).card < (unvisited src s).card :=
                (card_unvisited_le (s := { s with visited := OrderedSet.insert s.visited id })
                  hpassed).trans_lt (card_unvisited_lt hdiscovers.slot hdiscovers.new)
              exact (ih (hfewer.trans_le (Nat.le_of_lt_succ hroom))
                (hfewer.trans_le (Nat.le_of_lt_succ hroom'))).imp_right (List.Subset.trans hpassed)
            obtain ⟨hsame, hkept⟩ := hdiscovers.only _ _ hagree
            exact ⟨hsame, List.Subset.trans
              (fun _ hmem => OrderedSet.mem_insert.2 (.inl hmem)) hkept⟩

/-- A walk of any depth without a bottom of its own. -/
theorem walk_eq_walkOver
    (src : Source)
    (depth : Nat) :
    src.walk depth = src.walkOver (fun _ _ => pure []) depth := by
  induction depth with
  | zero => rfl
  | succ depth ih =>
      change src.enterNode (src.walk depth) = src.enterNode (src.walkOver _ depth)
      rw [ih]

end Walks

section Conditions

variable {src : Source} {vars : Variables} {id : NodeId} {depth depth' : Nat}

/-- The parts of a condition stand in smaller slots. -/
def PartsBelow (g : FlowGraph) : Prop :=
  ∀ id sc, (g.node id).kind.base = .shortCircuit sc → sc.first < id ∧ sc.second < id

/-- A condition is put together within as many steps as its slot has a number. -/
theorem conditionWithin_eq
    (hparts : PartsBelow src.graph)
    (negate : Bool)
    (hroom : id < depth)
    (hroom' : id < depth') :
    src.conditionWithin vars depth id negate = src.conditionWithin vars depth' id negate ∧
      src.conditionMentionsWithin vars depth id negate =
        src.conditionMentionsWithin vars depth' id negate := by
  induction depth generalizing depth' id negate with
  | zero => exact absurd hroom (Nat.not_lt_zero _)
  | succ depth ih =>
      cases depth' with
      | zero => exact absurd hroom' (Nat.not_lt_zero _)
      | succ depth' =>
          unfold Source.conditionWithin Source.conditionMentionsWithin
          split
          · next sc hjoined =>
              obtain ⟨hfirst, hsecond⟩ := hparts id sc hjoined
              have hbelow {part : NodeId} (h : part < id) (negate : Bool) :=
                ih negate (h.trans_le (Nat.le_of_lt_succ hroom))
                  (h.trans_le (Nat.le_of_lt_succ hroom'))
              rw [(hbelow hfirst _).1, (hbelow hsecond _).1, (hbelow hfirst _).2,
                (hbelow hsecond _).2]
              exact ⟨rfl, rfl⟩
          · exact ⟨rfl, rfl⟩

end Conditions

/-- Writing code from a graph comes to an end: a call that goes on discovers a node, so that what
lies below the depth of a walk makes no difference, and a condition goes on to smaller slots, so
that what lies below the depth of a condition makes none. -/
structure Source.Terminates (src : Source) : Prop where
  calls : ∀ ctx id s, src.Stops ctx id s ∨ src.Discovers ctx id s
  walks : ∀ bottom depth ctx id s, (unvisited src s).card < depth →
    (src.walkOver bottom depth ctx id).run s =
      (src.walk ((src.graph.size + 1) * (src.graph.size + 1)) ctx id).run s
  parts : PartsBelow src.graph
  conditions : ∀ vars depth id negate, id < depth → id < src.graph.size →
    src.conditionWithin vars depth id negate =
        src.conditionWithin vars (src.graph.size + 1) id negate ∧
      src.conditionMentionsWithin vars depth id negate =
        src.conditionMentionsWithin vars (src.graph.size + 1) id negate

/-- **Writing code comes to an end**, if no exit is the head of a loop. -/
theorem terminates
    {src : Source}
    (hexits : ExitsEnd src.graph)
    (hparts : PartsBelow src.graph) :
    src.Terminates where
  calls := stops_or_discovers hexits
  walks bottom depth ctx id s hroom := by
    rw [walk_eq_walkOver]
    exact (walkOver_eq hexits bottom _ hroom card_unvisited_lt_depth).1
  parts := hparts
  conditions vars depth id negate hroom hknown :=
    conditionWithin_eq hparts negate hroom (Nat.lt_succ_of_lt hknown)

/-- No labels keep writing from coming to an end, and what is written has not been cut off. -/
theorem emit_terminates
    {g : FlowGraph}
    (hexits : ExitsEnd g)
    (hparts : PartsBelow g)
    (w : Writing) :
    (∀ labels, (Source.mk w g labels).Terminates) ∧
      ∀ vars naming, ∃ labels naming' block s,
        (emit w g vars naming).method.body = some block ∧ s.gotoTargets = labels ∧
          ∀ bottom depth, g.size < depth →
            ((Source.mk w g labels).walkOver bottom depth .outermost g.entry).run
              (.start vars naming') = (block, s) := by
  have hends (labels : List NodeId) : (Source.mk w g labels).Terminates := terminates hexits hparts
  refine ⟨hends, fun vars naming => ?_⟩
  obtain ⟨⟨_, _, labels⟩, naming', block, s, rfl, rfl, hrun, hagain, hbody, -⟩ :=
    emit_eq w g vars naming
  refine ⟨labels, naming', block, s, hbody, hagain, fun bottom depth hroom => ?_⟩
  rw [(hends labels).walks _ _ _ _ _ (card_unvisited_le_size.trans_lt hroom)]
  exact hrun

section Unending

variable {src : Source} {ctx : Context} {id : NodeId}

/-- Behind a loop that its head follows the walk goes on from this head. -/
theorem exists_run_writeLoop
    (hfollows : (src.node id).loopFollow = some id)
    (visit : Walk)
    (head : Context → EmitM Block)
    (inner : NodeKind)
    (type : LoopTest)
    (s : Progress) :
    ∃ s', ((src.writeLoop visit head ctx id inner type).run s).2 = ((visit ctx id).run s').2 := by
  unfold Source.writeLoop
  rw [hfollows]
  dsimp only
  split <;> exact ⟨_, rfl⟩

/-- An exit that follows the loop it is the head of is written again behind this loop. -/
theorem exists_run_enterNode
    (hexit : (src.node id).kind.isExit = true)
    (hloop : (src.node id).kind.isLoop = true)
    (hfollows : (src.node id).loopFollow = some id)
    (honward : ctx.continuesLoop id = false)
    (hapart : ctx.isWrittenBehind id = false)
    (visit : Walk)
    (s : Progress) :
    ∃ s', ((src.enterNode visit ctx id).run s).2 = ((visit ctx id).run s').2 := by
  unfold Source.enterNode Source.writeNode
  simp only [honward, hapart, hexit, Bool.not_true, Bool.false_and, Bool.false_eq_true, if_false]
  cases hkind : (src.node id).kind with
  | loop inner type => exact exists_run_writeLoop hfollows visit _ inner type _
  | _ => simp [hkind, NodeKind.isLoop] at hloop

/-- **An exit that follows the loop it is the head of is written for ever**: however deep a walk may
get, it comes to its bottom. -/
theorem exists_run_walkOver
    (hexit : (src.node id).kind.isExit = true)
    (hloop : (src.node id).kind.isLoop = true)
    (hfollows : (src.node id).loopFollow = some id)
    (honward : ctx.continuesLoop id = false)
    (hapart : ctx.isWrittenBehind id = false)
    (bottom : Walk)
    (depth : Nat)
    (s : Progress) :
    ∃ s', ((src.walkOver bottom depth ctx id).run s).2 = ((bottom ctx id).run s').2 := by
  induction depth generalizing s with
  | zero => exact ⟨s, rfl⟩
  | succ depth ih =>
      obtain ⟨s₁, hnext⟩ := exists_run_enterNode hexit hloop hfollows honward hapart
        (src.walkOver bottom depth) s
      obtain ⟨s', hlast⟩ := ih s₁
      exact ⟨s', hnext.trans hlast⟩

/-- No bound on the depth of a walk makes up for an exit that follows the loop it is the head of. -/
theorem not_terminates
    (hexit : (src.node id).kind.isExit = true)
    (hloop : (src.node id).kind.isLoop = true)
    (hfollows : (src.node id).loopFollow = some id) :
    ¬ src.Terminates := by
  intro hends
  let mark (dangling : Bool) : Walk := fun _ _ => do
    modify fun s => { s with dangling }
    return []
  let s : Progress := .start .empty .empty
  have hmarked (dangling : Bool) :
      ((src.walk ((src.graph.size + 1) * (src.graph.size + 1)) .outermost id).run s).2.dangling =
        dangling := by
    rw [← hends.walks (mark dangling) _ _ _ _ card_unvisited_lt_depth]
    obtain ⟨s', hlast⟩ :=
      @exists_run_walkOver src .outermost id hexit hloop hfollows rfl rfl (mark dangling) _ s
    rw [hlast]
    rfl
  exact Bool.noConfusion ((hmarked true).symm.trans (hmarked false))

end Unending

end Emission
end DalvikDecompiler
