import DalvikDecompiler.Proofs.Emission.Jumps

/-!
# Where blocks end

**Input.** A graph with its marks, as the structuring stages leave it.

While code is written, a block ends without a jump as soon as the next node is to be written behind
one of the statements around.  Whether the block really ends in front of this node can be told from
the graph alone: from a spot one goes on to others in a way that does not depend on what has been
visited, except that a node which was visited is not written again.  So the spots that are met here
are at least those where something is written.

**Results.**
* `Moves`, `Meets`: how one goes on from a spot, and where one comes to.
* `FallsOff`, `RunsOn`: which nodes are to follow where a block ends.
* `Meets.stands`: the spots are inside the graph and know the loops and switches around.
* `Lays.right`: if each block ends in front of the node that is to follow, Java goes where the graph
  goes from all stops of the code that is written.
-/

namespace DalvikDecompiler
namespace Emission

open Symbolic (Variables)
open Java (Block)

/-- What is written for a node at some place. -/
structure Spot where
  place : Place
  ctx : Context
  id : NodeId
  part : Part

/-- How writing goes on from a spot. -/
inductive Move where
  | onto (spot : Spot)
  /-- The block ends where the code of a node is to follow. -/
  | falls (place : Place) (id : NodeId)
  /-- The block ends, as the next arm belongs to the node that is to follow. -/
  | runsOn (place : Place) (id : NodeId)

/-- How one may go on from a spot inside an arm in front of another one, or outside of all arms.
Switches and protected regions are not entered. -/
inductive Moves (g : FlowGraph) (case : Option NodeId) : Spot → Move → Prop
  | code {place : Place} {ctx : Context} {id : NodeId}
      (hcontinues : ctx.continuesLoop id = false)
      (hbehind : ctx.isWrittenBehind id = false) :
      Moves g case ⟨place, ctx, id, .node⟩ (.onto ⟨place, ctx, id, .kind (g.node id).kind⟩)
  | behind {place : Place} {ctx : Context} {id : NodeId}
      (hcontinues : ctx.continuesLoop id = false)
      (hbehind : ctx.isWrittenBehind id = true) :
      Moves g case ⟨place, ctx, id, .node⟩ (.falls place id)
  | straight {place : Place} {ctx : Context} {id next : NodeId}
      (hsuccs : g.succs id = [next])
      (hstays : some next ≠ ctx.top .loopEnd)
      (hapart : some next ≠ case) :
      Moves g case ⟨place, ctx, id, .kind .statement⟩ (.onto ⟨place, ctx, next, .node⟩)
  | through {place : Place} {ctx : Context} {id next : NodeId}
      (hsuccs : g.succs id = [next])
      (hstays : some next ≠ ctx.top .loopEnd)
      (hinto : some next = case) :
      Moves g case ⟨place, ctx, id, .kind .statement⟩ (.runsOn place next)
  | pass {place : Place} {ctx : Context} {id : NodeId} {kind : NodeKind} {b : BranchTargets}
      (hplain : kind.isLoop = false)
      (hinner : kind.targets? = some b)
      (htargets : (g.node id).kind.targets? = some b)
      (hsingle : b.onTrue = b.onFalse) :
      Moves g case ⟨place, ctx, id, .kind kind⟩ (.onto ⟨place, ctx, b.onTrue, .node⟩)
  | breaking {place : Place} {ctx : Context} {id : NodeId} {kind : NodeKind} {b : BranchTargets}
      (negate : Bool)
      (hsplits : Splits g id kind b)
      (hleaves : some (b.toward !negate) = ctx.top .loopEnd) :
      Moves g case ⟨place, ctx, id, .kind kind⟩ (.onto ⟨place, ctx, b.toward negate, .node⟩)
  | continuing {place : Place} {ctx : Context} {id : NodeId} {kind : NodeKind} {b : BranchTargets}
      (negate : Bool)
      (hsplits : Splits g id kind b)
      (hstays : ∀ holds, some (b.toward holds) ≠ ctx.top .loopEnd)
      (hcontinues : ctx.continuesLoop (b.toward !negate) = true) :
      Moves g case ⟨place, ctx, id, .kind kind⟩ (.onto ⟨place, ctx, b.toward negate, .node⟩)
  | inside {place : Place} {ctx : Context} {id follow : NodeId} {kind : NodeKind}
      {b : BranchTargets}
      (holds : Bool)
      (hsplits : Splits g id kind b)
      (hinside : StaysInside ctx b)
      (hifFollow : (g.node id).ifFollow = some follow) :
      Moves g case ⟨place, ctx, id, .kind kind⟩
        (.onto ⟨place.before (some follow), ctx.push .branchEnd (some follow), b.toward holds,
          .node⟩)
  /-- Only the target that is not where the targets come together is written inside. -/
  | omits {place : Place} {ctx : Context} {id follow : NodeId} {kind : NodeKind}
      {b : BranchTargets}
      (reversed : Bool)
      (hsplits : Splits g id kind b)
      (hinside : StaysInside ctx b)
      (hifFollow : (g.node id).ifFollow = some follow)
      (horder : reversed = true ↔ b.onTrue = follow ∨ some b.onTrue = case ∨
        (g.node b.onTrue).num < (g.node id).num)
      (hmeets : follow = b.onTrue ∨ follow = b.onFalse) :
      Moves g case ⟨place, ctx, id, .kind kind⟩
        (.falls (place.before (some follow)) (b.toward reversed))
  | joined {place : Place} {ctx : Context} {id follow : NodeId} {kind : NodeKind}
      {b : BranchTargets}
      (hsplits : Splits g id kind b)
      (hinside : StaysInside ctx b)
      (hifFollow : (g.node id).ifFollow = some follow) :
      Moves g case ⟨place, ctx, id, .kind kind⟩ (.onto ⟨place, ctx, follow, .node⟩)
  | opened {place : Place} {ctx : Context} {id : NodeId} {kind : NodeKind} {b : BranchTargets}
      (holds : Bool)
      (hsplits : Splits g id kind b)
      (hinside : StaysInside ctx b)
      (hifFollow : (g.node id).ifFollow = none) :
      Moves g case ⟨place, ctx, id, .kind kind⟩ (.onto ⟨place, ctx, b.toward holds, .node⟩)
  | preTest {place : Place} {ctx : Context} {id : NodeId} {inner : NodeKind} {b : BranchTargets}
      (negate : Bool)
      (hkind : Inside (.loop inner .preTest) (g.node id).kind)
      (htargets : inner.targets? = some b)
      (horder : negate = true ↔ some b.onTrue = (g.node id).loopFollow) :
      Moves g case ⟨place, ctx, id, .kind (.loop inner .preTest)⟩
        (.onto ⟨place.inLoop id id (g.node id).loopFollow id,
          loopContext ctx (g.node id).loopFollow id, b.toward !negate, .node⟩)
  | tested {place : Place} {ctx : Context} {id : NodeId} {inner : NodeKind} {b : BranchTargets}
      (negate : Bool)
      (hkind : Inside (.loop inner .preTest) (g.node id).kind)
      (htargets : inner.targets? = some b)
      (horder : negate = true ↔ some b.onTrue = (g.node id).loopFollow) :
      Moves g case ⟨place, ctx, id, .kind (.loop inner .preTest)⟩
        (.falls (place.before (g.node id).loopFollow) (b.toward negate))
  | postTest {place : Place} {ctx : Context} {id latch : NodeId} {inner : NodeKind}
      {b : BranchTargets}
      (hkind : Inside (.loop inner .postTest) (g.node id).kind)
      (hends : (g.node id).latch = some latch)
      (htargets : (g.node latch).kind.targets? = some b) :
      Moves g case ⟨place, ctx, id, .kind (.loop inner .postTest)⟩
        (.onto ⟨place.inLoop id latch (g.node id).loopFollow latch,
          loopContext (ctx.push .latch (some latch)) (g.node id).loopFollow latch, id,
          .kind inner⟩)
  | again {place : Place} {ctx : Context} {id latch : NodeId} {inner : NodeKind}
      {b : BranchTargets}
      (negate : Bool)
      (hkind : Inside (.loop inner .postTest) (g.node id).kind)
      (hends : (g.node id).latch = some latch)
      (htargets : (g.node latch).kind.targets? = some b)
      (horder : negate = true ↔ b.onTrue ≠ id ∧ b.onFalse = id) :
      Moves g case ⟨place, ctx, id, .kind (.loop inner .postTest)⟩
        (.falls (place.inLoop id latch (g.node id).loopFollow id) (b.toward !negate))
  | ended {place : Place} {ctx : Context} {id latch : NodeId} {inner : NodeKind}
      {b : BranchTargets}
      (negate : Bool)
      (hkind : Inside (.loop inner .postTest) (g.node id).kind)
      (hends : (g.node id).latch = some latch)
      (htargets : (g.node latch).kind.targets? = some b)
      (horder : negate = true ↔ b.onTrue ≠ id ∧ b.onFalse = id) :
      Moves g case ⟨place, ctx, id, .kind (.loop inner .postTest)⟩
        (.falls (place.before (g.node id).loopFollow) (b.toward negate))
  | untested {place : Place} {ctx : Context} {id : NodeId} {inner : NodeKind}
      (hkind : Inside (.loop inner .postTest) (g.node id).kind) :
      Moves g case ⟨place, ctx, id, .kind (.loop inner .postTest)⟩
        (.onto ⟨place.inLoop id id (g.node id).loopFollow id,
          loopContext (ctx.push .latch (g.node id).latch) (g.node id).loopFollow id, id,
          .kind inner⟩)
  | endless {place : Place} {ctx : Context} {id : NodeId} {inner : NodeKind} {type : LoopTest}
      {latch : Option NodeId}
      (hkind : Inside (.loop inner type) (g.node id).kind)
      (hfree : type = .endless ∨ type = .preTest ∧ inner.targets? = none)
      (hends : latch = none ∨ latch = (g.node id).latch) :
      Moves g case ⟨place, ctx, id, .kind (.loop inner type)⟩
        (.onto ⟨place.inLoop id id (g.node id).loopFollow (latch.getD id),
          loopContext ctx (g.node id).loopFollow id, id, .kind inner⟩)
  | latch {place : Place} {ctx : Context} {id latch : NodeId} {inner : NodeKind} {type : LoopTest}
      (hkind : Inside (.loop inner type) (g.node id).kind)
      (hfree : type = .endless ∨ type = .preTest ∧ inner.targets? = none)
      (hends : (g.node id).latch = some latch) :
      Moves g case ⟨place, ctx, id, .kind (.loop inner type)⟩
        (.onto ⟨place.inLoop id id (g.node id).loopFollow id,
          loopContext ctx (g.node id).loopFollow id, latch, .node⟩)
  | follow {place : Place} {ctx : Context} {id next : NodeId} {inner : NodeKind} {type : LoopTest}
      (hkind : Inside (.loop inner type) (g.node id).kind)
      (hfollow : (g.node id).loopFollow = some next) :
      Moves g case ⟨place, ctx, id, .kind (.loop inner type)⟩ (.onto ⟨place, ctx, next, .node⟩)

section Ways

variable (g : FlowGraph) (case : Option NodeId) (start : Spot)

/-- The spots that one comes to. -/
def Meets : Spot → Prop :=
  Relation.ReflTransGen (fun spot next => Moves g case spot (.onto next)) start

/-- A block ends where a node is to follow that is written behind one of the statements around. -/
def FallsOff (place : Place) (id : NodeId) : Prop :=
  ∃ spot, Meets g case start spot ∧ Moves g case spot (.falls place id)

/-- A block ends where the target of the next arm is to follow. -/
def RunsOn (place : Place) (id : NodeId) : Prop :=
  ∃ spot, Meets g case start spot ∧ Moves g case spot (.runsOn place id)

/-- Where a block ends, the node that is to follow is the one behind it. -/
def Resumes : Prop :=
  ∀ place id, FallsOff g case start place id → place.next = some id

/-- Where a block ends in front of the next arm, this arm is what stands behind it. -/
def Crosses : Prop :=
  ∀ place id, RunsOn g case start place id → place.next = some id

/-- No node at which writing goes on is one that is only marked when it is visited. -/
def KeepsLabels : Prop :=
  ∀ place ctx id kind, Meets g case start ⟨place, ctx, id, .kind kind⟩ → ¬ OnlyMarked g id

end Ways

section Search

instance (ctx : Context) (b : BranchTargets) : Decidable (StaysInside ctx b) :=
  decidable_of_iff
    ((∀ holds, some (b.toward holds) ≠ ctx.top .loopEnd) ∧
      ∀ holds, ctx.continuesLoop (b.toward holds) = false)
    ⟨fun h => ⟨h.1, h.2⟩, fun h => ⟨h.leaves, h.continues⟩⟩

variable (g : FlowGraph) (case : Option NodeId) (place : Place) (ctx : Context) (id : NodeId)

/-- The moves from a node that runs straight on. -/
def straightMoves : List Move :=
  match g.succs id with
  | [next] =>
      if some next = ctx.top .loopEnd then []
      else if some next = case then [.runsOn place next]
      else [.onto ⟨place, ctx, next, .node⟩]
  | _ => []

/-- The moves from a branch with two targets that neither leaves nor continues the loop. -/
def insideMoves (b : BranchTargets) : List Move :=
  match (g.node id).ifFollow with
  | none => [true, false].map fun holds => .onto ⟨place, ctx, b.toward holds, .node⟩
  | some follow =>
      let outer := place.before (some follow)
      let omitted := [true, false].filter fun reversed =>
        (follow = b.onTrue ∨ follow = b.onFalse) ∧
          (reversed = true ↔ b.onTrue = follow ∨ some b.onTrue = case ∨
            (g.node b.onTrue).num < (g.node id).num)
      [true, false].map (fun holds =>
          .onto ⟨outer, ctx.push .branchEnd (some follow), b.toward holds, .node⟩) ++
        omitted.map (fun reversed => .falls outer (b.toward reversed)) ++
        [.onto ⟨place, ctx, follow, .node⟩]

/-- The moves from a branch. -/
def branchMoves (b : BranchTargets) : List Move :=
  if b.onTrue = b.onFalse then [.onto ⟨place, ctx, b.onTrue, .node⟩]
  else
    let onto (stops : List Bool) : List Move :=
      stops.map fun negate => .onto ⟨place, ctx, b.toward negate, .node⟩
    onto ([true, false].filter fun negate => some (b.toward !negate) = ctx.top .loopEnd) ++
      onto ([true, false].filter fun negate => ctx.continuesLoop (b.toward !negate)) ++
      if StaysInside ctx b then insideMoves g case place ctx id b else []

/-- The moves from a loop that is tested in front. -/
def preTestMoves (b : BranchTargets) : List Move :=
  let follow := (g.node id).loopFollow
  let negations := [true, false].filter fun negate => (negate = true ↔ some b.onTrue = follow)
  negations.flatMap fun negate =>
    [.onto ⟨place.inLoop id id follow id, loopContext ctx follow id, b.toward !negate, .node⟩,
      .falls (place.before follow) (b.toward negate)]

/-- The moves from a loop that is tested behind. -/
def postTestMoves (inner : NodeKind) : List Move :=
  let follow := (g.node id).loopFollow
  let untested := .onto ⟨place.inLoop id id follow id,
    loopContext (ctx.push .latch (g.node id).latch) follow id, id, .kind inner⟩
  let tested (latch : NodeId) (b : BranchTargets) : List Move :=
    let negations :=
      [true, false].filter fun negate => (negate = true ↔ b.onTrue ≠ id ∧ b.onFalse = id)
    .onto ⟨place.inLoop id latch follow latch,
        loopContext (ctx.push .latch (some latch)) follow latch, id, .kind inner⟩ ::
      negations.flatMap fun negate =>
        [.falls (place.inLoop id latch follow id) (b.toward !negate),
          .falls (place.before follow) (b.toward negate)]
  match (g.node id).latch with
  | none => [untested]
  | some latch => untested :: ((g.node latch).kind.targets?.map (tested latch)).getD []

/-- The moves from a loop without a test. -/
def endlessMoves (inner : NodeKind) : List Move :=
  let follow := (g.node id).loopFollow
  let leading (again : NodeId) : Move :=
    .onto ⟨place.inLoop id id follow again, loopContext ctx follow id, id, .kind inner⟩
  match (g.node id).latch with
  | none => [leading id]
  | some latch =>
      [leading id, leading latch,
        .onto ⟨place.inLoop id id follow id, loopContext ctx follow id, latch, .node⟩]

/-- The moves from a loop that lead into it. -/
def turnMoves (inner : NodeKind) (type : LoopTest) : List Move :=
  match type, inner.targets? with
  | .preTest, some b => preTestMoves g place ctx id b
  | .postTest, _ => postTestMoves g place ctx id inner
  | _, _ => endlessMoves g place ctx id inner

/-- The moves from a loop. -/
def loopMoves (inner : NodeKind) (type : LoopTest) : List Move :=
  turnMoves g place ctx id inner type ++
    (g.node id).loopFollow.toList.map fun next => .onto ⟨place, ctx, next, .node⟩

/-- The moves from a spot. -/
def Spot.moves (g : FlowGraph) (case : Option NodeId) : Spot → List Move
  | ⟨place, ctx, id, .node⟩ =>
      if ctx.continuesLoop id then []
      else if ctx.isWrittenBehind id then [.falls place id]
      else [.onto ⟨place, ctx, id, .kind (g.node id).kind⟩]
  | ⟨place, ctx, id, .kind (.loop inner type)⟩ => loopMoves g place ctx id inner type
  | ⟨place, ctx, id, .kind .statement⟩ => straightMoves g case place ctx id
  | ⟨place, ctx, id, .kind kind⟩ =>
      (kind.targets?.map (branchMoves g case place ctx id)).getD []

/-- Whether all moves are fine that are met in some steps, if no more can be made. -/
def Spot.check (g : FlowGraph) (case : Option NodeId) (fine : Move → Bool) : Nat → Spot → Bool
  | 0, _ => false
  | k + 1, spot =>
      (spot.moves g case).all fun move => fine move && match move with
        | .onto next => next.check g case fine k
        | _ => true

end Search

section Searching

variable {g : FlowGraph} {case : Option NodeId} {spot start : Spot} {move : Move}

section Branches

variable {place : Place} {ctx : Context} {id follow : NodeId} {kind : NodeKind} {b : BranchTargets}

theorem mem_both
    (value : Bool) :
    value ∈ [true, false] := by
  cases value <;> decide

/-- A choice that is tried is made if it is possible. -/
theorem mem_choices
    {p : Bool → Prop}
    [DecidablePred p]
    {value : Bool}
    (h : p value) :
    value ∈ [true, false].filter fun value => p value :=
  List.mem_filter.2 ⟨mem_both value, decide_eq_true h⟩

theorem Spot.moves_of_targets
    (hplain : kind.isLoop = false)
    (hinner : kind.targets? = some b) :
    Spot.moves g case ⟨place, ctx, id, .kind kind⟩ = branchMoves g case place ctx id b := by
  cases kind with
  | conditional | shortCircuit => cases hinner; rfl
  | loop => cases hplain
  | _ => cases hinner

theorem Splits.moves_eq
    (h : Splits g id kind b) :
    Spot.moves g case ⟨place, ctx, id, .kind kind⟩ = branchMoves g case place ctx id b :=
  Spot.moves_of_targets h.plain h.inner

theorem Splits.mem_moves_inside
    (h : Splits g id kind b)
    (hinside : StaysInside ctx b)
    (hmove : move ∈ insideMoves g case place ctx id b) :
    move ∈ Spot.moves g case ⟨place, ctx, id, .kind kind⟩ := by
  rw [h.moves_eq, branchMoves, if_neg h.two, if_pos hinside]
  exact List.mem_append_right _ hmove

theorem insideMoves_eq
    (hfollow : (g.node id).ifFollow = some follow) :
    insideMoves g case place ctx id b =
      ([true, false].map fun holds => .onto ⟨place.before (some follow),
        ctx.push .branchEnd (some follow), b.toward holds, .node⟩) ++
      (([true, false].filter fun reversed => (follow = b.onTrue ∨ follow = b.onFalse) ∧
        (reversed = true ↔ b.onTrue = follow ∨ some b.onTrue = case ∨
          (g.node b.onTrue).num < (g.node id).num)).map fun reversed =>
        .falls (place.before (some follow)) (b.toward reversed)) ++
      [.onto ⟨place, ctx, follow, .node⟩] := by
  rw [insideMoves, hfollow]

theorem turnMoves_of_free
    {inner : NodeKind}
    {type : LoopTest}
    (h : type = .endless ∨ type = .preTest ∧ inner.targets? = none) :
    turnMoves g place ctx id inner type = endlessMoves g place ctx id inner := by
  rcases h with rfl | ⟨rfl, hnone⟩
  · rfl
  · simp only [turnMoves, hnone]

end Branches

/-- All moves are found. -/
theorem Moves.mem_moves
    (h : Moves g case spot move) :
    move ∈ spot.moves g case := by
  cases h with
  | code hcontinues hbehind => simp [Spot.moves, hcontinues, hbehind]
  | behind hcontinues hbehind => simp [Spot.moves, hcontinues, hbehind]
  | straight hsuccs hstays hapart => simp [Spot.moves, straightMoves, hsuccs, hstays, hapart]
  | through hsuccs hstays hinto =>
      subst hinto
      simp [Spot.moves, straightMoves, hsuccs, hstays]
  | pass hplain hinner _ hsingle => simp [Spot.moves_of_targets hplain hinner, branchMoves, hsingle]
  | breaking negate hsplits hleaves =>
      rw [hsplits.moves_eq, branchMoves, if_neg hsplits.two]
      exact List.mem_append_left _ (List.mem_append_left _
        (List.mem_map.2 ⟨negate, mem_choices hleaves, rfl⟩))
  | continuing negate hsplits _ hcontinues =>
      rw [hsplits.moves_eq, branchMoves, if_neg hsplits.two]
      exact List.mem_append_left _ (List.mem_append_right _
        (List.mem_map.2 ⟨negate, List.mem_filter.2 ⟨mem_both _, hcontinues⟩, rfl⟩))
  | inside holds hsplits hinside hifFollow =>
      refine hsplits.mem_moves_inside hinside ?_
      rw [insideMoves_eq hifFollow]
      exact List.mem_append_left _ (List.mem_append_left _
        (List.mem_map.2 ⟨holds, mem_both _, rfl⟩))
  | omits reversed hsplits hinside hifFollow horder hmeets =>
      refine hsplits.mem_moves_inside hinside ?_
      rw [insideMoves_eq hifFollow]
      exact List.mem_append_left _ (List.mem_append_right _
        (List.mem_map.2 ⟨reversed, mem_choices ⟨hmeets, horder⟩, rfl⟩))
  | joined hsplits hinside hifFollow =>
      refine hsplits.mem_moves_inside hinside ?_
      rw [insideMoves_eq hifFollow]
      exact List.mem_append_right _ List.mem_cons_self
  | opened holds hsplits hinside hifFollow =>
      refine hsplits.mem_moves_inside hinside ?_
      rw [insideMoves, hifFollow]
      exact List.mem_map.2 ⟨holds, mem_both _, rfl⟩
  | preTest negate _ htargets horder =>
      simp only [Spot.moves, loopMoves, turnMoves, htargets, preTestMoves]
      exact List.mem_append_left _ (List.mem_flatMap.2
        ⟨negate, mem_choices horder, List.mem_cons_self⟩)
  | tested negate _ htargets horder =>
      simp only [Spot.moves, loopMoves, turnMoves, htargets, preTestMoves]
      exact List.mem_append_left _ (List.mem_flatMap.2
        ⟨negate, mem_choices horder, List.mem_cons_of_mem _ List.mem_cons_self⟩)
  | postTest _ hends htargets =>
    simp [Spot.moves, loopMoves, turnMoves, postTestMoves, hends, htargets]
  | again negate _ hends htargets horder =>
      simp only [Spot.moves, loopMoves, turnMoves, postTestMoves, hends, htargets]
      exact List.mem_append_left _ (List.mem_cons_of_mem _ (List.mem_cons_of_mem _
        (List.mem_flatMap.2 ⟨negate, mem_choices horder, List.mem_cons_self⟩)))
  | ended negate _ hends htargets horder =>
      simp only [Spot.moves, loopMoves, turnMoves, postTestMoves, hends, htargets]
      exact List.mem_append_left _ (List.mem_cons_of_mem _ (List.mem_cons_of_mem _
        (List.mem_flatMap.2
          ⟨negate, mem_choices horder, List.mem_cons_of_mem _ List.mem_cons_self⟩)))
  | @untested _ _ id =>
      simp only [Spot.moves, loopMoves, turnMoves, postTestMoves]
      cases (g.node id).latch <;> simp
  | endless _ hfree hends =>
      refine List.mem_append_left _ ?_
      rw [turnMoves_of_free hfree, endlessMoves]
      rcases hends with rfl | rfl
      · cases (g.node _).latch <;> simp
      · cases (g.node _).latch <;> simp
  | latch _ hfree hends =>
      refine List.mem_append_left _ ?_
      rw [turnMoves_of_free hfree, endlessMoves, hends]
      simp
  | follow _ hfollow => simp [Spot.moves, loopMoves, hfollow]

/-- What is met from a spot that has been checked is fine. -/
theorem Meets.fine
    {fine : Move → Bool}
    {k : Nat}
    (h : Meets g case start spot)
    (hmoves : Moves g case spot move)
    (hcheck : start.check g case fine k = true) :
    fine move = true := by
  induction h using Relation.ReflTransGen.head_induction_on generalizing k with
  | refl =>
      cases k with
      | zero => cases hcheck
      | succ k =>
          have heach := List.all_eq_true.1 hcheck move hmoves.mem_moves
          exact (Bool.and_eq_true_iff.1 heach).1
  | head hfirst _ ih =>
      cases k with
      | zero => cases hcheck
      | succ k =>
          have heach := List.all_eq_true.1 hcheck _ hfirst.mem_moves
          exact ih (Bool.and_eq_true_iff.1 heach).2

/-- Whether a move off the end of a block comes to the node behind it. -/
def Move.resumes : Move → Bool
  | .falls place id => place.next == some id
  | _ => true

/-- Whether a move into the next arm comes to the node behind it. -/
def Move.crosses : Move → Bool
  | .runsOn place id => place.next == some id
  | _ => true

theorem Resumes.of_check
    (k : Nat)
    (h : start.check g case Move.resumes k = true) :
    Resumes g case start := by
  rintro place id ⟨spot, hmeets, hmoves⟩
  exact eq_of_beq (hmeets.fine hmoves h)

theorem Crosses.of_check
    (k : Nat)
    (h : start.check g case Move.crosses k = true) :
    Crosses g case start := by
  rintro place id ⟨spot, hmeets, hmoves⟩
  exact eq_of_beq (hmeets.fine hmoves h)

end Searching

/-- A spot that belongs to a graph and knows the loops and switches around. -/
structure Spot.Stands (spot : Spot) (g : FlowGraph) : Prop where
  live : g.isLive spot.id = true
  around : Around g spot.ctx spot.place.scopes
  inside : ∀ kind, spot.part = .kind kind → Inside kind (g.node spot.id).kind

/-- Outside of all statements, in front of the entry. -/
def Spot.entry (g : FlowGraph) : Spot :=
  ⟨.outermost, .outermost, g.entry, .node⟩

section Standing

variable {g : FlowGraph} {case : Option NodeId} {start spot next : Spot}

theorem Inside.isSwitch
    {cases : SwitchTable}
    {outer : NodeKind}
    (h : Inside (.switch cases) outer) :
    outer.isSwitch = true :=
  Option.isSome_iff_exists.2 ⟨cases, h.switch?_eq.symm⟩

theorem Moves.stands
    (h : Moves g case spot (.onto next))
    (hunprotected : g.Unprotected)
    (hstands : spot.Stands g) :
    next.Stands g := by
  obtain ⟨hlive, haround, hinside⟩ := hstands
  have hnode {id : NodeId} {place : Place} {ctx : Context} (hlive : g.isLive id = true)
      (haround : Around g ctx place.scopes) : Spot.Stands ⟨place, ctx, id, .node⟩ g :=
    ⟨hlive, haround, fun _ h => by cases h⟩
  have htoward {id : NodeId} {b : BranchTargets} (hlive : g.isLive id = true)
      (htargets : (g.node id).kind.targets? = some b) (holds : Bool) :
      g.isLive (b.toward holds) = true :=
    ((hunprotected.ending id hlive).of_branch htargets).1 holds
  have hmarked := hunprotected.marked _ hlive
  cases h with
  | code => exact ⟨hlive, haround, fun _ h => by cases h; exact .refl _⟩
  | @straight _ _ id next hsuccs =>
      have hkind := (hinside _ rfl).base_eq.symm
      obtain ⟨_, hsame, hlive', -⟩ := (hunprotected.ending id hlive).of_straight hkind
      obtain rfl := List.head_eq_of_cons_eq (hsuccs.symm.trans hsame)
      exact hnode hlive' haround
  | pass _ _ htargets => exact hnode (htoward hlive htargets true) haround
  | breaking negate hsplits => exact hnode (htoward hlive hsplits.targets negate) haround
  | continuing negate hsplits => exact hnode (htoward hlive hsplits.targets negate) haround
  | inside holds hsplits =>
      exact hnode (htoward hlive hsplits.targets holds) (haround.push (by decide) _)
  | joined _ _ hifFollow => exact hnode (hmarked _ (.inl hifFollow)) haround
  | opened holds hsplits => exact hnode (htoward hlive hsplits.targets holds) haround
  | preTest negate hkind htargets =>
      exact hnode (htoward hlive (hkind.targets_eq.symm.trans htargets) _)
        (haround.inLoop hkind.isLoop (.inl rfl))
  | postTest hkind hends =>
      exact ⟨hlive, (haround.push (by decide) _).inLoop hkind.isLoop (.inr hends),
        fun _ h => by cases h; exact hkind.loop⟩
  | untested hkind =>
      exact ⟨hlive, (haround.push (by decide) _).inLoop hkind.isLoop (.inl rfl),
        fun _ h => by cases h; exact hkind.loop⟩
  | endless hkind =>
      exact ⟨hlive, haround.inLoop hkind.isLoop (.inl rfl), fun _ h => by cases h; exact hkind.loop⟩
  | latch hkind _ hends =>
      exact hnode (hmarked _ (.inr (.inr (.inr hends)))) (haround.inLoop hkind.isLoop (.inl rfl))
  | follow _ hfollow => exact hnode (hmarked _ (.inr (.inl hfollow))) haround

theorem Meets.stands
    (h : Meets g case start spot)
    (hunprotected : g.Unprotected)
    (hstart : start.Stands g) :
    spot.Stands g := by
  induction h with
  | refl => exact hstart
  | tail _ hmoves ih => exact hmoves.stands hunprotected ih

theorem Spot.entry_stands
    (hunprotected : g.Unprotected) :
    (Spot.entry g).Stands g :=
  ⟨hunprotected.entry, .outermost, fun _ h => by cases h⟩

/-- Outside of arms no block ends in front of an arm. -/
theorem not_runsOn
    {place : Place}
    {id : NodeId} :
    ¬ RunsOn g none start place id := by
  rintro ⟨_, -, hmoves⟩
  cases hmoves with
  | through _ _ hinto => cases hinto

end Standing

/-- Java goes where the graph goes from a place where a walk stops. -/
def Right (marked : NodeId → Prop) (place : Place) : Stop → Prop
  | .cut _ => False
  | .falls id => place.next = some id
  | .exits id => place.breaks.bind Scope.follow = some id
  | .continues id => place.continues.bind Scope.again = some id
  | .jumps id => marked id
  | .selects .. => True
  | .closes _ => True

/-- All switches have been visited. -/
def SwitchesSeen (src : Source) (s : Progress) : Prop :=
  ∀ n, (src.node n).kind.isSwitch = true → n ∈ s.visited

theorem SwitchesSeen.advances
    {src : Source}
    {s s' : Progress}
    (h : SwitchesSeen src s)
    (hadvances : Advances s s') :
    SwitchesSeen src s' :=
  fun n hn => hadvances.visited (h n hn)

/-- What is written belongs to the kind of a node that is no switch. -/
def Part.Plain (src : Source) (id : NodeId) : Part → Prop
  | .node => True
  | .kind k => Inside k (src.node id).kind ∧ (src.node id).kind.isSwitch = false

namespace Part.Plain

variable {src : Source} {id : NodeId} {s : Progress} {kind : NodeKind}

/-- A node that is entered is no switch, which would have been visited. -/
theorem code
    (hseen : SwitchesSeen src s)
    (hfirst : (src.node id).kind.isExit = true ∨ id ∉ s.visited) :
    Part.Plain src id (.kind (src.node id).kind) := by
  refine ⟨.refl _, ?_⟩
  rcases hfirst with hexit | hnew
  · exact NodeKind.isSwitch_of_isExit hexit
  · exact Bool.eq_false_iff.2 fun hswitch => hnew (hseen id hswitch)

theorem inner
    {type : LoopTest}
    (h : Part.Plain src id (.kind (.loop kind type))) :
    Part.Plain src id (.kind kind) :=
  ⟨h.1.loop, h.2⟩

theorem not_switch
    {cases : SwitchTable}
    (h : Part.Plain src id (.kind (.switch cases))) :
    False :=
  absurd h.1.isSwitch (Bool.eq_false_iff.1 h.2)

/-- Protected regions are not written. -/
theorem unprotected
    (h : Part.Plain src id (.kind kind))
    (hunprotected : src.graph.Unprotected)
    (hlive : src.graph.isLive id = true) :
    (∀ region handlers follow, kind ≠ .tryBlock region handlers follow) ∧
      ∀ region binding type, kind ≠ .catchBlock region binding type := by
  have hbase := h.1.base_eq.symm
  have hending := hunprotected.ending id hlive
  constructor
  · rintro region handlers follow rfl
    exact hending.base_ne rfl rfl (by simp [NodeKind.base]) hbase
  · rintro region binding type rfl
    exact hending.base_ne rfl rfl (by simp [NodeKind.base]) hbase

end Part.Plain

namespace Around

variable {g : FlowGraph} {ctx : Context} {place : Place} {id : NodeId}

/-- If loops and switches are not mixed, a break leaves the innermost loop. -/
theorem breaks
    (h : Around g ctx place.scopes)
    (hpure : (∀ id, (g.node id).kind.isSwitch = false) ∨ ∀ id, (g.node id).kind.isLoop = false)
    (hleaves : some id = ctx.top .loopEnd) :
    place.breaks.bind Scope.follow = some id := by
  obtain ⟨loop, hfound, hgenuine, hfollow, hbound | ⟨switch, -, hplain, hother⟩⟩ := h.exits hleaves
  · rw [hbound]
    exact hfollow
  rcases hpure with hnoSwitch | hnoLoop
  · cases hother with
    | loop => cases hplain
    | @switch id hkind => simp [hnoSwitch id] at hkind
  · cases hgenuine with
    | @loop head _ hkind => simp [hnoLoop head] at hkind
    | switch => cases List.find?_some hfound

theorem repeats
    (h : Around g ctx place.scopes)
    (hagain : ctx.continuesLoop id = true) :
    place.continues.bind Scope.again = some id := by
  obtain ⟨loop, hfound, -, hagain'⟩ := h.continues hagain
  rw [hfound]
  exact hagain'

end Around

/-- A state inside an arm, or outside of all arms, in which no switch is left to be written. -/
structure Amid (src : Source) (case : Option NodeId) (s : Progress) : Prop where
  seen : SwitchesSeen src s
  nextCase : s.nextCase = case

/-- What code from a spot does to the state: no arm is begun, and the arm around keeps its break
unless it may run on into the next one.  The code is laid out in some way if its blocks end where
they should. -/
structure Carries
    (src : Source)
    (case : Option NodeId)
    (start : Spot)
    (s s' : Progress)
    (laid : Prop) : Prop where
  ready : Amid src case s'
  needBreak : s'.needBreak = s.needBreak ∨
    s'.needBreak = false ∧ ∃ place id, RunsOn src.graph case start place id
  laid : s'.needBreak = true ∨ Crosses src.graph case start → laid

/-- What makes the stops of code right, apart from the ends of blocks in front of the next arm. -/
structure Fitting
    (src : Source)
    (ok : Place → Stop → Prop)
    (marked : NodeId → Prop)
    (case : Option NodeId)
    (start : Spot) : Prop where
  unprotected : src.graph.Unprotected
  unmixed : (∀ id, (src.graph.node id).kind.isSwitch = false) ∨
    ∀ id, (src.graph.node id).kind.isLoop = false
  stands : start.Stands src.graph
  whole : ∀ place id, ¬ ok place (.cut id)
  labelled : ∀ place ctx id kind, Meets src.graph case start ⟨place, ctx, id, .kind kind⟩ →
    ∀ place, ok place (.jumps id) → marked id
  lands : ∀ place id, FallsOff src.graph case start place id → place.next = some id

section Right

variable {src : Source} {vars : Variables} {ok : Place → Stop → Prop} {marked : NodeId → Prop}
variable {case : Option NodeId} {start : Spot} {place place' : Place} {ctx : Context} {id : NodeId}
variable {part : Part} {s s₁ s' : Progress} {block rest : Block} {laid more : Prop}

theorem Amid.of_course
    (h : Amid src case s)
    (hvisited : s.visited ⊆ s'.visited)
    (hcase : s'.nextCase = s.nextCase) :
    Amid src case s' :=
  ⟨fun n hn => hvisited (h.seen n hn), hcase.trans h.nextCase⟩

namespace Carries

theorem refl
    (hready : Amid src case s)
    (hlaid : laid) :
    Carries src case start s s laid :=
  ⟨hready, .inl rfl, fun _ => hlaid⟩

theorem calm
    (hready : Amid src case s)
    (h : Calm s s') :
    Carries src case start s s' True :=
  ⟨hready.of_course h.advances.visited h.nextCase, .inl h.needBreak, fun _ => trivial⟩

/-- A node is marked as visited first. -/
theorem visit
    (hready : Amid src case s)
    (h : Calm { s with visited := OrderedSet.insert s.visited id } s') :
    Carries src case start s s' True :=
  ⟨hready.of_course ((Advances.visit s id).trans h.advances).visited h.nextCase,
    .inl h.needBreak, fun _ => trivial⟩

theorem map
    (h : Carries src case start s s' laid)
    (hmore : laid → more) :
    Carries src case start s s' more :=
  { h with laid := fun hends => hmore (h.laid hends) }

/-- Code behind other code. -/
theorem seq
    (h : Carries src case start s s₁ laid)
    (h' : Amid src case s₁ → Carries src case start s₁ s' more) :
    Carries src case start s s' (laid ∧ more) := by
  have hbehind := h' h.ready
  refine ⟨hbehind.ready, ?_, fun hends =>
    ⟨h.laid (hends.imp_left fun hneed => ?_), hbehind.laid hends⟩⟩
  · rcases hbehind.needBreak with hsame | hlost
    · exact hsame ▸ h.needBreak
    · exact .inr hlost
  · rcases hbehind.needBreak with hsame | ⟨hlost, -⟩
    · exact hsame ▸ hneed
    · simp [hlost] at hneed

/-- Code behind writing that changes nothing but the variables. -/
theorem calm_seq
    (hready : Amid src case s)
    (hcalm : Calm s s₁)
    (h : Amid src case s₁ → Carries src case start s₁ s' laid) :
    Carries src case start s s' laid :=
  ((Carries.calm hready hcalm).seq h).map And.right

/-- Code of a node that has been marked as visited. -/
theorem visit_seq
    (hready : Amid src case s)
    (hcalm : Calm { s with visited := OrderedSet.insert s.visited id } s₁)
    (h : Amid src case s₁ → Carries src case start s₁ s' laid) :
    Carries src case start s s' laid :=
  ((Carries.visit hready hcalm).seq h).map And.right

/-- What follows a statement, if anything does. -/
theorem onward
    {follow : Option NodeId}
    (hready : Amid src case s)
    (hnone : follow = none → rest = [] ∧ s' = s)
    (hsome : ∀ next, follow = some next → Carries src case start s s'
      (Lays src vars (Right marked) place ctx next .node s rest s')) :
    Carries src case start s s' (∀ next, follow = some next →
      Lays src vars (Right marked) place ctx next .node s rest s') := by
  cases follow with
  | none =>
      obtain ⟨-, rfl⟩ := hnone rfl
      exact .refl hready fun _ h => by cases h
  | some next => exact (hsome next rfl).map fun hlays n hn => Option.some.inj hn ▸ hlays

/-- The code of the node that follows a loop, if any does. -/
theorem afterLoop
    {inner : NodeKind}
    {type : LoopTest}
    (hmeets : Meets src.graph case start ⟨place, ctx, id, .kind (.loop inner type)⟩)
    (hkind : Inside (.loop inner type) (src.graph.node id).kind)
    (hnone : (src.graph.node id).loopFollow = none → rest = [] ∧ s' = s)
    (hsome : ∀ next, (src.graph.node id).loopFollow = some next →
      Meets src.graph case start ⟨place, ctx, next, .node⟩ → Part.Plain src next .node →
        Amid src case s → Carries src case start s s'
          (Lays src vars (Right marked) place ctx next .node s rest s'))
    (hready : Amid src case s) :
    Carries src case start s s' (∀ next, (src.graph.node id).loopFollow = some next →
      Lays src vars (Right marked) place ctx next .node s rest s') :=
  .onward hready hnone fun next hfollow =>
    hsome next hfollow (hmeets.tail (.follow hkind hfollow)) trivial hready

end Carries

namespace Fitting

variable {spot : Spot}

theorem standing
    (h : Fitting src ok marked case start)
    (hmeets : Meets src.graph case start spot) :
    spot.Stands src.graph :=
  hmeets.stands h.unprotected h.stands

theorem falls
    (h : Fitting src ok marked case start)
    (hmeets : Meets src.graph case start spot)
    (hmoves : Moves src.graph case spot (.falls place id)) :
    place.next = some id :=
  h.lands place id ⟨spot, hmeets, hmoves⟩

theorem breaks
    (h : Fitting src ok marked case start)
    (hmeets : Meets src.graph case start spot)
    (hleaves : some id = spot.ctx.top .loopEnd) :
    spot.place.breaks.bind Scope.follow = some id :=
  (h.standing hmeets).around.breaks h.unmixed hleaves

theorem repeats
    (h : Fitting src ok marked case start)
    (hmeets : Meets src.graph case start spot)
    (hagain : spot.ctx.continuesLoop id = true) :
    spot.place.continues.bind Scope.again = some id :=
  (h.standing hmeets).around.repeats hagain

end Fitting

/-- All stops of code are right if the blocks met on the way end in front of the nodes that are to
follow. -/
theorem Lays.right
    (h : Lays src vars ok place ctx id part s block s')
    (hfitting : Fitting src ok marked case start)
    (hmeets : Meets src.graph case start ⟨place', ctx, id, part⟩)
    (hplain : part.Plain src id)
    (hready : Amid src case s) :
    Carries src case start s s' (Lays src vars (Right marked) place' ctx id part s block s') := by
  induction h generalizing place' with
  | cut hstop => exact absurd hstop (hfitting.whole _ _)
  | again hagain _ => exact .refl hready (.again hagain (hfitting.repeats hmeets hagain))
  | behind hagain hbehind _ =>
      exact .refl hready (.behind hagain hbehind (hfitting.falls hmeets (.behind hagain hbehind)))
  | jump hagain hbehind hstays hvisited hcalm hstop =>
      have hmarked := hfitting.labelled _ _ _ _ (hmeets.tail (.code hagain hbehind)) _ hstop
      obtain ⟨hready', hsame, -⟩ := @Carries.calm _ _ start _ _ hready hcalm
      exact ⟨hready'.of_course (List.Subset.refl _) rfl, hsame, fun _ =>
        .jump hagain hbehind hstays hvisited hcalm hmarked⟩
  | node hagain hbehind hfirst hcalm hbare _ ih =>
      have hmove := hmeets.tail (.code hagain hbehind)
      exact (Carries.visit_seq hready hcalm (ih hmove (.code hready.seen hfirst))).map
        (.node hagain hbehind hfirst hcalm hbare)
  | leave hleaves hspells hcalm =>
      exact (Carries.calm hready hcalm).map fun _ => .leave hleaves hspells hcalm
  | stuck hsuccs hspells hcalm =>
      exact (Carries.calm hready hcalm).map fun _ => .stuck hsuccs hspells hcalm
  | exit hsuccs hleaves hspells hcalm _ =>
      exact (Carries.calm hready hcalm).map fun _ =>
        .exit hsuccs hleaves hspells hcalm (hfitting.breaks hmeets hleaves)
  | through hsuccs hstays hinto hspells hcalm _ =>
      have hrunsOn : RunsOn src.graph case start place' _ :=
        ⟨_, hmeets, .through hsuccs hstays (hready.nextCase ▸ hinto)⟩
      obtain ⟨hready', -, -⟩ := @Carries.calm _ _ start _ _ hready hcalm
      exact ⟨hready'.of_course (List.Subset.refl _) rfl, .inr ⟨rfl, _, _, hrunsOn⟩, fun hends =>
        .through hsuccs hstays hinto hspells hcalm ((hends.resolve_left (by simp)) _ _ hrunsOn)⟩
  | straight hsuccs hstays hapart hspells hcalm _ ih =>
      have hmove := hmeets.tail (.straight hsuccs hstays (hready.nextCase ▸ hapart))
      exact (Carries.calm_seq hready hcalm (ih hmove trivial)).map
        (.straight hsuccs hstays hapart hspells hcalm)
  | pass hplain' hinner htargets hsingle hsame hcalm _ ih =>
      have hmove := hmeets.tail (.pass hplain' hinner htargets hsingle)
      exact (Carries.calm_seq hready hcalm (ih hmove trivial)).map
        (.pass hplain' hinner htargets hsingle hsame hcalm)
  | breaking negate hsplits hleaves hsame hcalm _ _ ih =>
      have hmove := hmeets.tail (.breaking negate hsplits hleaves)
      exact (Carries.calm_seq hready hcalm (ih hmove trivial)).map
        (.breaking negate hsplits hleaves hsame hcalm (hfitting.breaks hmeets hleaves))
  | continuing negate hsplits hstays hagain hsame hcalm _ _ ih =>
      have hmove := hmeets.tail (.continuing negate hsplits hstays hagain)
      exact (Carries.calm_seq hready hcalm (ih hmove trivial)).map
        (.continuing negate hsplits hstays hagain hsame hcalm (hfitting.repeats hmeets hagain))
  | half reversed hsplits hinside hifFollow horder hmeets' hsame hcalm _ _ _ honTrue honward =>
      have hlands := hfitting.falls hmeets
        (.omits reversed hsplits hinside hifFollow (hready.nextCase ▸ horder) hmeets')
      have hwithin := hmeets.tail (.inside (!reversed) hsplits hinside hifFollow)
      have hbehind := hmeets.tail (.joined hsplits hinside hifFollow)
      exact (Carries.calm_seq hready hcalm fun hready' =>
        (honTrue hwithin trivial hready').seq (honward hbehind trivial)).map fun ⟨hlaid, hrest⟩ =>
          .half reversed hsplits hinside hifFollow horder hmeets' hsame hcalm hlaid hlands hrest
  | joined reversed hsplits hinside hifFollow horder hapart hsame hcalm _ _ _ honTrue honFalse
      honward =>
      have hwithin (holds : Bool) := hmeets.tail (.inside holds hsplits hinside hifFollow)
      have hbehind := hmeets.tail (.joined hsplits hinside hifFollow)
      exact (Carries.calm_seq hready hcalm fun hready' =>
        (honTrue (hwithin _) trivial hready').seq fun hready' =>
          (honFalse (hwithin _) trivial hready').seq
            (honward hbehind trivial)).map fun ⟨hlaid, hlaid', hrest⟩ =>
        .joined reversed hsplits hinside hifFollow horder hapart hsame hcalm hlaid hlaid' hrest
  | opened hsplits hinside hifFollow hsame hcalm _ _ honTrue honFalse =>
      have hwithin (holds : Bool) := hmeets.tail (.opened holds hsplits hinside hifFollow)
      exact (Carries.calm_seq hready hcalm fun hready' =>
        (honTrue (hwithin true) trivial hready').seq
          (honFalse (hwithin false) trivial)).map fun ⟨hlaid, hlaid'⟩ =>
        .opened hsplits hinside hifFollow hsame hcalm hlaid hlaid'
  | preTest negate hkind htargets hloopFollow horder hsame hcalm _ _ hnoRest _ hbody honward =>
      subst hloopFollow
      have hlands := hfitting.falls hmeets (.tested negate hkind htargets horder)
      have hwithin := hmeets.tail (.preTest negate hkind htargets horder)
      exact (Carries.calm_seq hready hcalm fun hready' =>
        (hbody hwithin trivial hready').seq
          (.afterLoop hmeets hkind hnoRest fun n hn => honward n hn)).map fun ⟨hlaid, hrest⟩ =>
        .preTest negate hkind htargets rfl horder hsame hcalm hlands hlaid hnoRest hrest
  | postTest negate hkind hends htargets hloopFollow horder hcalm _ hsame hcalm' _ _ hnoRest _
      hbody honward =>
      subst hloopFollow
      have hagain := hfitting.falls hmeets (.again negate hkind hends htargets horder)
      have hlands := hfitting.falls hmeets (.ended negate hkind hends htargets horder)
      have hwithin := hmeets.tail (.postTest hkind hends htargets)
      exact (Carries.calm_seq hready hcalm fun hready' =>
        (hbody hwithin hplain.inner hready').seq fun hready' =>
          .visit_seq hready' hcalm'
            (.afterLoop hmeets hkind hnoRest fun n hn => honward n hn)).map fun ⟨hlaid, hrest⟩ =>
        .postTest negate hkind hends htargets rfl horder hcalm hlaid hsame hcalm' hagain hlands
          hnoRest hrest
  | untested hkind hends hloopFollow hcalm _ hcalm' hnoRest _ hbody honward =>
      subst hloopFollow
      exact (Carries.calm_seq hready hcalm fun hready' =>
        (hbody (hmeets.tail (.untested hkind)) hplain.inner hready').seq fun hready' =>
          .calm_seq hready' hcalm'
            (.afterLoop hmeets hkind hnoRest fun n hn => honward n hn)).map fun ⟨hlaid, hrest⟩ =>
        .untested hkind hends rfl hcalm hlaid hcalm' hnoRest hrest
  | @endless _ _ id _ _ _ latch _ _ _ _ _ _ _ _ hkind hfree hloopFollow hunwritten _ hnoLast _
      hcalm hnoRest _ hleading htrailing honward =>
      subst hloopFollow
      have hlatch (l : NodeId) (hl : latch = some l) : (src.graph.node id).latch = some l :=
        (Option.filter_eq_some_iff.1 (hunwritten.symm.trans hl)).1
      have hends : latch = none ∨ latch = (src.graph.node id).latch :=
        latch.eq_none_or_eq_some.imp_right fun ⟨l, hl⟩ => hl.trans (hlatch l hl).symm
      have hwithin := hmeets.tail (.endless hkind hfree hends)
      exact ((hleading hwithin hplain.inner hready).seq fun hready' =>
        (Carries.onward hready' hnoLast fun l hl =>
          htrailing l hl (hmeets.tail (.latch hkind hfree (hlatch l hl))) trivial hready').seq
            fun hready' => .calm_seq hready' hcalm
              (.afterLoop hmeets hkind hnoRest fun n hn => honward n hn)).map
        fun ⟨hlaid, hlast, hrest⟩ =>
          .endless hkind hfree rfl hunwritten hlaid hnoLast hlast hcalm hnoRest hrest
  | blank | switch => exact hplain.not_switch.elim
  | region =>
      have hlive := (hfitting.standing hmeets).live
      exact absurd rfl ((hplain.unprotected hfitting.unprotected hlive).1 _ _ _)
  | handler =>
      have hlive := (hfitting.standing hmeets).live
      exact absurd rfl ((hplain.unprotected hfitting.unprotected hlive).2 _ _ _)

end Right

end Emission
end DalvikDecompiler
