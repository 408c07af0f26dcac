import DalvikDecompiler.Proofs.Emission.Positions
import Mathlib

/-!
# Writing code without loops

While code without loops is written, only branches are open around a place.  A walk enters a node
that does not leave the method at most once, so that the number of nodes that were not visited yet
bounds its depth.

The targets of a branch are written in reverse order if the one for a true condition is where the
branches come together.  The numbers of the nodes must not suggest this otherwise: `Ascending` asks
for it.

Main statement: `walk_visits`.
-/

namespace DalvikDecompiler
namespace Emission

open Symbolic (Variables)
open Java (Block Statement Expression)

/-- A context in which nothing but branches is open. -/
def OnlyBranches (ctx : Context) : Prop :=
  ∀ m, m ≠ .branchEnd → ctx.top m = none

namespace OnlyBranches

variable {ctx : Context}

theorem outermost :
    OnlyBranches .outermost :=
  fun _ _ => rfl

theorem push
    (h : OnlyBranches ctx)
    (node : Option NodeId) :
    OnlyBranches (ctx.push .branchEnd node) := by
  intro m hm
  rw [← h m hm]
  simp [Context.top, Context.push, Context.setStack, hm]

theorem continuesLoop
    (h : OnlyBranches ctx)
    (id : NodeId) :
    ctx.continuesLoop id = false := by
  simp [Context.continuesLoop, h .loopStart]

theorem isWrittenBehind
    (h : OnlyBranches ctx)
    (id : NodeId) :
    ctx.isWrittenBehind id = true ↔ id ∈ ctx.top .branchEnd := by
  simp [Context.isWrittenBehind, h .switchEnd, h .loopEnd, h .latch, h .regionEnd]

end OnlyBranches

/-- No branch leads on to a node with a smaller number when its condition holds. -/
def Ascending (g : FlowGraph) : Prop :=
  ∀ id b, g.isLive id = true → (g.node id).kind.targets? = some b →
    (g.node id).num ≤ (g.node b.onTrue).num

/-- The slots that were not visited. -/
def unvisited (src : Source) (s : Progress) : Finset NodeId :=
  (Finset.range src.graph.size).filter (· ∉ s.visited)

section Room

variable {src : Source} {s s' : Progress} {id : NodeId}

theorem card_unvisited_le
    (h : s.visited ⊆ s'.visited) :
    (unvisited src s').card ≤ (unvisited src s).card := by
  refine Finset.card_le_card fun n hn => ?_
  simp only [unvisited, Finset.mem_filter] at hn ⊢
  exact ⟨hn.1, fun hv => hn.2 (h hv)⟩

/-- Visiting a node leaves one node less. -/
theorem card_unvisited_lt
    (hslot : id < src.graph.size)
    (hnew : id ∉ s.visited) :
    (unvisited src { s with visited := OrderedSet.insert s.visited id }).card <
      (unvisited src s).card := by
  refine Finset.card_lt_card (Finset.ssubset_iff_of_subset (fun n hn => ?_) |>.2 ⟨id, ?_, ?_⟩)
  · simp only [unvisited, Finset.mem_filter, OrderedSet.mem_insert, not_or] at hn ⊢
    exact ⟨hn.1, hn.2.1⟩
  · simp [unvisited, hslot, hnew]
  · simp [unvisited]

theorem card_unvisited_le_size :
    (unvisited src s).card ≤ src.graph.size :=
  (Finset.card_filter_le _ _).trans_eq (Finset.card_range _)

/-- The depth of a body leaves room for all nodes. -/
theorem card_unvisited_lt_depth :
    (unvisited src s).card < (src.graph.size + 1) * (src.graph.size + 1) :=
  calc
    (unvisited src s).card ≤ src.graph.size := card_unvisited_le_size
    _ < src.graph.size + 1 := Nat.lt_succ_self _
    _ ≤ (src.graph.size + 1) * (src.graph.size + 1) := Nat.le_mul_of_pos_left _ (Nat.succ_pos _)

end Room

/-- States in which a walk has enough room to go on from a node. -/
structure Ready (src : Source) (vars : Variables) (depth : Nat) (s : Progress) : Prop where
  nextCase : s.nextCase = none
  vars : SameVars vars s.vars
  room : (unvisited src s).card < depth

/-- How a walk goes on from the nodes that are reached from a node. -/
def VisitsAll (src : Source) (vars : Variables) (depth : Nat) (visit : Walk) : Prop :=
  ∀ ctx id s, src.graph.isLive id = true → OnlyBranches ctx → Ready src vars depth s →
    Ensures (visit ctx id) s (Visits src vars id (ctx.top .branchEnd) s)

variable {src : Source} {vars : Variables}

theorem Ready.grows
    {depth : Nat}
    {s s' : Progress}
    (h : Ready src vars depth s)
    (hgrows : Grows s s') :
    Ready src vars depth s' where
  nextCase := hgrows.nextCase.trans h.nextCase
  vars := hgrows.vars.trans h.vars
  room := (card_unvisited_le hgrows.visited).trans_lt h.room

/-- Entering a node that was not visited takes one step of depth and one unvisited node. -/
theorem Ready.enter
    {depth : Nat}
    {s : Progress}
    {id : NodeId}
    (h : Ready src vars (depth + 1) s)
    (hlive : src.graph.isLive id = true)
    (hnew : id ∉ s.visited) :
    Ready src vars depth { s with visited := OrderedSet.insert s.visited id } where
  nextCase := h.nextCase
  vars := h.vars
  room := by
    have hsmaller := card_unvisited_lt (FlowGraph.lt_size_of_isLive hlive) hnew
    have := h.room
    omega

section Writing

variable {depth : Nat} {visit : Walk} {ctx : Context} {id : NodeId} {b : BranchTargets}
variable {ends : Option NodeId}
variable {s s₁ s₂ s₃ : Progress}
variable {thenBlock elseBlock rest : Block}

/-- A branch whose targets are written inside. -/
theorem writesCode_branch
    {vars' : Variables}
    (negate : Bool)
    (htargets : (src.node id).kind.targets? = some b)
    (hsame : SameVars vars vars')
    (hquiet : Quiet s s₁)
    (honTrue : Visits src vars (b.toward (!negate)) ends s₁ thenBlock s₂)
    (honFalse : Visits src vars (b.toward negate) ends s₂ elseBlock s₃) :
    WritesCode src vars id ends s
      [.ifThen (src.conditionWithin vars' (src.graph.size + 1) id negate) thenBlock
        (unlessEmpty elseBlock)] s₃ where
  toPiece := .after_quiet hquiet (honTrue.toPiece.ifThen honFalse.toPiece)
  code rest hknown harrived := by
    refine .branch htargets hsame ?_ ?_
    · exact honTrue.arrives rest (List.Subset.trans honFalse.grows.gotoTargets hknown) harrived
    · rw [getD_unlessEmpty]
      exact honFalse.arrives rest hknown harrived
  next n hleads := by
    obtain ⟨holds, rfl⟩ := (FlowGraph.leads_branch_iff htargets).1 hleads
    rcases Bool.eq_or_eq_not holds negate with rfl | rfl
    · exact honFalse.reached
    · exact honTrue.reached.imp_left fun h => honFalse.grows.visited h

/-- Code that leads to a node only, followed by what is written for this node. -/
theorem WritesCode.append
    {follow : NodeId}
    {block : Block}
    (h : WritesCode src vars id (some follow) s block s₁)
    (hbehind : Visits src vars follow ends s₁ rest s₂) :
    WritesCode src vars id ends s (block ++ rest) s₂ where
  toPiece := h.toPiece.append hbehind fun n hn => (Option.mem_some.1 hn).symm
  code more hknown harrived := by
    rw [List.append_assoc]
    refine h.code _ (List.Subset.trans hbehind.grows.gotoTargets hknown) fun n hn => ?_
    exact Option.mem_some.1 hn ▸ hbehind.arrives more hknown harrived
  next n hleads := by
    rcases h.next n hleads with hn | hn
    · exact .inl (hbehind.grows.visited hn)
    · exact Option.mem_some.1 hn ▸ hbehind.reached

section Visiting

variable (hv : VisitsAll src vars depth visit) (hctx : OnlyBranches ctx)
include hv hctx

theorem ensures_writeStraight
    {next : NodeId}
    (hready : Ready src vars depth s)
    (hkind : (src.node id).kind = .statement)
    (hsuccs : src.graph.succs id = [next])
    (hlive : src.graph.isLive next = true) :
    Ensures (src.writeStraight visit ctx id) s (WritesCode src vars id (ctx.top .branchEnd) s) := by
  refine (ensures_instructions hready.vars _).bind fun own s₁ ⟨hspells, hquiet⟩ => ?_
  have hnotEnd : some next ≠ ctx.top .loopEnd := by simp [hctx .loopEnd]
  have hnotCase : some next ≠ s₁.nextCase := by simp [hquiet.nextCase, hready.nextCase]
  simp only [hsuccs, if_neg hnotEnd]
  refine .get_bind ?_
  rw [if_neg hnotCase]
  refine (hv ctx next s₁ hlive hctx (hready.grows hquiet.grows)).bind
    fun rest s₂ hbehind => .pure ?_
  have hpiece : Piece src vars none s own s₁ := .of_quiet hquiet fun _ _ _ => hspells.not_behind
  exact
    { toPiece := hpiece.append hbehind nofun
      code := fun more hknown harrived => by
        rw [List.append_assoc]
        exact .straight hkind hsuccs hspells (hbehind.arrives more hknown harrived)
      next := fun n hleads => (FlowGraph.leads_straight_iff hkind hsuccs).1 hleads ▸
        hbehind.reached }

theorem ensures_pass
    (hready : Ready src vars depth s)
    (htargets : (src.node id).kind.targets? = some b)
    (hsingle : b.onTrue = b.onFalse)
    (hlive : src.graph.isLive b.onTrue = true) :
    Ensures (do
        let condition ← src.conditionOf id false
        let rest ← visit ctx b.onTrue
        return .expression condition :: rest) s
      (WritesCode src vars id (ctx.top .branchEnd) s) := by
  refine (ensures_conditionOf id false).bind fun e s₁ ⟨he, hquiet⟩ => ?_
  refine (hv ctx b.onTrue s₁ hlive hctx (hready.grows hquiet.grows)).bind
    fun rest s₂ hbehind => .pure ?_
  subst he
  have hpiece : Piece src vars none s
      [.expression (src.conditionWithin s.vars (src.graph.size + 1) id false)] s₁ :=
    .of_quiet hquiet fun _ _ _ h => by
      cases h with
      | later h => cases h
  exact
    { toPiece := hpiece.append hbehind nofun
      code := fun more hknown harrived =>
        .pass htargets hsingle hready.vars (hbehind.arrives more hknown harrived)
      next := fun n hleads => by
        obtain ⟨holds, rfl⟩ := (FlowGraph.leads_branch_iff htargets).1 hleads
        have : b.toward holds = b.onTrue := by cases holds <;> simp [BranchTargets.toward, hsingle]
        exact this ▸ hbehind.reached }

theorem ensures_openBranch
    (hready : Ready src vars depth s)
    (htargets : (src.node id).kind.targets? = some b)
    (hlive : ∀ holds, src.graph.isLive (b.toward holds) = true) :
    Ensures (src.openBranch visit ctx id b) s (WritesCode src vars id (ctx.top .branchEnd) s) := by
  refine (ensures_conditionOf id false).bind fun e s₁ ⟨he, hquiet⟩ => ?_
  have hready₁ := hready.grows hquiet.grows
  refine (hv ctx b.onTrue s₁ (hlive true) hctx hready₁).bind fun thenBlock s₂ honTrue => ?_
  have hready₂ := hready₁.grows honTrue.grows
  refine (hv ctx b.onFalse s₂ (hlive false) hctx hready₂).bind fun elseBlock s₃ honFalse =>
    .pure ?_
  subst he
  exact writesCode_branch false htargets hready.vars hquiet honTrue honFalse

end Visiting

/-- In ascending code, the targets are in reverse order just if the first one is where the branches
come together. -/
theorem ensures_isReversed
    (follow : NodeId)
    (hnextCase : s.nextCase = none)
    (hlive : src.graph.isLive b.onTrue = true)
    (hascends : (src.node id).num ≤ (src.node b.onTrue).num) :
    Ensures (src.isReversed id follow b) s fun reversed s' =>
      reversed = decide (b.onTrue = follow) ∧ Quiet s s' := by
  refine .get_bind ?_
  by_cases h : b.onTrue = follow
  · rw [if_pos (.inl h)]
    exact .pure ⟨by simp [h], .refl s⟩
  · rw [if_neg (by simp [h, hnextCase])]
    refine .modify_bind (.pure ⟨?_, ⟨rfl, rfl, rfl, rfl⟩, rfl, ?_⟩)
    · simp [h, hascends]
    · simp [FlowGraph.hasSlot, FlowGraph.lt_size_of_isLive hlive]

theorem ensures_joinedBranch
    {follow : NodeId}
    (hv : VisitsAll src vars depth visit)
    (hctx : OnlyBranches ctx)
    (hready : Ready src vars depth s)
    (htargets : (src.node id).kind.targets? = some b)
    (hlive : ∀ holds, src.graph.isLive (b.toward holds) = true)
    (hliveFollow : src.graph.isLive follow = true)
    (hascends : (src.node id).num ≤ (src.node b.onTrue).num) :
    Ensures (src.joinedBranch visit ctx id follow b) s
      (WritesCode src vars id (ctx.top .branchEnd) s) := by
  unfold Source.joinedBranch
  refine (ensures_isReversed follow hready.nextCase (hlive true) hascends).bind
    fun reversed s₁ ⟨hr, hquiet⟩ => ?_
  have hsame : SameVars vars s₁.vars := hquiet.vars.trans hready.vars
  cases reversed with
  | true =>
      -- The branch for a true condition is empty: it stands behind the statement.
      obtain rfl : b.onTrue = follow := of_decide_eq_true hr.symm
      simp only [if_true]
      refine (ensures_conditionOf id true).bind fun e s₂ ⟨he, hquiet'⟩ => ?_
      subst he
      have hquiet := hquiet.trans hquiet'
      have hready₂ := hready.grows hquiet.grows
      refine (hv _ b.onFalse s₂ (hlive false) (hctx.push _) hready₂).bind fun block s₃ hinside => ?_
      have hready₃ := hready₂.grows hinside.grows
      rw [if_pos (by simp)]
      refine (hv ctx b.onTrue s₃ hliveFollow hctx hready₃).bind fun rest s₄ hbehind => .pure ?_
      exact (writesCode_branch true htargets hsame hquiet hinside (.behind rfl)).append hbehind
  | false =>
      have hne : b.onTrue ≠ follow := of_decide_eq_false hr.symm
      simp only [Bool.false_eq_true, if_false]
      refine (ensures_conditionOf id false).bind fun e s₂ ⟨he, hquiet'⟩ => ?_
      subst he
      have hquiet := hquiet.trans hquiet'
      have hready₂ := hready.grows hquiet.grows
      refine (hv _ b.onTrue s₂ (hlive true) (hctx.push _) hready₂).bind
        fun thenBlock s₃ honTrue => ?_
      have hready₃ := hready₂.grows honTrue.grows
      by_cases h : follow = b.onFalse
      · subst h
        rw [if_pos (by simp)]
        refine (hv ctx b.onFalse s₃ hliveFollow hctx hready₃).bind fun rest s₄ hbehind => .pure ?_
        exact (writesCode_branch false htargets hsame hquiet honTrue (.behind rfl)).append hbehind
      · rw [if_neg (by simp [h, hne.symm])]
        refine (hv _ b.onFalse s₃ (hlive false) (hctx.push _) hready₃).bind
          fun elseBlock s₄ honFalse => ?_
        have hready₄ := hready₃.grows honFalse.grows
        refine (hv ctx follow s₄ hliveFollow hctx hready₄).bind fun rest s₅ hbehind => .pure ?_
        exact (writesCode_branch false htargets hsame hquiet honTrue honFalse).append hbehind

theorem ensures_writeBranch
    (hv : VisitsAll src vars depth visit)
    (hctx : OnlyBranches ctx)
    (hready : Ready src vars depth s)
    (htargets : (src.node id).kind.targets? = some b)
    (hlive : ∀ holds, src.graph.isLive (b.toward holds) = true)
    (hliveFollow : ∀ n ∈ (src.node id).ifFollow, src.graph.isLive n = true)
    (hascends : (src.node id).num ≤ (src.node b.onTrue).num) :
    Ensures (src.writeBranch visit ctx id b) s
      (WritesCode src vars id (ctx.top .branchEnd) s) := by
  unfold Source.writeBranch
  dsimp only
  split
  · next hsingle => exact ensures_pass hv hctx hready htargets hsingle (hlive true)
  · have hnotEnd (n : NodeId) : some n ≠ ctx.top .loopEnd := by simp [hctx .loopEnd]
    rw [if_neg (hnotEnd _), if_neg (hnotEnd _), hctx.continuesLoop, hctx.continuesLoop]
    simp only [Bool.false_eq_true, if_false]
    split
    · next follow h =>
        exact ensures_joinedBranch hv hctx hready htargets hlive (hliveFollow follow h) hascends
    · exact ensures_openBranch hv hctx hready htargets hlive

/-- What is written for a node whose code stands here. -/
theorem ensures_writeKind
    (hshape : src.graph.Shape id)
    (hv : VisitsAll src vars depth visit)
    (hctx : OnlyBranches ctx)
    (hsame : SameVars vars s.vars)
    (hready : (src.node id).kind.isExit = false → Ready src vars depth s)
    (hascends : ∀ b, (src.node id).kind.targets? = some b →
      (src.node id).num ≤ (src.node b.onTrue).num) :
    Ensures (src.writeKind visit id (src.node id).kind ctx) s
      (WritesCode src vars id (ctx.top .branchEnd) s) := by
  cases hshape with
  | straight hkind hsuccs hlive =>
      change (src.node id).kind = _ at hkind
      rw [hkind] at hready ⊢
      exact ensures_writeStraight hv hctx (hready rfl) hkind hsuccs hlive
  | @branch b hkind htargets hlive hfollow =>
      change (src.node id).kind.isLoop = false at hkind
      change (src.node id).kind.targets? = some b at htargets
      have htwoWay :
          src.writeKind visit id (src.node id).kind ctx = src.writeBranch visit ctx id b := by
        have hcond : src.writeCond visit ctx id = src.writeBranch visit ctx id b := by
          simp only [Source.writeCond, htargets]
        cases h : (src.node id).kind <;>
          simp [h, NodeKind.isLoop, NodeKind.targets?] at hkind htargets <;> exact hcond
      have hstays : (src.node id).kind.isExit = false := by
        cases h : (src.node id).kind <;>
          simp [h, NodeKind.isLoop, NodeKind.targets?] at hkind htargets <;> rfl
      rw [htwoWay]
      exact ensures_writeBranch hv hctx (hready hstays) htargets hlive hfollow (hascends b htargets)
  | leave hkind =>
      have hown :
          src.writeKind visit id (src.node id).kind ctx = src.instructions (src.node id).ins := by
        change (src.node id).kind = _ ∨ (src.node id).kind = _ at hkind
        rcases hkind with hkind | hkind <;> rw [hkind] <;> rfl
      rw [hown]
      refine (ensures_instructions hsame _).mono fun block s₁ h => ?_
      obtain ⟨hspells, hquiet⟩ := h
      exact
        { toPiece := .of_quiet hquiet fun _ _ _ => hspells.not_behind
          code := fun _ _ _ => .leave (FlowGraph.isExit_of_leave hkind) hspells
          next := fun _ hleads => absurd hleads (FlowGraph.not_leads_of_leave hkind) }

end Writing

/-- What a walk writes in code without loops. -/
theorem walk_visits
    (h : src.graph.Acyclic)
    (hascending : Ascending src.graph)
    (depth : Nat) :
    VisitsAll src vars depth (src.walk depth) := by
  induction depth with
  | zero => exact fun _ _ s _ _ hready => absurd hready.room (Nat.not_lt_zero _)
  | succ depth ih =>
      intro ctx id s hlive hctx hready
      change Ensures (src.enterNode (src.walk depth) ctx id) s _
      unfold Source.enterNode
      rw [hctx.continuesLoop]
      simp only [Bool.false_eq_true, if_false]
      split
      · next hbehind => exact .pure (.behind ((hctx.isWrittenBehind id).1 hbehind))
      have hslot : { s with dangling := s.dangling || !src.graph.hasSlot id } = s := by
        simp [FlowGraph.hasSlot, FlowGraph.lt_size_of_isLive hlive]
      refine .modify_bind (.get_bind ?_)
      rw [hslot]
      split
      · next hagain =>
          refine .modify_bind (.pure (.jump ?_))
          simpa using (Bool.and_eq_true_iff.1 hagain).2
      · next hfirst =>
          unfold Source.writeNode
          refine .modify_bind ((ensures_declareVars _).bind fun declared s₁ ⟨hbare, hquiet⟩ => ?_)
          have hsame : SameVars vars s₁.vars := hquiet.vars.trans hready.vars
          have hroom (hstays : (src.node id).kind.isExit = false) : Ready src vars depth s₁ := by
            have hnew : id ∉ s.visited := by simpa [hstays] using hfirst
            exact (hready.enter hlive hnew).grows hquiet.grows
          refine (ensures_writeKind (h.shape id hlive) ih hctx hsame hroom
            fun b => hascending id b hlive).bind fun block s₂ hwrites => .pure ?_
          exact hwrites.visits hlive hbare hquiet

end Emission
end DalvikDecompiler
