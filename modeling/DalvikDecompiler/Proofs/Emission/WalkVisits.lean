import DalvikDecompiler.Proofs.Emission.Coupling
import DalvikDecompiler.Proofs.Emission.Visits
import DalvikDecompiler.Proofs.Emission.WalkLayout

/-!
# What a walk visits

**Input.** A graph without dangling references in which no exit is the head of a loop.

Each way of writing a node comes to the nodes that its code goes on to, provided that the walks it
starts do so.  A walk that enters a node for the first time has one node less to visit, so the depth
of a walk is never used up.

**Results.**
* `goes_writeKind`: the code of a node goes on to what `FlowGraph.onward` names.
* `goes_walk`: what a walk visits lies on a way from the entry and is gone on from.
* `emit_visits_led`: the nodes that code leads to are visited, and no others than those on a way.
-/

namespace DalvikDecompiler
namespace Emission

open Symbolic (Variables)
open Java (Block)

section Writing

variable {src : Source} {depth : Nat} {visit : Walk} {ctx : Context} {id : NodeId} {s : Progress}

theorem Goes.room
    {targets : List NodeId}
    {s' : Progress}
    (h : Goes src.graph ctx targets s s')
    (hroom : (unvisited src s).card < depth) :
    (unvisited src s').card < depth :=
  (card_unvisited_le h.kept).trans_lt hroom

section Visiting

variable (hv : ∀ ctx id s, OnWay src.graph id → (unvisited src s).card < depth →
  Ensures (visit ctx id) s fun _ s' => Goes src.graph ctx [id] s s')
include hv

/-- What follows a statement. -/
theorem goes_writeNext
    (hroom : (unvisited src s).card < depth)
    {follow : Option NodeId}
    (honWay : ∀ t, follow = some t → OnWay src.graph t) :
    Ensures (Source.writeNext visit ctx follow) s fun _ s' =>
      Goes src.graph ctx follow.toList s s' := by
  cases follow with
  | none => exact (SameCourse.refl s).goes _ ctx
  | some next => exact hv ctx next s (honWay next rfl) hroom

theorem goes_writeStraight
    (hroom : (unvisited src s).card < depth)
    (honWay : OnWay src.graph id)
    (hkind : (src.node id).kind.base = .statement) :
    Ensures (src.writeStraight visit ctx id) s fun _ s' =>
      Goes src.graph ctx (src.graph.onwardAs id .statement) s s' := by
  refine (steady_instructions src _).bind_ensures fun own s₁ hcalm => ?_
  have hbefore := hcalm.goes src.graph ctx
  unfold FlowGraph.onwardAs
  match hsuccs : src.graph.succs id with
  | [] => exact .pure hbefore
  | _ :: _ :: _ => exact .pure hbefore
  | [next] =>
      dsimp only
      split
      · next hleaves =>
          exact .pure (hbefore.mono
            (List.forall_mem_singleton.2 (.inr (.inl ⟨.loopEnd, hleaves.symm⟩))))
      refine .get_bind ?_
      split
      · next hfalls =>
          have hfalls : s.nextCase = some next := (hcalm.nextCase ▸ hfalls).symm
          exact .modify_bind <| .pure (.still hcalm.visited hcalm.nextCase
            (List.forall_mem_singleton.2 (.inr (.inr (.inl hfalls)))))
      · have hreached : OnWay src.graph next := honWay.tail (.goesOn (.straight hkind hsuccs))
        exact (hv ctx next s₁ hreached (hbefore.room hroom)).bind fun rest s₂ hafter =>
          .pure (hbefore.trans hafter)

section Branching

variable {b : BranchTargets} (honWay : OnWay src.graph id)
variable (htargets : (src.node id).kind.targets? = some b)
include honWay htargets

omit hv in
theorem OnWay.toward
    (holds : Bool) :
    OnWay src.graph (b.toward holds) := by
  cases holds
  · exact honWay.tail (.goesOn (.branch htargets (.inr rfl)))
  · exact honWay.tail (.goesOn (.branch htargets (.inl rfl)))

/-- A target is written behind the condition. -/
theorem goes_tested
    (hroom : (unvisited src s).card < depth)
    (negate holds : Bool)
    {f : Java.Expression → Block → Block} :
    Ensures (do
        let condition ← src.conditionOf id negate
        let rest ← visit ctx (b.toward holds)
        return f condition rest) s
      fun _ s' => Goes src.graph ctx [b.toward holds] s s' := by
  refine (steady_conditionOf src id negate).bind_ensures fun condition s₁ hcalm => ?_
  have hbefore := hcalm.goes src.graph ctx
  exact (hv ctx _ s₁ (OnWay.toward honWay htargets holds) (hbefore.room hroom)).bind
    fun rest s₂ hafter => .pure (hbefore.trans hafter)

/-- One target is written, and the other one comes later. -/
theorem goes_target
    (hroom : (unvisited src s).card < depth)
    (holds : Bool)
    {f : Java.Expression → Block → Block}
    (hother : Postponed src.graph ctx s.nextCase (b.toward !holds)) :
    Ensures (do
        let condition ← src.conditionOf id holds
        let rest ← visit ctx (b.toward holds)
        return f condition rest) s
      fun _ s' => Goes src.graph ctx (src.graph.branchOnward id b) s s' := by
  refine (goes_tested hv honWay htargets hroom holds holds).mono fun _ s' hwritten => ?_
  refine hwritten.mono fun t hmem => ?_
  rcases mem_branchOnward hmem holds with rfl | rfl
  · exact .inl (List.mem_singleton_self _)
  · exact .inr hother

theorem goes_joinedBranch
    (hroom : (unvisited src s).card < depth)
    {follow : NodeId}
    (hifFollow : (src.node id).ifFollow = some follow) :
    Ensures (src.joinedBranch visit ctx id follow b) s fun _ s' =>
      Goes src.graph ctx (src.graph.branchOnward id b) s s' := by
  refine (ensures_reversed id follow b).bind fun reversed s₀ ⟨horder, _, hcalm₀⟩ => ?_
  have horder_eq : (if reversed = true then (b.onFalse, b.onTrue) else (b.onTrue, b.onFalse)) =
      (b.toward !reversed, b.toward reversed) := by
    cases reversed <;> rfl
  rw [horder_eq]
  refine (steady_conditionOf src id reversed).bind_ensures fun condition s₁ hcalm₁ => ?_
  have hbefore := (hcalm₀.toSameCourse.trans hcalm₁).goes src.graph
    (ctx.push .branchEnd (some follow))
  refine (hv _ _ s₁ (OnWay.toward honWay htargets _) (hbefore.room hroom)).bind
    fun thenBlock s₂ hfirst => ?_
  have hinside := hbefore.trans hfirst
  have hjoin : OnWay src.graph follow := honWay.tail (.goesOn (.join htargets hifFollow))
  have hadds (s : Progress) : Adds ctx (ctx.push .branchEnd (some follow))
      fun t => t ∈ [follow] ∨ t ∈ s.visited :=
    (Adds.refl ctx _).push _ fun t hsame => .inl (List.mem_singleton.2 (Option.some.inj hsame).symm)
  dsimp only
  split
  · next hmeets =>
      refine (hv ctx follow s₂ hjoin (hinside.room hroom)).bind fun rest s₃ hafter => .pure ?_
      exact (hinside.leave hafter (hadds _)).mono fun _ => comes_of_meets hifFollow horder hmeets
  · refine (hv _ _ s₂ (OnWay.toward honWay htargets _) (hinside.room hroom)).bind
      fun elseBlock s₃ hsecond => ?_
    have hinside := hinside.trans hsecond
    refine (hv ctx follow s₃ hjoin (hinside.room hroom)).bind fun rest s₄ hafter => .pure ?_
    refine (hinside.leave hafter (hadds _)).mono fun t hmem => ?_
    rcases mem_branchOnward hmem reversed with rfl | rfl <;> simp

theorem goes_openBranch
    (hroom : (unvisited src s).card < depth) :
    Ensures (src.openBranch visit ctx id b) s fun _ s' =>
      Goes src.graph ctx (src.graph.branchOnward id b) s s' := by
  refine (steady_conditionOf src id false).bind_ensures fun condition s₁ hcalm => ?_
  have hbefore := hcalm.goes src.graph ctx
  refine (hv ctx _ s₁ (OnWay.toward honWay htargets true) (hbefore.room hroom)).bind
    fun thenBlock s₂ hfirst => ?_
  have hboth := hbefore.trans hfirst
  refine (hv ctx _ s₂ (OnWay.toward honWay htargets false) (hboth.room hroom)).bind
    fun elseBlock s₃ hsecond => .pure ?_
  refine (hboth.trans hsecond).mono fun t hmem => ?_
  rcases mem_branchOnward hmem true with rfl | rfl <;> simp

theorem goes_writeBranch
    (hroom : (unvisited src s).card < depth) :
    Ensures (src.writeBranch visit ctx id b) s fun _ s' =>
      Goes src.graph ctx (src.graph.branchOnward id b) s s' := by
  have hpostponed {t : NodeId} (m : Marker) (htop : ctx.top m = some t) :
      Postponed src.graph ctx s.nextCase t := .inl ⟨m, htop⟩
  have hcontinued {t : NodeId} (hcontinues : ctx.continuesLoop t = true) :
      Postponed src.graph ctx s.nextCase t := by
    refine hpostponed .loopStart ?_
    simpa using (Bool.and_eq_true_iff.1 hcontinues).1
  unfold Source.writeBranch
  dsimp only
  split
  · next hsingle =>
      refine (goes_tested hv honWay htargets hroom false true).mono fun _ s' hwritten => ?_
      refine hwritten.sub fun t hmem => ?_
      rcases mem_branchOnward hmem true with rfl | rfl <;> simp [BranchTargets.toward, hsingle]
  split
  · next hleaves =>
      exact goes_target hv honWay htargets hroom true (hpostponed .loopEnd hleaves.symm)
  split
  · next hleaves =>
      exact goes_target hv honWay htargets hroom false (hpostponed .loopEnd hleaves.symm)
  split
  · next hcontinues =>
      exact goes_target hv honWay htargets hroom false (hcontinued hcontinues)
  split
  · next hcontinues =>
      exact goes_target hv honWay htargets hroom true (hcontinued hcontinues)
  split
  · next follow hifFollow => exact goes_joinedBranch hv honWay htargets hroom hifFollow
  · exact goes_openBranch hv honWay htargets hroom

end Branching

section Looping

variable {inner : NodeKind} {type : LoopTest} {head : Context → EmitM Block}
variable {body : List NodeId}
variable (honWay : OnWay src.graph id) (here : id ∈ s.visited)
variable (hkind : Inside (.loop inner type) (src.node id).kind)
include honWay here hkind

omit hv here in
theorem OnWay.loopFollow
    (t : NodeId)
    (hfollow : (src.node id).loopFollow = some t) :
    OnWay src.graph t :=
  honWay.tail (.goesOn (.behindLoop hkind.isLoop hfollow))

theorem goes_preTestLoop
    (hroom : (unvisited src s).card < depth)
    {b : BranchTargets}
    (htargets : inner.targets? = some b) :
    Ensures (do
        let loop ← src.preTestLoop visit ctx id b
        let rest ← Source.writeNext visit ctx (src.node id).loopFollow
        return loop :: rest) s
      fun _ s' => Goes src.graph ctx
        ((if some b.onTrue = (src.node id).loopFollow then b.onFalse else b.onTrue) ::
          (src.node id).loopFollow.toList) s s' := by
  have hbranch : (src.node id).kind.targets? = some b := hkind.targets_eq ▸ htargets
  unfold Source.preTestLoop
  simp only [bind_assoc, beq_iff_eq]
  refine (steady_conditionOf src id _).bind_ensures fun condition s₁ hcalm => ?_
  have hbefore := hcalm.goes src.graph
    ((ctx.push .loopEnd (src.node id).loopFollow).push .loopStart (some id))
  have hstart : OnWay src.graph
      (if some b.onTrue = (src.node id).loopFollow then b.onFalse else b.onTrue) := by
    split
    · exact OnWay.toward honWay hbranch false
    · exact OnWay.toward honWay hbranch true
  refine (hv _ _ s₁ hstart (hbefore.room hroom)).bind fun body s₂ hinside => ?_
  have hinside := hbefore.trans hinside
  simp only [pure_bind]
  refine (goes_writeNext hv (hinside.room hroom) (OnWay.loopFollow honWay hkind)).bind
    fun rest s₃ hafter => .pure ?_
  refine hinside.leave hafter
    (((Adds.refl ctx _).push _ fun t hfollow => ?_).push _ fun t hagain => ?_)
  · exact .inl (Option.mem_toList.2 hfollow)
  · exact .inr (hinside.kept (Option.some.inj hagain ▸ here))

omit hv in
/-- A latch that is a condition is marked as visited at the end of the loop. -/
theorem goes_latchCondition
    (ctx : Context)
    (hlive : src.graph.isLive id = true)
    (htest : type = .postTest) :
    Ensures (src.latchCondition id (src.node id).latch) s fun _ s' =>
      Goes src.graph ctx (src.node id).latch.toList s s' := by
  subst htest
  unfold Source.latchCondition
  split
  · next latch hfound =>
      obtain ⟨hlatched, hcond⟩ := Option.filter_eq_some_iff.1 hfound
      have hbehind : TestedBehind src.graph id latch := ⟨hkind, hlatched, hcond⟩
      have hmarked : latch ∈ s.visited ∨ IsMarked src.graph latch := by
        by_cases hsame : id = latch
        · exact .inl (hsame ▸ here)
        · exact .inr ⟨id, hlive, .inl ⟨hsame, hbehind⟩⟩
      rw [hlatched]
      exact Goes.enter (honWay.tail (.testedBehind hbehind))
        ((steady_conditionOf src latch _ _).goes src.graph ctx) (hmarked.imp_right .inl)
  · next habsent =>
      refine .modify_bind <| .pure <| .still rfl rfl fun t hmem => ?_
      have hlatched := Option.mem_toList.1 hmem
      refine .inr (.inr (.inr ⟨id, inner, hlive, hkind, hlatched, ?_⟩))
      rw [hlatched] at habsent
      exact Bool.eq_false_iff.2 fun hcond => by simp [Source.node, hcond] at habsent

variable (hh : ∀ ctx s, id ∈ s.visited → (unvisited src s).card < depth →
  Ensures (head ctx) s fun _ s' => Goes src.graph ctx body s s')
include hh

theorem goes_postTestLoop
    (hroom : (unvisited src s).card < depth)
    (hlive : src.graph.isLive id = true)
    (htest : type = .postTest) :
    Ensures (do
        let loop ← src.postTestLoop head ctx id
        let rest ← Source.writeNext visit ctx (src.node id).loopFollow
        return loop :: rest) s
      fun _ s' => Goes src.graph ctx (body ++ (src.node id).loopFollow.toList) s s' := by
  have hslot : Steady ((src.node id).latch.forM src.requireSlot) := by
    cases (src.node id).latch with
    | none => exact .pure _
    | some latch => exact steady_requireSlot src latch
  unfold Source.postTestLoop
  simp only [bind_assoc]
  refine hslot.bind_ensures fun _ s₁ hcalm => ?_
  generalize hagain_eq :
    ((src.node id).latch.filter fun l => (src.node l).kind.isCond).getD id = again
  have hagain_mem : again ∈ (src.node id).latch.toList ∨ again = id := by
    cases hfound : (src.node id).latch.filter fun l => (src.node l).kind.isCond with
    | none => exact .inr (by simpa [hfound] using hagain_eq.symm)
    | some latch =>
        obtain rfl : latch = again := by simpa [hfound] using hagain_eq
        exact .inl (Option.mem_toList.2 (Option.filter_eq_some_iff.1 hfound).1)
  have hbefore := hcalm.goes src.graph (((ctx.push .latch (src.node id).latch).push .loopEnd
    (src.node id).loopFollow).push .loopStart (some again))
  refine (hh _ s₁ (hbefore.kept here) (hbefore.room hroom)).bind fun block s₂ hinside => ?_
  have hinside := hbefore.trans hinside
  refine (goes_latchCondition honWay (hinside.kept here) hkind ctx hlive htest).bind
    fun condition s₃ hlatched => ?_
  simp only [pure_bind]
  refine (goes_writeNext hv (hlatched.room (hinside.room hroom))
    (OnWay.loopFollow honWay hkind)).bind fun rest s₄ hafter => .pure ?_
  have hadds : Adds ctx (((ctx.push .latch (src.node id).latch).push .loopEnd
      (src.node id).loopFollow).push .loopStart (some again))
      fun t => t ∈ (src.node id).latch.toList ++ (src.node id).loopFollow.toList ∨
        t ∈ s₂.visited := by
    refine (((Adds.refl ctx _).push _ fun t hlatch => ?_).push _ fun t hfollow => ?_).push _
      fun t hsame => ?_
    · exact .inl (List.mem_append_left _ (Option.mem_toList.2 hlatch))
    · exact .inl (List.mem_append_right _ (Option.mem_toList.2 hfollow))
    · obtain rfl := Option.some.inj hsame
      rcases hagain_mem with hlatch | rfl
      · exact .inl (List.mem_append_left _ hlatch)
      · exact .inr (hinside.kept here)
  exact (hinside.leave (hlatched.trans hafter) hadds).sub (by simp)

theorem goes_endlessLoop
    (hroom : (unvisited src s).card < depth)
    (hfree : type ≠ .postTest) :
    Ensures (do
        let loop ← src.endlessLoop visit head ctx id
        let rest ← Source.writeNext visit ctx (src.node id).loopFollow
        return loop :: rest) s
      fun _ s' => Goes src.graph ctx
        (body ++ (src.node id).latch.toList ++ (src.node id).loopFollow.toList) s s' := by
  unfold Source.endlessLoop
  simp only [bind_assoc]
  refine (hh _ s here hroom).bind fun first s₁ hleading => .get_bind ?_
  have hlatch_onWay (t : NodeId) (hlatch : (src.node id).latch = some t) : OnWay src.graph t :=
    honWay.tail (.goesOn (.latch hkind hfree hlatch))
  refine (goes_writeNext hv (hleading.room hroom) fun t hlatch =>
    hlatch_onWay t (Option.filter_eq_some_iff.1 hlatch).1).bind fun last s₂ htrailing => ?_
  simp only [pure_bind]
  have htrailing : Goes src.graph ((ctx.push .loopEnd (src.node id).loopFollow).push .loopStart
      (some id)) (src.node id).latch.toList s₁ s₂ := by
    refine ⟨{ htrailing.toCovers with comes := fun t hmem => ?_ }, htrailing.nextCase⟩
    by_cases hold : t ∈ s₁.visited
    · exact .inl (htrailing.kept hold)
    · have hlatch := Option.mem_toList.1 hmem
      exact htrailing.comes t (Option.mem_toList.2
        (Option.filter_eq_some_iff.2 ⟨hlatch, by simpa using hold⟩))
  have hinside := hleading.trans htrailing
  refine (steady_mention _).bind_ensures fun _ s₃ hcalm => ?_
  have hbehind := hcalm.goes src.graph ctx
  refine (goes_writeNext hv (hbehind.room (hinside.room hroom))
    (OnWay.loopFollow honWay hkind)).bind
    fun rest s₄ hafter => .pure ?_
  refine hinside.leave (hbehind.trans hafter)
    (((Adds.refl ctx _).push _ fun t hfollow => ?_).push _ fun t hagain => ?_)
  · exact .inl (Option.mem_toList.2 hfollow)
  · exact .inr (hinside.kept (Option.some.inj hagain ▸ here))

theorem goes_writeLoop
    (hroom : (unvisited src s).card < depth)
    (hlive : src.graph.isLive id = true)
    (hbody_eq : body = src.graph.onwardAs id inner) :
    Ensures (src.writeLoop visit head ctx id inner type) s fun _ s' =>
      Goes src.graph ctx (src.graph.onwardAs id (.loop inner type)) s s' := by
  subst hbody_eq
  cases type with
  | postTest => exact goes_postTestLoop hv honWay here hkind hh hroom hlive rfl
  | endless => exact goes_endlessLoop hv honWay here hkind hh hroom nofun
  | preTest =>
      unfold Source.writeLoop FlowGraph.onwardAs
      cases htargets : inner.targets? with
      | some b => exact goes_preTestLoop hv honWay here hkind hroom htargets
      | none => exact goes_endlessLoop hv honWay here hkind hh hroom nofun

end Looping

section Switching

theorem goes_armBody
    (hroom : (unvisited src s).card < depth)
    {target : NodeId}
    (honWay : OnWay src.graph target) :
    Ensures (Source.armBody visit ctx target) s fun _ s' =>
      Covers src.graph (Postponed src.graph ctx s.nextCase) [target] s s' := by
  refine (hv ctx target s honWay hroom).bind fun body s₁ harm => .get_bind (.modify_bind ?_)
  split <;> exact .pure (harm.toCovers.of_visited rfl rfl)

/-- Each target of a switch has been visited before its turn comes, or gets an arm; the one that
comes next is written in the next arm. -/
theorem covers_writeArms
    (cases : SwitchTable)
    (hroom : (unvisited src s).card < depth)
    (targets : List NodeId)
    (honWay : ∀ t ∈ targets, OnWay src.graph t)
    (fallback : Option NodeId) :
    Ensures (Source.writeArms visit ctx cases targets fallback) s fun written s' =>
      Covers src.graph (Postponed src.graph ctx none) targets s s' ∧
        (∀ t, written.2 = some t → fallback = some t) ∧
        ∀ t, fallback = some t →
          written.2 = some t ∨ t ∈ s'.visited ∨ Postponed src.graph ctx none t := by
  induction targets generalizing fallback s with
  | nil => exact ⟨.refl _ _ s, fun _ => id, fun _ => .inl⟩
  | cons target rest ih =>
      obtain ⟨htarget_onWay, hrest_onWay⟩ := List.forall_mem_cons.1 honWay
      refine .get_bind ?_
      split
      · next hvisited =>
          refine (ih hroom hrest_onWay fallback).mono fun written s' ⟨hcovers, hleft⟩ => ⟨?_, hleft⟩
          have hold := hcovers.kept (List.contains_iff_mem.1 hvisited)
          exact { hcovers with comes := List.forall_mem_cons.2 ⟨.inl hold, hcovers.comes⟩ }
      · refine .modify_bind ?_
        refine (goes_armBody hv (s := { s with nextCase := rest.head? }) hroom htarget_onWay).bind
          fun body s₁ harm => ?_
        have hfirst : Covers src.graph (Postponed src.graph ctx rest.head?) [target] s s₁ :=
          harm.of_visited rfl rfl
        refine (ih ((card_unvisited_le hfirst.kept).trans_lt hroom) hrest_onWay _).bind
          fun written s₂ ⟨hcovers, hfrom_fallback, hleft⟩ => .pure ?_
        have hall := hfirst.trans hcovers fun t hlater => by
          obtain haround | hnext | huntested := hlater
          · exact .inr (.inl haround)
          · exact hcovers.comes t (List.mem_of_head? hnext)
          · exact .inr (.inr (.inr huntested))
        refine ⟨hall, fun t hsame => ?_, fun t hsame => ?_⟩
        · have hkept := hfrom_fallback t hsame
          split at hkept
          · cases hkept
          · exact hkept
        by_cases here : t = target
        · exact .inr (hall.comes t (by simp [here]))
        · refine hleft t ?_
          rw [if_neg (by simpa [hsame] using here), hsame]

theorem goes_defaultArm
    (hroom : (unvisited src s).card < depth)
    {target : Option NodeId}
    (honWay : ∀ t, target = some t → OnWay src.graph t) :
    Ensures (Source.defaultArm visit ctx target) s fun _ s' =>
      Goes src.graph ctx target.toList s s' := by
  cases target with
  | none => exact (SameCourse.refl s).goes _ ctx
  | some next => exact (hv ctx next s (honWay next rfl) hroom).bind fun body s₁ harm => .pure harm

theorem goes_writeSwitch
    {cases : SwitchTable}
    (hroom : (unvisited src s).card < depth)
    (honWay : OnWay src.graph id)
    (hkind : (src.node id).kind.base = .switch cases) :
    Ensures (src.writeSwitch visit ctx id cases) s fun _ s' =>
      Goes src.graph ctx (src.graph.onwardAs id (.switch cases)) s s' := by
  unfold Source.writeSwitch FlowGraph.onwardAs
  split
  · next hblank =>
      rw [if_pos (show (src.graph.node id).ins = [] from List.getLast?_eq_none_iff.1 hblank)]
      exact .pure ((SameCourse.refl s).goes _ ctx)
  next last hfound =>
  have hcode : (src.graph.node id).ins ≠ [] := by
    intro hblank
    rw [Source.node, hblank] at hfound
    cases hfound
  rw [if_neg hcode]
  refine (steady_instructions src _).bind_ensures fun before s₀ hcalm₀ => ?_
  refine (steady_selectorOf src last).bind_ensures fun selector s₁ hcalm₁ => ?_
  have hcalm := (hcalm₀.trans hcalm₁).goes src.graph ctx
  have harm (t : NodeId) (hmem : t ∈ cases.cases ∨ cases.fallback = some t) : OnWay src.graph t :=
    honWay.tail (.goesOn (.arm hkind hmem))
  refine (covers_writeArms hv cases (hcalm.room hroom) cases.cases
    (fun t hmem => harm t (.inl hmem))
    cases.fallback).bind fun written s₂ hsettled => .modify_bind ?_
  obtain ⟨harms, hfrom_fallback, hleft⟩ := hsettled
  refine (goes_defaultArm hv (s := { s₂ with nextCase := none })
    ((card_unvisited_le harms.kept).trans_lt (hcalm.room hroom)) fun t hkept =>
      harm t (.inr (hfrom_fallback t (Option.filter_eq_some_iff.1 hkept).1))).bind
    fun more s₃ hlast => ?_
  have hinside := harms.arms hleft hlast (by rw [Context.top_push, if_pos rfl])
  have hfollows (t : NodeId) (hfollow : (src.node id).switchFollow = some t) : OnWay src.graph t :=
    honWay.tail (.goesOn (.behindSwitch hkind hfollow))
  refine (goes_writeNext hv (hinside.room (hcalm.room hroom)) hfollows).bind fun rest s₄ hafter =>
    .pure ?_
  refine hcalm.trans (hinside.leave hafter ((Adds.refl ctx _).push _ fun t hfollow => ?_))
  exact .inl (Option.mem_toList.2 hfollow)

end Switching

section Protecting

variable {start : NodeId} {handlers : List NodeId} {follow : Option NodeId}
variable (honWay : OnWay src.graph id)
variable (hkind : (src.node id).kind.base = .tryBlock start handlers follow)
include honWay hkind

/-- Each handler of a region is visited, and its code is written if it is one. -/
theorem goes_writeHandlers
    (hroom : (unvisited src s).card < depth)
    (hlive : src.graph.isLive id = true)
    (waiting : List NodeId)
    (hsub : ∀ h ∈ waiting, h ∈ handlers) :
    Ensures (src.writeHandlers visit ctx waiting) s fun _ s' =>
      Goes src.graph ctx waiting s s' := by
  induction waiting generalizing s with
  | nil => exact (SameCourse.refl s).goes _ ctx
  | cons handler rest ih =>
      obtain ⟨hmem, hsub⟩ := List.forall_mem_cons.1 hsub
      have hcatches : Catches src.graph id handler := ⟨hkind, hmem⟩
      have handler_onWay : OnWay src.graph handler := honWay.tail (.catches hcatches)
      refine .modify_bind ?_
      have hroom : (unvisited src { s with visited := OrderedSet.insert s.visited handler }).card <
          depth :=
        (card_unvisited_le fun n hmem => OrderedSet.mem_insert.2 (.inl hmem)).trans_lt hroom
      split
      · next first binding type hcatchKind =>
          have hbase : (src.graph.node handler).kind.base = .catchBlock first binding type :=
            congrArg NodeKind.base hcatchKind
          have hfirst_onWay : OnWay src.graph first := handler_onWay.tail (.goesOn (.handler hbase))
          refine (steady_catchDeclaration binding type).bind_ensures fun decl s₁ hcalm => ?_
          have hbefore := hcalm.goes src.graph ctx
          refine (hv ctx first s₁ hfirst_onWay (hbefore.room hroom)).bind fun body s₂ hcode => ?_
          have hcode := hbefore.trans hcode
          refine (ih (hcode.room hroom) hsub).bind fun more s₃ hothers => .pure ?_
          have honward : src.graph.onward handler = [first] :=
            congrArg (src.graph.onwardAs handler) hcatchKind
          have hentered := Goes.enter handler_onWay (hcode.trans hothers)
            (.inr (.inr (by simp [honward])))
          exact hentered.sub (by simp)
      · next hnoCatch =>
          refine (ih hroom hsub).mono fun clauses s₁ hothers => ?_
          refine Goes.enter handler_onWay hothers (.inr (.inl ⟨id, hlive, .inr ⟨hcatches, ?_⟩⟩))
          cases hfound : (src.graph.node handler).kind with
          | catchBlock first binding type => exact absurd hfound (hnoCatch first binding type)
          | _ => rfl

theorem goes_writeRegion
    (hroom : (unvisited src s).card < depth)
    (hlive : src.graph.isLive id = true) :
    Ensures (src.writeRegion visit ctx start handlers follow) s fun _ s' =>
      Goes src.graph ctx (src.graph.onwardAs id (.tryBlock start handlers follow)) s s' := by
  unfold Source.writeRegion
  refine (hv _ start s (honWay.tail (.goesOn (.region hkind (.inl rfl)))) hroom).bind
    fun body s₁ hcode => ?_
  refine (goes_writeHandlers hv honWay hkind (hcode.room hroom) hlive handlers
    fun _ hmem => hmem).bind
    fun clauses s₂ hcaught => ?_
  have hinside := hcode.trans hcaught
  refine (goes_writeNext hv (hinside.room hroom) fun t hsame =>
    honWay.tail (.goesOn (.region hkind (.inr hsame)))).bind fun rest s₃ hafter => .pure ?_
  refine hinside.leave hafter ((Adds.refl ctx _).push _ fun t hsame => ?_)
  exact .inl (Option.mem_toList.2 hsame)

end Protecting

theorem goes_writeKind
    (kind : NodeKind)
    (hinside : Inside kind (src.node id).kind)
    (ctx : Context)
    (s : Progress)
    (honWay : OnWay src.graph id)
    (hlive : src.graph.isLive id = true)
    (here : id ∈ s.visited)
    (hroom : (unvisited src s).card < depth) :
    Ensures (src.writeKind visit id kind ctx) s fun _ s' =>
      Goes src.graph ctx (src.graph.onwardAs id kind) s s' := by
  have hbranch {kind : NodeKind} {b : BranchTargets} {ctx : Context} {s : Progress}
      (hinside : Inside kind (src.node id).kind) (htargets : kind.targets? = some b)
      (hroom : (unvisited src s).card < depth) :
      Ensures (src.writeCond visit ctx id) s fun _ s' =>
        Goes src.graph ctx (src.graph.branchOnward id b) s s' := by
    have htargets : (src.node id).kind.targets? = some b := by rw [← hinside.targets_eq, htargets]
    unfold Source.writeCond
    rw [htargets]
    exact goes_writeBranch hv honWay htargets hroom
  induction kind generalizing ctx s with
  | loop inner type ih =>
      exact goes_writeLoop hv honWay here hinside (fun ctx s here hroom =>
        ih hinside.loop ctx s here hroom) hroom hlive rfl
  | statement => exact goes_writeStraight hv hroom honWay hinside.base_eq.symm
  | ret => exact (steady_instructions src _ s).goes src.graph ctx
  | throw => exact (steady_instructions src _ s).goes src.graph ctx
  | conditional b => exact hbranch hinside rfl hroom
  | shortCircuit sc => exact hbranch hinside rfl hroom
  | switch cases => exact goes_writeSwitch hv hroom honWay hinside.base_eq.symm
  | tryBlock start handlers follow =>
      exact goes_writeRegion hv honWay hinside.base_eq.symm hroom hlive
  | catchBlock start binding type =>
      exact hv ctx start s (honWay.tail (.goesOn (.handler hinside.base_eq.symm))) hroom

/-- A node that no statement around gives a meaning is visited. -/
theorem goes_enterNode
    (hintact : src.graph.SelfContained)
    (hexits : ExitsEnd src.graph)
    (honWay : OnWay src.graph id)
    (hroom : (unvisited src s).card < depth + 1) :
    Ensures (src.enterNode visit ctx id) s fun _ s' =>
      Goes src.graph ctx [id] s s' ∧ ((∀ m, ctx.top m ≠ some id) → id ∈ s'.visited) := by
  have hlive := honWay.isLive hintact
  have hpostponed {m : Marker} (htop : ctx.top m = some id) : Goes src.graph ctx [id] s s ∧
      ((∀ m, ctx.top m ≠ some id) → id ∈ s.visited) :=
    ⟨.still rfl rfl (List.forall_mem_singleton.2 (.inr (.inl ⟨m, htop⟩))), fun hfree =>
      absurd htop (hfree m)⟩
  unfold Source.enterNode
  split
  · next hcontinues =>
      exact .pure (hpostponed (eq_of_beq (Bool.and_eq_true_iff.1 hcontinues).1))
  split
  · next hbehind =>
      obtain ⟨m, -, htop⟩ := List.any_eq_true.1 hbehind
      exact .pure (hpostponed (eq_of_beq htop))
  refine (steady_requireSlot src id).bind_ensures fun _ s₀ hcalm₀ => .get_bind ?_
  have hbefore := hcalm₀.goes src.graph ctx
  split
  · next hagain =>
      have hold : id ∈ s₀.visited := List.contains_iff_mem.1 (Bool.and_eq_true_iff.1 hagain).2
      exact .modify_bind <| .pure ⟨.still hcalm₀.visited hcalm₀.nextCase
        (List.forall_mem_singleton.2 (.inl (hcalm₀.visited ▸ hold))), fun _ => hold⟩
  next hfirst =>
  refine .modify_bind <| (steady_declareVars _).bind_ensures fun declared s₁ hcalm₁ => ?_
  have hcode : Ensures (src.writeKind visit id (src.node id).kind ctx) s₁ fun _ s' =>
      Goes src.graph ctx (src.graph.onward id) s₁ s' := by
    by_cases hexit : (src.node id).kind.isExit = true
    · have hends : src.writeKind visit id (src.node id).kind ctx =
            src.instructions (src.node id).ins ∧ src.graph.onward id = [] := by
        unfold FlowGraph.onward
        rcases leaves_of_isExit hexit (hexits id hexit) with hkind | hkind <;>
          rw [Source.node] at hkind <;> rw [Source.node, hkind] <;> exact ⟨rfl, rfl⟩
      rw [hends.1, hends.2]
      exact (steady_instructions src _ s₁).goes src.graph ctx
    · have hnew : id ∉ s₀.visited := by simpa [hexit] using hfirst
      have hsmaller := card_unvisited_lt (FlowGraph.lt_size_of_isLive hlive) hnew
      refine goes_writeKind hv _ (.refl _) ctx s₁ honWay hlive ?_ ?_
      · rw [hcalm₁.visited]
        exact OrderedSet.mem_insert.2 (.inr rfl)
      · have hsame : (unvisited src s₁).card =
            (unvisited src { s₀ with visited := OrderedSet.insert s₀.visited id }).card := by
          unfold unvisited
          rw [hcalm₁.visited]
        have := hbefore.room hroom
        omega
  refine hcode.bind fun block s₂ honward => .pure ?_
  have hentered := Goes.enter honWay ((hcalm₁.goes src.graph ctx).trans honward)
    (.inr (.inr (List.Subset.refl _)))
  refine ⟨(hbefore.trans hentered).sub (by simp), fun _ => ?_⟩
  exact honward.kept (hcalm₁.visited ▸ OrderedSet.mem_insert.2 (.inr rfl))

end Visiting

/-- **A walk goes on from all that it visits**, as far as no statement around or next arm does. -/
theorem goes_walk
    (hintact : src.graph.SelfContained)
    (hexits : ExitsEnd src.graph)
    (depth : Nat)
    (ctx : Context)
    (id : NodeId)
    (s : Progress)
    (honWay : OnWay src.graph id)
    (hroom : (unvisited src s).card < depth) :
    Ensures (src.walk depth ctx id) s fun _ s' =>
      Goes src.graph ctx [id] s s' ∧ ((∀ m, ctx.top m ≠ some id) → id ∈ s'.visited) := by
  induction depth generalizing ctx id s with
  | zero => exact absurd hroom (Nat.not_lt_zero _)
  | succ depth ih =>
      have hcoming (ctx : Context) (id : NodeId) (s : Progress) (honWay : OnWay src.graph id)
          (hroom : (unvisited src s).card < depth) :=
        (ih ctx id s honWay hroom).mono fun _ _ => And.left
      exact goes_enterNode hcoming hintact hexits honWay hroom

end Writing

/-- **What code leads to is visited, and what is visited lies on a way from the entry.** -/
theorem emit_visits_led
    {g : FlowGraph}
    (hintact : g.SelfContained)
    (hexits : ExitsEnd g)
    (w : Writing)
    (vars : Variables)
    (naming : Java.Naming) :
    (∀ id, Led g id → id ∈ (emit w g vars naming).visited) ∧
      ∀ id ∈ (emit w g vars naming).visited, OnWay g id := by
  obtain ⟨src, naming', block, s, rfl, rfl, hrun, -, -, hvisited, -⟩ := emit_eq w g vars naming
  rw [hvisited]
  have hwalk : Ensures src.body (.start vars naming') _ :=
    goes_walk hintact hexits _ .outermost src.graph.entry (.start vars naming') .refl
      card_unvisited_lt_depth
  rw [Ensures, hrun] at hwalk
  obtain ⟨hgoes, hentered⟩ := hwalk
  have hnew (n : NodeId) : n ∉ (Progress.start vars naming').visited := List.not_mem_nil
  refine ⟨fun id hled => ?_, fun id hmem => hgoes.onWay id hmem (hnew id)⟩
  induction hled with
  | refl => exact hentered fun m htop => by cases htop
  | @tail n next _ hstep hthere =>
      rcases hgoes.goes n hthere (hnew n) with hmarked | honward
      · exact absurd hmarked hstep.goes
      · rcases honward next hstep.onward with hmem | ⟨m, htop⟩ | hnext | huntested
        · exact hmem
        · cases htop
        · cases hnext
        · exact absurd huntested hstep.tested

end Emission

end DalvikDecompiler
