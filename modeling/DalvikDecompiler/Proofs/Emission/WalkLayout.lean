import DalvikDecompiler.Proofs.Emission.Layout

/-!
# The layout of what a walk writes

Each way of writing a node lays out its code, provided that the nodes it leads to are written so.
The number of nodes that were not visited yet bounds the depth of a walk, as long as no node that
leaves the method starts a loop.

Main statement: `lays_emit`, for graphs of all kinds.
-/

namespace DalvikDecompiler
namespace Emission

open Symbolic (VarId Variables Instr)
open Java (Block Statement)

/-- States in which there is room to write code at a given depth. -/
structure Fits (src : Source) (vars : Variables) (depth : Nat) (s : Progress) : Prop where
  vars : SameVars vars s.vars
  room : ExitsEnd src.graph → (unvisited src s).card < depth

/-- Some code is laid out, wherever it stands. -/
def Laid (src : Source) (vars : Variables) (ctx : Context) (id : NodeId) (part : Part)
    (s : Progress) (block : Block) (s' : Progress) : Prop :=
  (∀ place, Lays src vars (Whole src.graph) place ctx id part s block s') ∧ Advances s s'

/-- The body of an arm is laid out, wherever it stands. -/
def LaidTurn (src : Source) (vars : Variables) (ctx : Context) (turn : Turn) : Prop :=
  ∀ place, Lays src vars (Whole src.graph) place ctx turn.target .node turn.begin turn.body
    turn.finish

section Room

variable {src : Source} {vars : Variables} {depth : Nat} {s s' : Progress}

theorem Fits.advances
    (h : Fits src vars depth s)
    (hadv : Advances s s') :
    Fits src vars depth s' where
  vars := hadv.vars.trans h.vars
  room hends := (card_unvisited_le hadv.visited).trans_lt (h.room hends)

/-- Entering a node that was not visited takes one step of depth and one unvisited node. -/
theorem Fits.enter
    {id : NodeId}
    (h : Fits src vars (depth + 1) s)
    (hslot : id < src.graph.size)
    (hnew : id ∉ s.visited) :
    Fits src vars depth { s with visited := OrderedSet.insert s.visited id } where
  vars := h.vars
  room hends := by
    have hsmaller := card_unvisited_lt hslot hnew
    have := h.room hends
    omega

end Room

section Writing

variable {src : Source} {vars : Variables} {depth : Nat} {visit : Walk}
variable {ctx : Context} {id : NodeId} {s : Progress}

theorem ensures_requireSlot
    (id : NodeId) :
    Ensures (src.requireSlot id) s fun _ s' => Calm s s' :=
  ⟨steady_requireSlot src id s, rfl⟩

theorem ensures_test
    (hfits : Fits src vars depth s)
    (id : NodeId)
    (negate : Bool) :
    Ensures (src.conditionOf id negate) s fun e s' =>
      e = src.test s.vars id negate ∧ Calm s s' ∧ Fits src vars depth s' :=
  (ensures_conditionOf id negate).mono fun _ _ ⟨he, hquiet⟩ =>
    ⟨he, hquiet.calm, hfits.advances hquiet.calm.advances⟩

theorem ensures_reversed
    (id follow : NodeId)
    (b : BranchTargets) :
    Ensures (src.isReversed id follow b) s fun reversed s' =>
      (reversed = true ↔ b.onTrue = follow ∨ some b.onTrue = s.nextCase ∨
        (src.node b.onTrue).num < (src.node id).num) ∧ s'.vars = s.vars ∧ Calm s s' := by
  refine .get_bind ?_
  split
  · next h => exact .pure ⟨by simp [← or_assoc, h], rfl, ⟨.refl s, rfl⟩⟩
  · next h =>
      refine .modify_bind <| .pure ⟨?_, rfl, ⟨rfl, rfl, rfl, rfl⟩, rfl⟩
      rw [decide_eq_true_iff, ← or_assoc, or_iff_right h]

theorem ensures_selectorOf
    (ins : Instr) :
    Ensures (src.selectorOf ins) s fun _ s' => Calm s s' := by
  refine ⟨steady_selectorOf src ins s, ?_⟩
  unfold Source.selectorOf
  cases ins <;> rfl

theorem ensures_catchDeclaration
    (binding : Option VarId)
    (type : Option String) :
    Ensures (Source.catchDeclaration binding type) s fun _ s' => Calm s s' := by
  refine ⟨steady_catchDeclaration binding type s, ?_⟩
  unfold Source.catchDeclaration
  cases binding with
  | none => rfl
  | some v => exact sameVars_markDeclared s.vars v

theorem leaves_of_isExit
    {kind : NodeKind}
    (hexit : kind.isExit = true)
    (hplain : kind.isLoop = false) :
    kind = .ret ∨ kind = .throw := by
  cases kind <;> simp_all [NodeKind.isExit, NodeKind.base, NodeKind.isLoop]

theorem Inside.targets_eq
    {inner outer : NodeKind}
    (h : Inside inner outer) :
    inner.targets? = outer.targets? := by
  induction h with
  | refl => rfl
  | loop _ ih => exact ih

section Visiting

variable (hv : ∀ ctx id s, Fits src vars depth s →
  Ensures (visit ctx id) s (Laid src vars ctx id .node s))
include hv

/-- What follows a statement. -/
theorem ensures_writeNext
    (hfits : Fits src vars depth s)
    (follow : Option NodeId) :
    Ensures (Source.writeNext visit ctx follow) s fun rest s' =>
      (follow = none → rest = [] ∧ s' = s) ∧
        (∀ place next, follow = some next →
          Lays src vars (Whole src.graph) place ctx next .node s rest s') ∧ Advances s s' := by
  cases follow with
  | none => exact ⟨fun _ => ⟨rfl, rfl⟩, fun _ _ h => (Option.some_ne_none _ h.symm).elim, .refl s⟩
  | some next =>
      refine (hv ctx next s hfits).mono fun rest s' hlaid => ?_
      refine ⟨fun h => (Option.some_ne_none _ h).elim, fun place n hn => ?_, hlaid.2⟩
      exact Option.some.inj hn ▸ hlaid.1 place

theorem ensures_layStraight
    (hfits : Fits src vars depth s) :
    Ensures (src.writeStraight visit ctx id) s (Laid src vars ctx id (.kind .statement) s) := by
  refine (ensures_instructions hfits.vars _).bind fun own s₁ ⟨hspells, hquiet⟩ => ?_
  have hcalm := hquiet.calm
  split
  · next next hsuccs =>
      split
      · next hleaves =>
          exact .pure ⟨fun _ => .exit hsuccs hleaves hspells hcalm trivial, hcalm.advances⟩
      next hstays =>
      refine .get_bind ?_
      split
      · next hfalls =>
          have hfalls : some next = s.nextCase := hcalm.nextCase ▸ hfalls
          exact .modify_bind <| .pure ⟨fun _ => .through hsuccs hstays hfalls hspells hcalm trivial,
            { hcalm.advances with }⟩
      · next hfalls =>
          have hfalls : some next ≠ s.nextCase := hcalm.nextCase ▸ hfalls
          refine (hv ctx next s₁ (hfits.advances hcalm.advances)).bind fun rest s₂ hlaid => .pure ?_
          exact ⟨fun place => .straight hsuccs hstays hfalls hspells hcalm (hlaid.1 place),
            hcalm.advances.trans hlaid.2⟩
  · next hstuck =>
      exact .pure ⟨fun _ => .stuck (fun next h => hstuck next h) hspells hcalm, hcalm.advances⟩

section Branching

variable {kind : NodeKind} {b : BranchTargets}

theorem ensures_layBreaking
    (hfits : Fits src vars depth s)
    (negate : Bool)
    (hsplits : Splits src.graph id kind b)
    (hleaves : some (b.toward !negate) = ctx.top .loopEnd) :
    Ensures (src.breakingBranch visit ctx id negate (b.toward negate)) s
      (Laid src vars ctx id (.kind kind) s) := by
  refine (ensures_test hfits id negate).bind fun e s₁ ⟨he, hcalm, hfits₁⟩ => ?_
  refine (hv ctx (b.toward negate) s₁ hfits₁).bind fun other s₂ hlaid => .pure ?_
  subst he
  exact ⟨fun place => .breaking negate hsplits hleaves hfits.vars hcalm trivial (hlaid.1 place),
    hcalm.advances.trans hlaid.2⟩

theorem ensures_layContinuing
    (hfits : Fits src vars depth s)
    (negate : Bool)
    (hsplits : Splits src.graph id kind b)
    (hstays : ∀ holds, some (b.toward holds) ≠ ctx.top .loopEnd)
    (hcontinues : ctx.continuesLoop (b.toward !negate) = true) :
    Ensures (src.continuingBranch visit ctx id negate (b.toward negate)) s
      (Laid src vars ctx id (.kind kind) s) := by
  refine (ensures_test hfits id negate).bind fun e s₁ ⟨he, hcalm, hfits₁⟩ => ?_
  refine (hv ctx (b.toward negate) s₁ hfits₁).bind fun rest s₂ hlaid => .pure ?_
  subst he
  exact ⟨fun place =>
    .continuing negate hsplits hstays hcontinues hfits.vars hcalm trivial (hlaid.1 place),
    hcalm.advances.trans hlaid.2⟩

theorem ensures_layJoined
    (hfits : Fits src vars depth s)
    {follow : NodeId}
    (hsplits : Splits src.graph id kind b)
    (hinside : StaysInside ctx b)
    (hifFollow : (src.node id).ifFollow = some follow) :
    Ensures (src.joinedBranch visit ctx id follow b) s (Laid src vars ctx id (.kind kind) s) := by
  refine (ensures_reversed id follow b).bind fun reversed s₀ ⟨horder, hunchanged, hcalm₀⟩ => ?_
  have hfits₀ := hfits.advances hcalm₀.advances
  have htargets : (if reversed = true then (b.onFalse, b.onTrue) else (b.onTrue, b.onFalse)) =
      (b.toward !reversed, b.toward reversed) := by
    cases reversed <;> rfl
  rw [htargets]
  refine (ensures_test hfits₀ id reversed).bind fun e s₁ ⟨he, hcalm₁, hfits₁⟩ => ?_
  rw [hunchanged] at he
  subst he
  have hcalm := hcalm₀.trans hcalm₁
  refine (hv _ _ s₁ hfits₁).bind fun thenBlock s₂ honTrue => ?_
  have hfits₂ := hfits₁.advances honTrue.2
  have hmeets : (follow = b.toward !reversed ∨ follow = b.toward reversed) ↔
      (follow = b.onTrue ∨ follow = b.onFalse) := by
    cases reversed
    · rfl
    · exact or_comm
  dsimp only
  split
  · next h =>
      refine (hv ctx follow s₂ hfits₂).bind fun rest s₃ honward => .pure ?_
      exact ⟨fun place => .half reversed hsplits hinside hifFollow horder (hmeets.1 h)
        hfits.vars hcalm
        (honTrue.1 _) trivial (honward.1 place), (hcalm.advances.trans honTrue.2).trans honward.2⟩
  · next h =>
      refine (hv _ _ s₂ hfits₂).bind fun elseBlock s₃ honFalse => ?_
      refine (hv ctx follow s₃ (hfits₂.advances honFalse.2)).bind fun rest s₄ honward => .pure ?_
      have hapart := not_or.1 (mt hmeets.2 h)
      exact ⟨fun place => .joined reversed hsplits hinside hifFollow horder hapart hfits.vars hcalm
        (honTrue.1 _) (honFalse.1 _) (honward.1 place),
        ((hcalm.advances.trans honTrue.2).trans honFalse.2).trans honward.2⟩

theorem ensures_layOpened
    (hfits : Fits src vars depth s)
    (hsplits : Splits src.graph id kind b)
    (hinside : StaysInside ctx b)
    (hifFollow : (src.node id).ifFollow = none) :
    Ensures (src.openBranch visit ctx id b) s (Laid src vars ctx id (.kind kind) s) := by
  refine (ensures_test hfits id false).bind fun e s₁ ⟨he, hcalm, hfits₁⟩ => ?_
  refine (hv ctx b.onTrue s₁ hfits₁).bind fun thenBlock s₂ honTrue => ?_
  refine (hv ctx b.onFalse s₂ (hfits₁.advances honTrue.2)).bind
    fun elseBlock s₃ honFalse => .pure ?_
  subst he
  exact ⟨fun place => .opened hsplits hinside hifFollow hfits.vars hcalm (honTrue.1 place)
    (honFalse.1 place), (hcalm.advances.trans honTrue.2).trans honFalse.2⟩

theorem ensures_layBranch
    (hfits : Fits src vars depth s)
    (hplain : kind.isLoop = false)
    (hinner : kind.targets? = some b)
    (htargets : (src.node id).kind.targets? = some b) :
    Ensures (src.writeBranch visit ctx id b) s (Laid src vars ctx id (.kind kind) s) := by
  unfold Source.writeBranch
  dsimp only
  split
  · next hsingle =>
      refine (ensures_test hfits id false).bind fun e s₁ ⟨he, hcalm, hfits₁⟩ => ?_
      refine (hv ctx b.onTrue s₁ hfits₁).bind fun rest s₂ honward => .pure ?_
      subst he
      exact ⟨fun place => .pass hplain hinner htargets hsingle hfits.vars hcalm (honward.1 place),
        hcalm.advances.trans honward.2⟩
  next htwo =>
  have hsplits : Splits src.graph id kind b := ⟨hplain, hinner, htargets, htwo⟩
  split
  · next hleaves => exact ensures_layBreaking hv hfits true hsplits hleaves
  next honFalse =>
  split
  · next hleaves => exact ensures_layBreaking hv hfits false hsplits hleaves
  next honTrue =>
  have hstays : ∀ holds, some (b.toward holds) ≠ ctx.top .loopEnd :=
    Bool.forall_bool.2 ⟨honFalse, honTrue⟩
  split
  · next hcontinues => exact ensures_layContinuing hv hfits false hsplits hstays hcontinues
  next honTrue =>
  split
  · next hcontinues => exact ensures_layContinuing hv hfits true hsplits hstays hcontinues
  next honFalse =>
  have hinside : StaysInside ctx b :=
    ⟨hstays, Bool.forall_bool.2 ⟨Bool.eq_false_iff.2 honFalse, Bool.eq_false_iff.2 honTrue⟩⟩
  split
  · next follow hifFollow => exact ensures_layJoined hv hfits hsplits hinside hifFollow
  · next hifFollow => exact ensures_layOpened hv hfits hsplits hinside hifFollow

end Branching

section Looping

variable {inner : NodeKind} {type : LoopTest} {head : Context → EmitM Block}

theorem ensures_layPreTest
    (hfits : Fits src vars depth s)
    {b : BranchTargets}
    (hkind : Inside (.loop inner .preTest) (src.node id).kind)
    (htargets : inner.targets? = some b) :
    Ensures (do
        let loop ← src.preTestLoop visit ctx id b
        let rest ← Source.writeNext visit ctx (src.node id).loopFollow
        return loop :: rest) s
      (Laid src vars ctx id (.kind (.loop inner .preTest)) s) := by
  generalize hnegate : (some b.onTrue == (src.node id).loopFollow) = negate
  have horder : negate = true ↔ some b.onTrue = (src.node id).loopFollow := by simp [← hnegate]
  have hstart : (if negate = true then b.onFalse else b.onTrue) = b.toward !negate := by
    cases negate <;> rfl
  unfold Source.preTestLoop
  simp only [hnegate, hstart, bind_assoc]
  refine (ensures_test hfits id negate).bind fun e s₁ ⟨he, hcalm, hfits₁⟩ => ?_
  refine (hv _ _ s₁ hfits₁).bind fun body s₂ hinside => ?_
  simp only [pure_bind]
  refine (ensures_writeNext hv (hfits₁.advances hinside.2) _).bind
    fun rest s₃ ⟨hnoRest, honward, hadv⟩ => .pure ?_
  subst he
  exact ⟨fun place => .preTest negate hkind htargets rfl horder hfits.vars hcalm
    trivial (hinside.1 _)
    hnoRest (honward place), (hcalm.advances.trans hinside.2).trans hadv⟩

variable (hh : ∀ ctx s, Fits src vars depth s →
  Ensures (head ctx) s (Laid src vars ctx id (.kind inner) s))
include hh

theorem ensures_layPostTest
    (hfits : Fits src vars depth s)
    (hkind : Inside (.loop inner .postTest) (src.node id).kind) :
    Ensures (do
        let loop ← src.postTestLoop head ctx id
        let rest ← Source.writeNext visit ctx (src.node id).loopFollow
        return loop :: rest) s
      (Laid src vars ctx id (.kind (.loop inner .postTest)) s) := by
  have hslot : Ensures ((src.node id).latch.forM src.requireSlot) s fun _ s' => Calm s s' := by
    cases (src.node id).latch with
    | none => exact ⟨.refl s, rfl⟩
    | some latch => exact ensures_requireSlot latch
  unfold Source.postTestLoop
  simp only [bind_assoc]
  refine hslot.bind fun _ s₁ hcalm => ?_
  have hfits₁ := hfits.advances hcalm.advances
  refine (hh _ s₁ hfits₁).bind fun body s₂ hinside => ?_
  have hfits₂ := hfits₁.advances hinside.2
  unfold Source.latchCondition
  split
  · next latch hfound =>
      obtain ⟨hlatched, hcond⟩ := Option.filter_eq_some_iff.1 hfound
      obtain ⟨b, htargets⟩ := Option.isSome_iff_exists.1 hcond
      generalize hnegate :
        ((src.node latch).kind.targets?.any fun b => b.onTrue != id && b.onFalse == id) = negate
      have horder : negate = true ↔ b.onTrue ≠ id ∧ b.onFalse = id := by simp [← hnegate, htargets]
      simp only [bind_assoc]
      refine .modify_bind ?_
      have hfits₃ := hfits₂.advances (.visit s₂ latch)
      refine (ensures_test hfits₃ latch negate).bind fun e s₃ h => ?_
      obtain ⟨he, hcalm', hfits₃⟩ := h
      simp only [pure_bind]
      refine (ensures_writeNext hv hfits₃ _).bind fun rest s₄ h => .pure ?_
      obtain ⟨hnoRest, honward, hadv⟩ := h
      obtain rfl : e = src.test s₂.vars latch negate := he
      have hadvances := (hcalm.advances.trans hinside.2).trans (.visit s₂ latch)
      rw [hfound, hlatched] at hinside
      exact ⟨fun place => .postTest negate hkind hlatched htargets rfl horder hcalm (hinside.1 _)
        hfits₂.vars hcalm' trivial trivial hnoRest (honward place),
        (hadvances.trans hcalm'.advances).trans hadv⟩
  · next habsent =>
      have huntested : ∀ latch, (src.node id).latch = some latch →
          (src.node latch).kind.targets? = none := by
        intro latch hlatched
        simpa [hlatched, NodeKind.isCond] using habsent
      simp only [bind_assoc, pure_bind]
      refine .modify_bind ?_
      have hcalm' : Calm s₂ { s₂ with naming := s₂.naming.learnAll ["Z"] } :=
        ⟨⟨rfl, rfl, rfl, rfl⟩, rfl⟩
      refine (ensures_writeNext hv (hfits₂.advances hcalm'.advances) _).bind
        fun rest s₄ h => .pure ?_
      obtain ⟨hnoRest, honward, hadv⟩ := h
      rw [habsent] at hinside
      exact ⟨fun place => .untested hkind huntested rfl hcalm (hinside.1 _) hcalm' hnoRest
        (honward place),
        ((hcalm.advances.trans hinside.2).trans hcalm'.advances).trans hadv⟩

theorem ensures_layEndless
    (hfits : Fits src vars depth s)
    (hkind : Inside (.loop inner type) (src.node id).kind)
    (hfree : type = .endless ∨ type = .preTest ∧ inner.targets? = none) :
    Ensures (do
        let loop ← src.endlessLoop visit head ctx id
        let rest ← Source.writeNext visit ctx (src.node id).loopFollow
        return loop :: rest) s
      (Laid src vars ctx id (.kind (.loop inner type)) s) := by
  unfold Source.endlessLoop
  simp only [bind_assoc]
  refine (hh _ s hfits).bind fun first s₁ hleading => ?_
  have hfits₁ := hfits.advances hleading.2
  refine .get_bind ?_
  refine (ensures_writeNext hv hfits₁ _).bind fun last s₂ ⟨hnoLast, htrailing, hadv⟩ => ?_
  simp only [pure_bind]
  refine .modify_bind ?_
  have hcalm : Calm s₂ { s₂ with naming := s₂.naming.learnAll ["Z"] } :=
    ⟨⟨rfl, rfl, rfl, rfl⟩, rfl⟩
  refine (ensures_writeNext hv ((hfits₁.advances hadv).advances hcalm.advances) _).bind
    fun rest s₄ ⟨hnoRest, honward, hadv'⟩ => .pure ?_
  exact ⟨fun place => .endless hkind hfree rfl rfl (hleading.1 _) hnoLast
    (htrailing _) hcalm hnoRest
    (honward place), ((hleading.2.trans hadv).trans hcalm.advances).trans hadv'⟩

theorem ensures_layLoop
    (hfits : Fits src vars depth s)
    (hkind : Inside (.loop inner type) (src.node id).kind) :
    Ensures (src.writeLoop visit head ctx id inner type) s
      (Laid src vars ctx id (.kind (.loop inner type)) s) := by
  cases type with
  | postTest => exact ensures_layPostTest hv hh hfits hkind
  | endless => exact ensures_layEndless hv hh hfits hkind (.inl rfl)
  | preTest =>
      unfold Source.writeLoop
      cases htargets : inner.targets? with
      | some b => exact ensures_layPreTest hv hfits hkind htargets
      | none => exact ensures_layEndless hv hh hfits hkind (.inr ⟨rfl, htargets⟩)

end Looping

section Switching

theorem ensures_layArm
    (hfits : Fits src vars depth s)
    (target : NodeId) :
    Ensures (Source.armBody visit ctx target) s fun code s' =>
      ∃ body finish, Laid src vars ctx target .node s body finish ∧
        s' = { finish with needBreak := true } ∧
        code = body ++ if finish.needBreak && !body.getLast?.any Statement.neverCompletes then
          [plainJump .break] else [] := by
  refine (hv ctx target s hfits).bind fun body finish hlaid => .get_bind (.modify_bind ?_)
  split
  · next hclosed => exact .pure ⟨body, finish, hlaid, rfl, by rw [if_pos hclosed]⟩
  · next hclosed => exact .pure ⟨body, finish, hlaid, rfl, by rw [if_neg hclosed, List.append_nil]⟩

theorem ensures_layArms
    (cases : SwitchTable)
    (hfits : Fits src vars depth s)
    (targets : List NodeId)
    (fallback : Option NodeId) :
    Ensures (Source.writeArms visit ctx cases targets fallback) s fun written s' =>
      ∃ turns, written.1 = turns.map Turn.arm ∧
        Turns cases targets fallback s turns written.2 s' ∧
        (∀ turn ∈ turns, LaidTurn src vars ctx turn) ∧ Advances s s' := by
  induction targets generalizing fallback s with
  | nil => exact ⟨[], rfl, .nil, fun _ h => absurd h List.not_mem_nil, .refl s⟩
  | cons target rest ih =>
      refine .get_bind ?_
      split
      · next hvisited =>
          refine (ih hfits fallback).mono fun written s' ⟨turns, harms, htaken, hlaid, hadv⟩ => ?_
          exact ⟨turns, harms, .skip (List.contains_iff_mem.1 hvisited) htaken, hlaid, hadv⟩
      · next hnew =>
          have hnew : target ∉ s.visited := fun h => hnew (List.contains_iff_mem.2 h)
          refine .modify_bind ?_
          have hstart := Advances.start s rest.head?
          refine (ensures_layArm hv (hfits.advances hstart) target).bind
            fun code s₁ ⟨body, finish, hlaid, hs, hcode⟩ => ?_
          subst hs hcode
          have hadv := (hstart.trans hlaid.2).finish true
          refine (ih (hfits.advances hadv) _).bind
            fun written s' ⟨turns, harms, htaken, hlaidAll, hadv'⟩ => .pure ?_
          refine ⟨.ofKeys _ _ target rest.head? s body finish :: turns, ?_, .write hnew htaken, ?_,
            hadv.trans hadv'⟩
          · rw [harms]
            rfl
          · intro turn hturn
            rcases List.mem_cons.1 hturn with rfl | hturn
            · exact hlaid.1
            · exact hlaidAll turn hturn

theorem ensures_layLastArm
    (hfits : Fits src vars depth s)
    (left follow : Option NodeId) :
    Ensures (do
        modify fun s => { s with nextCase := none }
        Source.defaultArm visit ctx (left.filter fun d => some d != follow)) s fun arms s' =>
      ∃ turns, arms = turns.map Turn.arm ∧ LastTurn follow left s turns s' ∧
        (∀ turn ∈ turns, LaidTurn src vars ctx turn) ∧ Advances s s' := by
  have hstart := Advances.start s none
  refine .modify_bind ?_
  cases hfound : left.filter fun d => some d != follow with
  | none =>
      refine ⟨[], rfl, .skip fun target hleft => ?_, fun _ h => absurd h List.not_mem_nil, hstart⟩
      simpa [hleft] using hfound
  | some target =>
      obtain ⟨rfl, hinside⟩ := Option.filter_eq_some_iff.1 hfound
      refine (hv ctx target _ (hfits.advances hstart)).bind fun body finish hlaid => .pure ?_
      refine ⟨[.ofDefault target s body finish], ?_, .write (by simpa using hinside),
        fun turn hturn => ?_, hstart.trans hlaid.2⟩
      · simp [Turn.ofDefault, Turn.arm]
      · exact List.mem_singleton.1 hturn ▸ hlaid.1

theorem ensures_laySwitch
    (hfits : Fits src vars depth s)
    {cases : SwitchTable}
    (hkind : Inside (.switch cases) (src.node id).kind) :
    Ensures (src.writeSwitch visit ctx id cases) s
      (Laid src vars ctx id (.kind (.switch cases)) s) := by
  unfold Source.writeSwitch
  split
  · next hblank =>
      exact .pure ⟨fun _ => .blank (List.getLast?_eq_none_iff.1 hblank), .refl s⟩
  next ins hlast =>
  have hcode : (src.node id).ins = (src.node id).ins.dropLast ++ [ins] :=
    (List.dropLast_append_getLast? ins hlast).symm
  refine (ensures_instructions hfits.vars _).bind fun before s₀ ⟨hspells, hquiet⟩ => ?_
  refine (ensures_selectorOf ins).bind fun selector s₁ hcalm₁ => ?_
  have hcalm := hquiet.calm.trans hcalm₁
  have hfits₁ := hfits.advances hcalm.advances
  refine (ensures_layArms hv cases hfits₁ cases.cases cases.fallback).bind
    fun written s₂ ⟨turns, harms, htaken, hlaid, hadv⟩ => ?_
  have hfits₂ := hfits₁.advances hadv
  dsimp only
  rw [← bind_assoc]
  refine (ensures_layLastArm hv hfits₂ _ _).bind
    fun lastArm s₃ ⟨more, harms', hlastTaken, hlaid', hadv'⟩ => ?_
  refine (ensures_writeNext hv (hfits₂.advances hadv') _).bind
    fun rest s₄ ⟨hnoRest, honward, hadv''⟩ => .pure ?_
  rw [harms, harms', ← List.map_append]
  refine ⟨fun place => .switch hkind hcode rfl hspells hcalm htaken hlastTaken trivial ?_
    (fun _ _ _ => trivial) hnoRest (honward place),
    ((hcalm.advances.trans hadv).trans hadv').trans hadv''⟩
  intro ahead turn later hsplit
  have hmem : turn ∈ turns ++ more := hsplit ▸ List.mem_append_right _ List.mem_cons_self
  rcases List.mem_append.1 hmem with hmem | hmem
  · exact hlaid turn hmem _
  · exact hlaid' turn hmem _

end Switching

section Protecting

theorem ensures_layHandlers
    (hfits : Fits src vars depth s)
    (handlers : List NodeId) :
    Ensures (src.writeHandlers visit ctx handlers) s fun clauses s' =>
      ∃ catches, clauses = catches.map Catch.clause ∧ Handles src handlers s catches s' ∧
        (∀ c ∈ catches, ∀ place,
          Lays src vars (Whole src.graph) place ctx c.start .node c.begin c.body c.finish) ∧
        Advances s s' := by
  induction handlers generalizing s with
  | nil => exact ⟨[], rfl, .nil, fun _ h => absurd h List.not_mem_nil, .refl s⟩
  | cons id rest ih =>
      refine .modify_bind ?_
      have hfits₁ := hfits.advances (.visit s id)
      split
      · next start binding type hkind =>
          refine (ensures_catchDeclaration binding type).bind fun decl s₁ hcalm => ?_
          have hfits₂ := hfits₁.advances hcalm.advances
          refine (hv ctx start s₁ hfits₂).bind fun body s₂ hlaid => ?_
          refine (ih (hfits₂.advances hlaid.2)).bind
            fun clauses s₃ ⟨catches, hclauses, handles, hlaidAll, hadv⟩ => .pure ?_
          refine ⟨⟨decl, start, s₁, body, s₂⟩ :: catches, by rw [hclauses]; rfl,
            .write hkind hcalm handles, fun c hc => ?_,
            (((Advances.visit s id).trans hcalm.advances).trans hlaid.2).trans hadv⟩
          rcases List.mem_cons.1 hc with rfl | hc
          · exact hlaid.1
          · exact hlaidAll c hc
      · refine (ih hfits₁).mono fun clauses s₃ ⟨catches, hclauses, handles, hlaidAll, hadv⟩ => ?_
        exact ⟨catches, hclauses, .skip handles, hlaidAll, (Advances.visit s id).trans hadv⟩

theorem ensures_layRegion
    (hfits : Fits src vars depth s)
    (start : NodeId)
    (handlers : List NodeId)
    (follow : Option NodeId) :
    Ensures (src.writeRegion visit ctx start handlers follow) s
      (Laid src vars ctx id (.kind (.tryBlock start handlers follow)) s) := by
  refine (hv _ start s hfits).bind fun body s₁ hlaid => ?_
  have hfits₁ := hfits.advances hlaid.2
  refine (ensures_layHandlers hv hfits₁ handlers).bind
    fun clauses s₂ ⟨catches, hclauses, handles, hlaidAll, hadv⟩ => ?_
  refine (ensures_writeNext hv (hfits₁.advances hadv) follow).bind
    fun rest s₃ ⟨hnoRest, honward, hadv'⟩ => .pure ?_
  subst hclauses
  exact ⟨fun place => .region (hlaid.1 _) handles (fun c hc => hlaidAll c hc _) hnoRest
    (honward place), (hlaid.2.trans hadv).trans hadv'⟩

end Protecting

theorem ensures_layKind
    (kind : NodeKind)
    (hinside : Inside kind (src.node id).kind)
    (ctx : Context)
    (s : Progress)
    (hfits : Fits src vars depth s) :
    Ensures (src.writeKind visit id kind ctx) s (Laid src vars ctx id (.kind kind) s) := by
  have hleave {kind : NodeKind} {ctx : Context} {s : Progress} (hfits : Fits src vars depth s)
      (hleaves : kind = .ret ∨ kind = .throw) :
      Ensures (src.instructions (src.node id).ins) s (Laid src vars ctx id (.kind kind) s) :=
    (ensures_instructions hfits.vars _).mono fun own s₁ ⟨hspells, hquiet⟩ =>
      ⟨fun _ => .leave hleaves hspells hquiet.calm, hquiet.calm.advances⟩
  have hbranch {kind : NodeKind} {b : BranchTargets} {ctx : Context} {s : Progress}
      (hfits : Fits src vars depth s) (hinside : Inside kind (src.node id).kind)
      (hplain : kind.isLoop = false) (htargets : kind.targets? = some b) :
      Ensures (src.writeCond visit ctx id) s (Laid src vars ctx id (.kind kind) s) := by
    have htargets' : (src.node id).kind.targets? = some b := by rw [← hinside.targets_eq, htargets]
    unfold Source.writeCond
    rw [htargets']
    exact ensures_layBranch hv hfits hplain htargets htargets'
  induction kind generalizing ctx s with
  | loop inner type ih => exact ensures_layLoop hv (ih hinside.loop) hfits hinside
  | statement => exact ensures_layStraight hv hfits
  | ret => exact hleave hfits (.inl rfl)
  | throw => exact hleave hfits (.inr rfl)
  | conditional b => exact hbranch hfits hinside rfl rfl
  | shortCircuit sc => exact hbranch hfits hinside rfl rfl
  | switch cases => exact ensures_laySwitch hv hfits hinside
  | tryBlock start handlers follow => exact ensures_layRegion hv hfits start handlers follow
  | catchBlock start binding type =>
      exact (hv ctx start s hfits).mono fun _ _ hlaid =>
        ⟨fun place => .handler (hlaid.1 place), hlaid.2⟩

end Visiting

/-- A node without a slot runs nowhere, and an exit that is no loop leaves: neither needs any more
room. -/
theorem ensures_layEnd
    (hsame : SameVars vars s.vars)
    (hends : src.graph.size ≤ id ∨ (src.node id).kind = .ret ∨ (src.node id).kind = .throw) :
    Ensures (src.writeKind visit id (src.node id).kind ctx) s
      (Laid src vars ctx id (.kind (src.node id).kind) s) := by
  have hwritten := @ensures_instructions src vars s hsame (src.node id).ins
  rcases hends with hmissing | hleaves
  · have hkind : (src.node id).kind = .statement := by
      rw [Source.node, FlowGraph.node_of_size_le hmissing]
      rfl
    have hsuccs : src.graph.succs id = [] := by
      simp [FlowGraph.succs, Array.getElem?_eq_none hmissing]
    rw [hkind]
    change Ensures (src.writeStraight visit ctx id) s _
    unfold Source.writeStraight
    rw [hsuccs]
    refine hwritten.bind fun own s₁ h => .pure ?_
    obtain ⟨hspells, hquiet⟩ := h
    exact ⟨fun _ => .stuck (by simp [hsuccs]) hspells hquiet.calm, hquiet.calm.advances⟩
  · have hplain : src.writeKind visit id (src.node id).kind ctx =
        src.instructions (src.node id).ins := by
      rcases hleaves with hleaves | hleaves <;> rw [hleaves] <;> rfl
    rw [hplain]
    refine hwritten.mono fun own s₁ h => ?_
    obtain ⟨hspells, hquiet⟩ := h
    exact ⟨fun _ => .leave hleaves hspells hquiet.calm, hquiet.calm.advances⟩

theorem ensures_layNode
    (hv : ∀ ctx id s, Fits src vars depth s →
      Ensures (visit ctx id) s (Laid src vars ctx id .node s))
    (hfits : Fits src vars (depth + 1) s) :
    Ensures (src.enterNode visit ctx id) s (Laid src vars ctx id .node s) := by
  unfold Source.enterNode
  split
  · next hcontinues => exact .pure ⟨fun _ => .again hcontinues trivial, .refl s⟩
  next hcontinues =>
  have hcontinues := Bool.eq_false_iff.2 hcontinues
  split
  · next hbehind => exact .pure ⟨fun _ => .behind hcontinues hbehind trivial, .refl s⟩
  next hbehind =>
  have hbehind := Bool.eq_false_iff.2 hbehind
  refine (ensures_requireSlot id).bind fun _ s₀ hcalm₀ => .get_bind ?_
  split
  · next hagain =>
      obtain ⟨hstays, hvisited⟩ := Bool.and_eq_true_iff.1 hagain
      have hvisited : id ∈ s.visited := hcalm₀.visited ▸ List.contains_iff_mem.1 hvisited
      refine .modify_bind (.pure ⟨fun _ => .jump hcontinues hbehind (by simpa using hstays) hvisited
        hcalm₀ trivial, ?_⟩)
      exact
        { hcalm₀.advances with
          gotoTargets := fun n hn => OrderedSet.mem_insert.2 (.inl (hcalm₀.gotoTargets ▸ hn)) }
  next hfirst =>
  have hfirst : (src.node id).kind.isExit = true ∨ id ∉ s.visited := by
    rw [← hcalm₀.visited]
    simpa [or_iff_not_imp_left] using hfirst
  unfold Source.writeNode
  refine .modify_bind <| (ensures_declareVars _).bind fun declared s₁ ⟨hbare, hquiet⟩ => ?_
  have hcalm : Calm { s with visited := OrderedSet.insert s.visited id } s₁ :=
    (hcalm₀.visit id).trans hquiet.calm
  have hcode : Ensures (src.writeKind visit id (src.node id).kind ctx) s₁
      (Laid src vars ctx id (.kind (src.node id).kind) s₁) := by
    have hsame : SameVars vars s₁.vars := hcalm.vars.trans hfits.vars
    by_cases hmissing : src.graph.size ≤ id
    · exact ensures_layEnd hsame (.inl hmissing)
    by_cases hleaves : (src.node id).kind = .ret ∨ (src.node id).kind = .throw
    · exact ensures_layEnd hsame (.inr hleaves)
    refine ensures_layKind hv _ (.refl _) ctx s₁ ?_
    rcases hfirst with hexit | hnew
    · exact ⟨hsame, fun hends => absurd (leaves_of_isExit hexit (hends id hexit)) hleaves⟩
    · exact (hfits.enter (not_le.1 hmissing) hnew).advances hcalm.advances
  refine hcode.bind fun block s₂ hlaid => .pure ⟨fun place => ?_,
    ((Advances.visit s id).trans hcalm.advances).trans hlaid.2⟩
  exact .node hcontinues hbehind hfirst hcalm hbare (hlaid.1 place)

/-- The code that a walk writes is laid out, wherever it stands. -/
theorem ensures_layWalk
    (depth : Nat)
    (ctx : Context)
    (id : NodeId)
    (s : Progress)
    (hfits : Fits src vars depth s) :
    Ensures (src.walk depth ctx id) s (Laid src vars ctx id .node s) := by
  induction depth generalizing ctx id s with
  | zero => exact ⟨fun _ => .cut fun hends =>
    absurd (hfits.room hends) (Nat.not_lt_zero _), .refl s⟩
  | succ depth ih => exact ensures_layNode ih hfits

end Writing

/-- The body of a method is laid out, and the labels that its jumps need stand in front of their
nodes, unless these are only marked. -/
theorem lays_emit
    (w : Writing)
    (g : FlowGraph)
    (vars : Variables)
    (naming : Java.Naming) :
    ∃ (src : Source) (naming' : Java.Naming) (body : Block) (s : Progress),
      src.writing = w ∧ src.graph = g ∧ (emit w g vars naming).method.body = some body ∧
        (emit w g vars naming).visited = s.visited ∧ s.gotoTargets = src.labels ∧
        (∀ id ∈ src.labels, InFront src (Java.blockMarks body) id ∨ OnlyMarked g id) ∧
        Lays src vars (Whole g) .outermost .outermost g.entry .node (.start vars naming') body
          s := by
  obtain ⟨src, naming', body, s, rfl, rfl, hrun, hlabels, hbody, hvisited, -⟩ :=
    emit_eq w g vars naming
  have hlaid : Ensures src.body (.start vars naming')
      (Laid src vars .outermost src.graph.entry .node (.start vars naming')) :=
    ensures_layWalk _ _ _ _ ⟨rfl, fun _ => card_unvisited_lt_depth⟩
  rw [Ensures, hrun] at hlaid
  exact ⟨src, naming', body, s, rfl, rfl, hbody, hvisited, hlabels,
    (tracks_body hrun hlabels).inFront hlabels,
    hlaid.1 _⟩

end Emission
end DalvikDecompiler
