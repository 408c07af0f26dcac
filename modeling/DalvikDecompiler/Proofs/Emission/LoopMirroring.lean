import DalvikDecompiler.Proofs.Emission.Mirroring

/-!
# Loops that go along with walks

**Input.** A loop whose body mirrors the node that its turns begin with.

The loop goes along with a walk for as many turns as the walk makes: each turn takes it at least one
step further.  What is true of its turns is true of the rest of a turn as well, which is run where
the body is entered at a label.

Continues at the end of the body of a loop may be dropped.  The body runs off its end instead, which
comes to the same.

**Results.**
* `trimmed_dropFinalContinue`, `Mirrors.trim`: continues that are dropped.
* `Gate.condition`, `Gate.literal`: the tests of loops.
* `Mirrors.whileLoop`, `Mirrors.doLoop`: whole loops.
* `Mirrors.whileTurn`, `Mirrors.doTurn`: loops that are entered inside.
-/

namespace DalvikDecompiler
namespace Emission

open Symbolic (Variables Instr)
open Java (Block Statement Expression Action Run Does doesFrom Outcome Tests WhileTurn DoTurn)

/-- What code does without some continues at its end: it runs off its end instead. -/
structure Trims (run run' : Run) : Prop where
  forth : ∀ events o, run events o → run' events o ∨ o = .continued ∧ run' events .done
  back : ∀ events o, run' events o →
    run events o ∨ (o = .done ∨ o = .cut) ∧ run events .continued

namespace Trims

variable {run run' other other' : Run} {rest rest' : Block}

theorem refl
    (run : Run) :
    Trims run run :=
  ⟨fun _ _ h => .inl h, fun _ _ h => .inl h⟩

theorem none
    (h : ∀ events o, ¬ run events o)
    (h' : ∀ events o, ¬ run' events o) :
    Trims run run' :=
  ⟨fun events o hdoes => absurd hdoes (h events o), fun events o hdoes =>
    absurd hdoes (h' events o)⟩

theorem congr
    (h : Trims run run')
    (hsame : ∀ events o, other events o ↔ run events o)
    (hsame' : ∀ events o, other' events o ↔ run' events o) :
    Trims other other' := by
  constructor
  · intro events o hdoes
    rw [hsame', hsame']
    exact h.forth events o ((hsame events o).1 hdoes)
  · intro events o hdoes
    rw [hsame, hsame]
    exact h.back events o ((hsame' events o).1 hdoes)

theorem or
    (h : Trims run run')
    (h' : Trims other other') :
    Trims (fun events o => run events o ∨ other events o)
      fun events o => run' events o ∨ other' events o := by
  constructor
  · rintro events o (hdoes | hdoes)
    · exact (h.forth events o hdoes).imp .inl (And.imp_right .inl)
    · exact (h'.forth events o hdoes).imp .inr (And.imp_right .inr)
  · rintro events o (hdoes | hdoes)
    · exact (h.back events o hdoes).imp .inl (And.imp_right .inl)
    · exact (h'.back events o hdoes).imp .inr (And.imp_right .inr)

/-- Continues at the end of what stands behind other code. -/
theorem behind
    (h : Trims (Does rest) (Does rest')) :
    Trims (Java.Splits run rest) (Java.Splits run rest') := by
  constructor
  · intro events o hdoes
    cases hdoes with
    | onward hfirst hsecond =>
        rcases h.forth _ _ hsecond with hsame | ⟨rfl, hended⟩
        · exact .inl (.onward hfirst hsame)
        · exact .inr ⟨rfl, .onward hfirst hended⟩
    | ends hstops hfirst => exact .inl (.ends hstops hfirst)
  · intro events o hdoes
    cases hdoes with
    | onward hfirst hsecond =>
        rcases h.back _ _ hsecond with hsame | ⟨hends, hcontinued⟩
        · exact .inl (.onward hfirst hsame)
        · exact .inr ⟨hends, .onward hfirst hcontinued⟩
    | ends hstops hfirst => exact .inl (.ends hstops hfirst)

/-- Continues at the end of a block inside the last statement. -/
theorem last
    (h : Trims run run') :
    Trims (Java.Splits run []) (Java.Splits run' []) := by
  constructor
  · intro events o hdoes
    cases hdoes with
    | onward hfirst hsecond =>
        rcases h.forth _ _ hfirst with hsame | ⟨himpossible, -⟩
        · exact .inl (.onward hsame hsecond)
        · cases himpossible
    | ends hstops hfirst =>
        rcases h.forth _ _ hfirst with hsame | ⟨rfl, hended⟩
        · exact .inl (.ends hstops hsame)
        · exact .inr ⟨rfl, List.append_nil events ▸ .onward hended .nil⟩
  · intro events o hdoes
    cases hdoes with
    | onward hfirst hsecond =>
        rcases h.back _ _ hfirst with hsame | ⟨-, hcontinued⟩
        · exact .inl (.onward hsame hsecond)
        · obtain ⟨rfl, hends⟩ := Java.does_nil_iff.1 hsecond
          rw [List.append_nil]
          exact .inr ⟨hends, .ends (fun h => by cases h) hcontinued⟩
    | ends hstops hfirst =>
        rcases h.back _ _ hfirst with hsame | ⟨hends, hcontinued⟩
        · exact .inl (.ends hstops hsame)
        · exact .inr ⟨hends, .ends (fun h => by cases h) hcontinued⟩

end Trims

/-- A block without some continues at its end, run from its start or from a label. -/
structure Trimmed (block block' : Block) : Prop where
  does : Trims (Does block) (Does block')
  doesFrom : ∀ name, Trims (doesFrom name block) (doesFrom name block')

namespace Trimmed

variable {block block' : Block}

theorem refl
    (block : Block) :
    Trimmed block block :=
  ⟨.refl _, fun _ => .refl _⟩

theorem cons
    (s : Statement)
    (h : Trimmed block block') :
    Trimmed (s :: block) (s :: block') where
  does := by
    have hsplit (rest : Block) (events : List Action) (o : Outcome) :
        Does (s :: rest) events o ↔ Java.Splits (Does [s]) rest events o :=
      @Java.does_append_iff [s] rest events o
    exact (Trims.behind h.does).congr (hsplit block) (hsplit block')
  doesFrom name := (Trims.behind h.does).or (h.doesFrom name)

theorem ifThen
    {c : Expression}
    {elseBlock elseBlock' : Option Block}
    (hthen : Trimmed block block')
    (helse : Trimmed (elseBlock.getD []) (elseBlock'.getD [])) :
    Trimmed [.ifThen c block elseBlock] [.ifThen c block' elseBlock'] where
  does := by
    have hchosen (holds : Bool) : Trims (Does ((if holds then block else elseBlock.getD []) ++ []))
        (Does ((if holds then block' else elseBlock'.getD []) ++ [])) := by
      simp only [List.append_nil]
      cases holds
      · exact helse.does
      · exact hthen.does
    constructor
    · intro events o hdoes
      rcases Java.does_ifThen_iff.1 hdoes with
        ⟨rfl, rfl⟩ | ⟨before, later, holds, rfl, htested, hbehind⟩
      · exact .inl .cut
      · exact ((hchosen holds).forth _ _ hbehind).imp (.ifThen htested) fun h =>
          ⟨h.1, .ifThen htested h.2⟩
    · intro events o hdoes
      rcases Java.does_ifThen_iff.1 hdoes with
        ⟨rfl, rfl⟩ | ⟨before, later, holds, rfl, htested, hbehind⟩
      · exact .inl .cut
      · exact ((hchosen holds).back _ _ hbehind).imp (.ifThen htested) fun h =>
          ⟨h.1, .ifThen htested h.2⟩
  doesFrom name := by
    have hinside := (hthen.doesFrom name).or (helse.doesFrom name)
    simp only [← Java.elseDoesFrom_eq] at hinside
    exact hinside.last.or (.refl _)

end Trimmed

mutual

theorem trimmed_dropFinalContinue :
    ∀ block : List Statement, Trimmed block (dropFinalContinue block)
  | [] => .refl []
  | [s] => by
      rw [dropFinalContinue]
      exact trimmed_dropContinue s
  | s :: t :: rest => by
      rw [dropFinalContinue.eq_3 s (t :: rest) (List.cons_ne_nil t rest)]
      exact (trimmed_dropFinalContinue (t :: rest)).cons s

theorem trimmed_dropContinue :
    ∀ s : Statement, Trimmed [s] (dropContinue s)
  | .jump .continue label => by
      constructor
      case does =>
        constructor
        · intro events o does
          cases does with
          | cut => exact .inl .cut
          | «continue» => exact .inr ⟨rfl, .nil⟩
        · intro events o does
          obtain ⟨rfl, ends⟩ := Java.does_nil_iff.1 does
          exact .inr ⟨ends, .continue⟩
      case doesFrom =>
        refine fun name => .none (fun _ _ => Java.not_doesFrom fun mark hmark => ?_) fun _ _ h => h
        simp [Statement.marks] at hmark
  | .ifThen c thenBlock elseBlock => by
      rw [dropContinue]
      exact .ifThen (trimmed_dropFinalContinue thenBlock) (trimmed_dropElseContinue elseBlock)
  | .jump .break _ => .refl _
  | .jump .goto _ => by simpa [dropContinue] using Trimmed.refl _
  | .block _ => by simpa [dropContinue] using Trimmed.refl _
  | .whileLoop .. => by simpa [dropContinue] using Trimmed.refl _
  | .doLoop .. => by simpa [dropContinue] using Trimmed.refl _
  | .switch .. => by simpa [dropContinue] using Trimmed.refl _
  | .tryCatch .. => by simpa [dropContinue] using Trimmed.refl _
  | .ret _ => .refl _
  | .throw _ => .refl _
  | .expression _ => .refl _
  | .declaration .. => .refl _
  | .label _ => .refl _

theorem trimmed_dropElseContinue :
    ∀ elseBlock : Option (List Statement),
      Trimmed (elseBlock.getD []) ((dropElseContinue elseBlock).getD [])
  | none => by
      rw [dropElseContinue]
      exact .refl []
  | some block => by
      rw [dropElseContinue, getD_unlessEmpty]
      exact trimmed_dropFinalContinue block

end

namespace Mirrors

variable {src : Source} {vars : Variables} {marked : NodeId → Prop} {place : Place}
variable {id : NodeId} {moves : Bool} {run run' : Run}

/-- A continue need not stand where the loop is continued anyway. -/
theorem trim
    (h : Mirrors src vars marked place id moves run)
    (htrims : Trims run run')
    (hsame : place.continues.bind Scope.again = place.next) :
    Mirrors src vars marked place id moves run' := by
  have hdone {m : NodeId} (h : Arrives src marked place .continued m) :
      Arrives src marked place .done m := by
    cases h with
    | continued h => exact .done (hsame ▸ h)
  constructor
  · intro events o hdoes
    rcases htrims.back _ _ hdoes with hsame' | ⟨hends, hcontinued⟩
    · exact h.shows _ _ hsame'
    · obtain ⟨flow, hshown, hfares⟩ := h.shows _ _ hcontinued
      cases hfares with
      | arrives htrip harrives =>
          rcases hends with rfl | rfl
          · exact ⟨flow, hshown, .arrives htrip (hdone harrives)⟩
          · exact .cut htrip hshown
  · intro n walk fate htrip
    cases h.keeps n walk fate htrip with
    | arrives hmoved htrip harrives hdoes hshown honward hsteps hparts =>
        rcases htrims.forth _ _ hdoes with hsame' | ⟨rfl, hended⟩
        · exact .arrives hmoved htrip harrives hsame' hshown honward hsteps hparts
        · exact .arrives hmoved htrip (hdone harrives) hended hshown honward hsteps hparts
    | leaves hdoes hshown =>
        rcases htrims.forth _ _ hdoes with hsame' | ⟨himpossible, -⟩
        · exact .leaves hsame' hshown
        · cases himpossible
    | cut hdoes hshown =>
        rcases htrims.forth _ _ hdoes with hsame' | ⟨himpossible, -⟩
        · exact .cut hsame' hshown
        · cases himpossible

end Mirrors

/-- How far the test of a loop goes along with a walk: to the start of the body, or to the exit of
the loop. -/
inductive Passes (src : Source) (vars : Variables) (c : Expression) (id : NodeId) (moves : Bool)
    (start : NodeId) (exit : Option NodeId) : Nat → List FlowEvent → Option NodeId → Prop
  | waits :
      Passes src vars c id moves start exit 0 [] (some id)
  | enters {k k' n : Nat} {flow flow' walk : List FlowEvent} {fate : Option NodeId}
      {events : List Action}
      (hmoved : moves = true → 0 < k)
      (htrip : src.graph.Trip k id flow (some start))
      (htested : Tests c events true)
      (hshown : Renders src.writing vars flow events)
      (honward : src.graph.Trip k' start flow' fate)
      (hsteps : n = k + k')
      (hparts : walk = flow ++ flow') :
      Passes src vars c id moves start exit n walk fate
  | exits {k k' n : Nat} {m : NodeId} {flow flow' walk : List FlowEvent} {fate : Option NodeId}
      {events : List Action}
      (hmoved : 0 < k)
      (htrip : src.graph.Trip k id flow (some m))
      (hleads : exit = some m)
      (htested : Tests c events false)
      (hshown : Renders src.writing vars flow events)
      (honward : src.graph.Trip k' m flow' fate)
      (hsteps : n = k + k')
      (hparts : walk = flow ++ flow') :
      Passes src vars c id moves start exit n walk fate

/-- The test of a loop goes along with the walks from a node to the start of the body and to the
exit of the loop. -/
structure Gate (src : Source) (vars : Variables) (c : Expression) (id : NodeId) (moves : Bool)
    (start : NodeId) (exit : Option NodeId) : Prop where
  enters : ∀ events, Tests c events true → ∃ k flow,
    Renders src.writing vars flow events ∧ src.graph.Trip k id flow (some start)
  exits : ∀ events, Tests c events false → ∃ k m flow,
    Renders src.writing vars flow events ∧ src.graph.Trip k id flow (some m) ∧ exit = some m
  keeps : ∀ n walk fate, src.graph.Trip n id walk fate →
    Passes src vars c id moves start exit n walk fate

section Tests

variable {src : Source} {vars vars' : Variables} {id : NodeId}

/-- Constants are not known to be truth values. -/
theorem isTrue_operand
    (owner : String)
    {e : Symbolic.Expr}
    (htype : e.knownType vars = some "Z") :
    (expression vars owner e none).isTrue = false := by
  cases e with
  | const c => cases c <;> simp [Symbolic.Expr.knownType] at htype
  | call dispatch method receiver args =>
      simp only [expression, callExpression]
      split
      · split
        · rfl
        · cases receiver <;> rfl
      · rfl
  | _ => rfl

theorem isTrue_condition
    (owner : String)
    (ins : Instr)
    (negate : Bool) :
    (condition vars owner ins negate).isTrue = false := by
  unfold condition
  split
  · rfl
  · rfl
  · unfold zeroTest
    split
    · next htype =>
        split
        · rfl
        · exact isTrue_operand owner htype
        · rfl
    · split <;> rfl
    · rfl
  · rfl

/-- No written condition is the literal `true`. -/
theorem isTrue_test
    (negate : Bool) :
    (src.test vars id negate).isTrue = false := by
  rw [Source.test, Source.conditionWithin]
  split
  · rfl
  · split
    · exact isTrue_condition ..
    · rfl

theorem Gate.condition
    {b : BranchTargets}
    {negate : Bool}
    {exit : Option NodeId}
    (htargets : (src.node id).kind.targets? = some b)
    (htestable : src.graph.Testable id)
    (hsame : SameVars vars vars')
    (hexits : exit = some (b.toward negate)) :
    Gate src vars (src.test vars' id negate) id true (b.toward !negate) exit := by
  have hconveys := conveys_condition htestable hsame negate
  have hsteps {flow : List FlowEvent} {n : Option NodeId} :=
    @FlowGraph.step_branch_iff src.graph id flow n b htargets
  have hdecides {events : List Action} {holds : Bool}
      (htested : Tests (src.test vars' id negate) events holds) : ∃ flow,
        Renders src.writing vars flow events ∧
          src.graph.Trip 1 id flow (some (b.toward (holds != negate))) := by
    cases htested with
    | literal halways => simp [isTrue_test] at halways
    | condition _ hevaluated =>
        obtain ⟨flow, hdecided, hshown⟩ := hconveys.decides _ _ hevaluated
        exact ⟨flow, hshown, (hsteps.2 ⟨_, hdecided, rfl⟩).trip⟩
  constructor
  · intro events htested
    obtain ⟨flow, hshown, htrip⟩ := hdecides htested
    exact ⟨1, flow, hshown, Bool.true_bne negate ▸ htrip⟩
  · intro events htested
    obtain ⟨flow, hshown, htrip⟩ := hdecides htested
    exact ⟨1, _, flow, hshown, Bool.false_bne negate ▸ htrip, hexits⟩
  · intro n walk fate hwalked
    cases hwalked with
    | here => exact .waits
    | leave hlast =>
        obtain ⟨_, _, himpossible⟩ := hsteps.1 hlast
        cases himpossible
    | @step k _ _ _ _ _ hfirst honward =>
        obtain ⟨holds, hdecided, hsame⟩ := hsteps.1 hfirst
        obtain rfl := Option.some.inj hsame
        obtain ⟨events, hevaluated, hshown⟩ := hconveys.evaluates _ _ hdecided
        have htested := Tests.condition (isTrue_test negate) hevaluated
        rcases Bool.eq_or_eq_not holds negate with rfl | rfl
        · rw [bne_self_eq_false] at htested
          exact .exits Nat.one_pos hfirst.trip hexits htested hshown honward (Nat.add_comm k 1) rfl
        · rw [Bool.not_bne_self] at htested
          exact .enters (fun _ => Nat.one_pos) hfirst.trip htested hshown honward
            (Nat.add_comm k 1) rfl

/-- A loop without a condition tests nothing. -/
theorem Gate.literal
    {exit : Option NodeId} :
    Gate src vars (truthLiteral true) id false id exit := by
  have halways : (truthLiteral true).isTrue = true := by cbv
  constructor
  · exact fun events htested => by
      cases htested with
      | literal => exact ⟨0, [], .nil, .here⟩
      | condition hsometimes => simp [halways] at hsometimes
  · intro events htested
    cases htested with
    | condition hsometimes => simp [halways] at hsometimes
  · intro n walk fate hwalked
    exact .enters (fun h => by cases h) .here (.literal halways) .nil hwalked
      (Nat.zero_add n).symm rfl

end Tests

section Turns

variable {src : Source} {vars : Variables} {marked : NodeId → Prop} {place : Place}
variable {head next id : NodeId} {follow : Option NodeId} {events : List Action} {o : Outcome}

/-- A turn that ends and is not the last one has come to the node that the loop goes on with. -/
theorem Arrives.eq_of_repeats
    {m : NodeId}
    (h : Arrives src marked (place.inLoop head next follow next) o m)
    (hrepeats : o.repeats = true) :
    m = next := by
  cases h with
  | done h => exact (Option.some.inj h).symm
  | continued h => exact (Option.some.inj h).symm
  | broke | jumped => cases hrepeats

/-- A turn that breaks has come to what stands behind the loop. -/
theorem Arrives.behind_loop
    {again m : NodeId}
    (h : Arrives src marked (place.inLoop head again follow next) .broke m) :
    Arrives src marked (place.before follow) .done m := by
  cases h with
  | broke h =>
      obtain rfl : follow = some m := h
      exact .done rfl

theorem Shown.exists_trip
    (h : Shown src vars marked (place.inLoop head next follow next) id events o)
    (hrepeats : o.repeats = true) :
    ∃ k flow, Renders src.writing vars flow events ∧ src.graph.Trip k id flow (some next) := by
  obtain ⟨flow, hshown, hfares⟩ := h
  cases hfares with
  | @arrives k _ _ _ htrip harrives =>
    exact ⟨k, flow, hshown, harrives.eq_of_repeats hrepeats ▸ htrip⟩
  | leaves | cut => cases hrepeats

theorem Shown.behind_loop
    {again : NodeId}
    (h : Shown src vars marked (place.inLoop head again follow next) id events .broke)
    (hends : o = .done ∨ o = .cut) :
    Shown src vars marked (place.before follow) id events o := by
  obtain ⟨flow, hshown, hfares⟩ := h
  cases hfares with
  | arrives htrip harrives =>
      rcases hends with rfl | rfl
      · exact ⟨flow, hshown, .arrives htrip harrives.behind_loop⟩
      · exact .cut htrip hshown

theorem Shown.of_escapes
    {place' : Place}
    (h : Shown src vars marked place' id events o)
    (hescapes : o.escapes = true) :
    Shown src vars marked place id events o := by
  obtain ⟨flow, hshown, hfares⟩ := h
  refine ⟨flow, hshown, ?_⟩
  cases hfares with
  | arrives htrip harrives => exact .arrives htrip (harrives.of_escapes hescapes)
  | leaves htrip => exact .leaves htrip
  | cut htrip => exact .cut htrip

/-- How a test comes out at the end of a loop. -/
theorem Shown.exits
    {c : Expression}
    {start : NodeId}
    {moves : Bool}
    (hgate : Gate src vars c id moves start (place.before follow).next)
    (htested : Tests c events false)
    (hends : o = .done ∨ o = .cut) :
    Shown src vars marked (place.before follow) id events o := by
  obtain ⟨_, m, flow, hshown, htrip, hleads⟩ := hgate.exits _ htested
  rcases hends with rfl | rfl
  · exact ⟨flow, hshown, .arrives htrip (.done hleads)⟩
  · exact .cut htrip hshown

variable {run run' : Run} {moves moves' : Bool} {n : Nat} {walk : List FlowEvent}
variable {fate : Option NodeId}

/-- A turn of a loop leaves the loop, or comes to the node that the loop goes on with. -/
theorem Keeps.leaves_or_repeats
    (h : Keeps src vars marked (place.inLoop head next follow next) id run moves n walk fate)
    (hbroke : ∀ events, run events .broke → run' events .done)
    (hescaped : ∀ events o, run events o → o.escapes = true → run' events o) :
    Keeps src vars marked (place.before follow) id run' moves n walk fate ∨
      ∃ k k' flow flow' events o, (moves = true → 0 < k) ∧
        src.graph.Trip k id flow (some next) ∧ run events o ∧ o.repeats = true ∧
        Renders src.writing vars flow events ∧ src.graph.Trip k' next flow' fate ∧
        n = k + k' ∧ walk = flow ++ flow' := by
  cases h with
  | leaves hdoes hshown => exact .inl (.leaves (hescaped _ _ hdoes rfl) hshown)
  | cut hdoes hshown => exact .inl (.cut (hescaped _ _ hdoes rfl) hshown)
  | @arrives k k' _ m flow flow' _ _ o events hmoved htrip harrives hdoes hshown honward
    hsteps hparts =>
      cases o with
      | left | cut => cases harrives
      | jumped =>
          exact .inl (.arrives hmoved htrip (harrives.of_escapes rfl)
            (hescaped _ _ hdoes rfl) hshown
            honward hsteps hparts)
      | broke =>
          exact .inl (.arrives hmoved htrip harrives.behind_loop (hbroke _ hdoes) hshown
            honward hsteps
            hparts)
      | done | continued =>
          obtain rfl := harrives.eq_of_repeats rfl
          exact .inr ⟨k, k', flow, flow', events, _, hmoved, htrip, hdoes, rfl, hshown,
            honward, hsteps,
            hparts⟩

variable {c : Expression} {body : Block}

/-- The rest of a turn goes along with a walk if the loop does so for the steps that are left when
the walk comes to its head. -/
theorem Keeps.whileTurn
    (h : Keeps src vars marked (place.inLoop head head follow head) id run moves n walk fate)
    (hloop : ∀ j flow, src.graph.Trip j id flow (some head) →
      ∀ k walk fate, k ≤ n → (moves = true → k < n) → src.graph.Trip k head walk fate →
        Keeps src vars marked (place.before follow) head (Does [.whileLoop c body]) moves' k walk
          fate) :
    Keeps src vars marked (place.before follow) id (WhileTurn c body run) moves n walk fate := by
  have hbroke (events : List Action) (honce : run events .broke) :
      WhileTurn c body run events .done :=
    .broke honce .nil
  rcases h.leaves_or_repeats hbroke fun _ _ => .escaped with
    hleft | ⟨k, k', flow, flow', events, o, hmoved, htrip, honce, hrepeats, hshown,
      honward, rfl, rfl⟩
  · exact hleft
  · have hlater := hloop k flow htrip k' flow' fate (Nat.le_add_left k' k)
      (fun h => Nat.lt_add_of_pos_left (hmoved h)) honward
    exact .trans htrip hshown (fun h => .inl (hmoved h)) (fun _ _ => .again honce hrepeats) hlater

/-- The same for a loop that is tested behind. -/
theorem Keeps.doTurn
    {start : NodeId}
    {tests : Bool}
    (h : Keeps src vars marked (place.inLoop head next follow next) id run moves n walk fate)
    (hgate : Gate src vars c next tests start (place.before follow).next)
    (hloop : ∀ j flow, src.graph.Trip j id flow (some start) →
      ∀ k walk fate, k ≤ n → (moves = true → k < n) → src.graph.Trip k start walk fate →
        Keeps src vars marked (place.before follow) start (Does [.doLoop c body]) moves' k walk
          fate) :
    Keeps src vars marked (place.before follow) id (DoTurn c body run) moves n walk fate := by
  have hbroke (events : List Action) (honce : run events .broke) :
      DoTurn c body run events .done :=
    .broke honce .nil
  rcases h.leaves_or_repeats hbroke fun _ _ => .escaped with
    hleft | ⟨k, k', flow, flow', events, o, hmoved, htrip, honce, hrepeats, hshown,
      honward, rfl, rfl⟩
  · exact hleft
  cases hgate.keeps _ _ _ honward with
  | waits => exact .cut (.cut honce hrepeats) (by rwa [List.append_nil])
  | exits _ htrip' hleads htested hshown' honward' hsteps hparts =>
      refine .arrives (fun h => Nat.add_pos_left (hmoved h) _) (htrip.trans htrip') (.done hleads)
        (.exit honce hrepeats htested .nil) (hshown.append hshown') honward' ?_ ?_
      · rw [hsteps, Nat.add_assoc]
      · rw [hparts, List.append_assoc]
  | @enters k₁ k₂ _ flow₁ flow₂ _ _ before _ htrip' htested hshown' honward' hsteps hparts =>
      subst hsteps hparts
      have hlater := hloop _ _ (htrip.trans htrip') k₂ flow₂ fate (by omega)
        (fun h => by have := hmoved h; omega) honward'
      rw [← Nat.add_assoc, ← List.append_assoc]
      refine .trans (htrip.trans htrip') (hshown.append hshown')
        (fun h => .inl (Nat.add_pos_left (hmoved h) _)) (fun _ _ h => ?_) hlater
      rw [List.append_assoc]
      exact .again honce hrepeats htested h

end Turns

namespace Mirrors

variable {src : Source} {vars : Variables} {marked : NodeId → Prop} {place : Place}
variable {id next start : NodeId} {follow : Option NodeId} {moves moves' : Bool}
variable {body : Block} {c : Expression} {run : Run}

theorem whileLoop
    (hgate : Gate src vars c id moves start (place.before follow).next)
    (hbody : Mirrors src vars marked (place.inLoop id id follow id) start moves' (Does body))
    (hprogress : moves = true ∨ moves' = true) :
    Mirrors src vars marked (place.before follow) id true (Does [.whileLoop c body]) := by
  constructor
  · intro events o hdoes
    refine hdoes.while_induction
      (motive := fun events o => Shown src vars marked (place.before follow) id events o) .start
      ?exit ?again ?broke ?escaped
    case exit =>
      intro before later o htested hdoes
      obtain ⟨rfl, hends⟩ := Java.does_nil_iff.1 hdoes
      rw [List.append_nil]
      exact .exits hgate htested hends
    case again =>
      intro before events later inner o htested honce hrepeats hshown
      obtain ⟨_, _, hshown₁, htrip⟩ := hgate.enters _ htested
      obtain ⟨_, _, hshown₂, htrip'⟩ := (hbody.shows _ _ honce).exists_trip hrepeats
      exact .trans htrip hshown₁ (.trans htrip' hshown₂ hshown)
    case broke =>
      intro before events later o htested honce hdoes
      obtain ⟨rfl, hends⟩ := Java.does_nil_iff.1 hdoes
      obtain ⟨_, _, hshown, htrip⟩ := hgate.enters _ htested
      rw [List.append_nil]
      exact .trans htrip hshown ((hbody.shows _ _ honce).behind_loop hends)
    case escaped =>
      intro before events o htested honce hescapes
      obtain ⟨_, _, hshown, htrip⟩ := hgate.enters _ htested
      exact .trans htrip hshown ((hbody.shows _ _ honce).of_escapes hescapes)
  · intro n
    -- A turn makes at least one step, with its test or inside the loop.
    induction n using Nat.strong_induction_on with
    | _ n ih =>
        intro walk fate hwalked
        cases hgate.keeps n walk fate hwalked with
        | waits => exact .cut .cut .nil
        | @exits _ _ _ _ _ _ _ _ before hmoved htrip hleads htested hshown honward hsteps hparts =>
            exact .arrives (fun _ => hmoved) htrip (.done hleads)
              (List.append_nil before ▸ .whileFalse htested .nil) hshown honward hsteps hparts
        | @enters k k' _ _ later _ _ _ hmoved htrip htested hshown honward hsteps hparts =>
            subst hsteps hparts
            have hinner := hbody.keeps _ _ _ honward
            have hturn : Keeps src vars marked (place.before follow) start
                (WhileTurn c body (Does body)) moves' k' later fate := by
              refine hinner.whileTurn fun _ _ _ j walk fate hle hlt htrip => ih j ?_ walk fate htrip
              rcases hprogress with h | h
              · have := hmoved h
                omega
              · have := hlt h
                omega
            exact .trans htrip hshown (fun _ => hprogress.imp_left hmoved)
              (fun _ _ h => h.does htested) hturn

theorem whileTurn
    (hrun : Mirrors src vars marked (place.inLoop next next follow next) id moves run)
    (hloop : ∀ k flow, src.graph.Trip k id flow (some next) →
      Mirrors src vars marked (place.before follow) next moves' (Does [.whileLoop c body])) :
    Mirrors src vars marked (place.before follow) id moves (WhileTurn c body run) where
  shows events o hdoes := by
    cases hdoes with
    | again honce hrepeats h =>
        obtain ⟨_, _, hshown, htrip⟩ := (hrun.shows _ _ honce).exists_trip hrepeats
        exact .trans htrip hshown ((hloop _ _ htrip).shows _ _ h)
    | broke honce h => exact (hrun.shows _ _ honce).behind_loop (Java.does_nil_iff.1 h).2
    | escaped honce hescapes => exact (hrun.shows _ _ honce).of_escapes hescapes
  keeps n walk fate htrip := (hrun.keeps n walk fate htrip).whileTurn
    fun j flow htrip k walk fate _ _ => (hloop j flow htrip).keeps k walk fate

theorem doLoop
    (hbody : Mirrors src vars marked (place.inLoop id next follow next) id true (Does body))
    (hgate : Gate src vars c next moves id (place.before follow).next) :
    Mirrors src vars marked (place.before follow) id true (Does [.doLoop c body]) := by
  constructor
  · intro events o hdoes
    refine hdoes.do_induction
      (motive := fun events o => Shown src vars marked (place.before follow) id events o) .start
      ?ended ?exit ?again ?broke ?escaped
    case ended =>
      intro events inner honce hrepeats
      obtain ⟨_, _, hshown, htrip⟩ := (hbody.shows _ _ honce).exists_trip hrepeats
      exact .cut htrip hshown
    case exit =>
      intro events before later inner o honce hrepeats htested hdoes
      obtain ⟨rfl, hends⟩ := Java.does_nil_iff.1 hdoes
      obtain ⟨_, _, hshown, htrip⟩ := (hbody.shows _ _ honce).exists_trip hrepeats
      rw [List.append_nil]
      exact .trans htrip hshown (.exits hgate htested hends)
    case again =>
      intro events before later inner o honce hrepeats htested hshown
      obtain ⟨_, _, hshown₁, htrip⟩ := (hbody.shows _ _ honce).exists_trip hrepeats
      obtain ⟨_, _, hshown₂, htrip'⟩ := hgate.enters _ htested
      exact .trans htrip hshown₁ (.trans htrip' hshown₂ hshown)
    case broke =>
      intro events later o honce hdoes
      obtain ⟨rfl, hends⟩ := Java.does_nil_iff.1 hdoes
      rw [List.append_nil]
      exact (hbody.shows _ _ honce).behind_loop hends
    case escaped => exact fun events o honce => (hbody.shows _ _ honce).of_escapes
  · intro n
    -- A turn makes at least one step inside the loop.
    induction n using Nat.strong_induction_on with
    | _ n ih =>
        intro walk fate hwalked
        have hturn := (hbody.keeps n walk fate hwalked).doTurn hgate
          fun _ _ _ k walk fate _ hlt htrip => ih k (hlt rfl) walk fate htrip
        exact hturn.mono fun _ _ => DoTurn.does

theorem doTurn
    (hrun : Mirrors src vars marked (place.inLoop start next follow next) id moves run)
    (hgate : Gate src vars c next moves' start (place.before follow).next)
    (hloop : ∀ k flow, src.graph.Trip k id flow (some start) →
      Mirrors src vars marked (place.before follow) start true (Does [.doLoop c body])) :
    Mirrors src vars marked (place.before follow) id moves (DoTurn c body run) where
  shows events o hdoes := by
    cases hdoes with
    | cut honce hrepeats =>
        obtain ⟨_, _, hshown, htrip⟩ := (hrun.shows _ _ honce).exists_trip hrepeats
        exact .cut htrip hshown
    | exit honce hrepeats htested h =>
        obtain ⟨_, _, hshown, htrip⟩ := (hrun.shows _ _ honce).exists_trip hrepeats
        exact .trans htrip hshown (.exits hgate htested (Java.does_nil_iff.1 h).2)
    | again honce hrepeats htested h =>
        obtain ⟨_, _, hshown, htrip⟩ := (hrun.shows _ _ honce).exists_trip hrepeats
        obtain ⟨_, _, hshown', htrip'⟩ := hgate.enters _ htested
        exact .trans htrip hshown
          (.trans htrip' hshown' ((hloop _ _ (htrip.trans htrip')).shows _ _ h))
    | broke honce h => exact (hrun.shows _ _ honce).behind_loop (Java.does_nil_iff.1 h).2
    | escaped honce hescapes => exact (hrun.shows _ _ honce).of_escapes hescapes
  keeps n walk fate htrip := (hrun.keeps n walk fate htrip).doTurn hgate
    fun j flow htrip k walk fate _ _ => (hloop j flow htrip).keeps k walk fate

end Mirrors

end Emission
end DalvikDecompiler
