import DalvikDecompiler.Proofs.Emission.Layout

/-!
# Iterations of loops

**Input.** Blocks of statements of all kinds, as bodies of loops.

Each statement does its work or raises an exception, each condition comes out
either way, and each selector has some value; a run says how they did.  A thrown
exception may be caught by any handler around it, or by none.  A loop may be
watched up to one of its tests only, so that code which runs for ever is known by
what it does first.  A jump to a label is not followed.

An iteration of a loop is one run of its body.  It ends in the same way whether the
body runs off its end or continues the loop.

**Results.**
* `performs_cons_iff`, `performs_ifThen_iff`: how sequences and branches are run.
* `performs_whileLoop_congr`, `performs_doLoop_congr`: a loop depends on the
  iterations of its body only.
* `iterations_dropFinalContinue`: a continue at the end of a body can be left out.
-/

namespace DalvikDecompiler
namespace Java

/-- Something that happens while code runs. -/
inductive Happening where
  /-- A statement without parts does its work. -/
  | ran (s : Statement)
  /-- An exception is thrown before it has done so. -/
  | raised (s : Statement)
  | tested (condition : Expression) (holds : Bool)
  | selected (selector : Expression) (value : Int32)
  /-- An exception is thrown by a condition or a selector. -/
  | failed (e : Expression)
  | caught (clause : CatchClause)

/-- How code ends. -/
inductive Ending where
  | done
  | broke
  | continued
  | jumped (label : Option String)
  | returned
  | threw
  /-- It was not watched any further. -/
  | cut
  deriving DecidableEq

namespace Ending

/-- Whether a loop whose body ends like this tests its condition next. -/
def repeats : Ending → Bool
  | .done | .continued => true
  | _ => false

/-- How a loop or a switch ends if its body ends like this: it is what a break leaves. -/
def outside : Ending → Ending
  | .broke => .done
  | e => e

/-- How an iteration ends if the body of the loop ends like this. -/
def ofIteration : Ending → Ending
  | .continued => .done
  | e => e

@[simp] theorem ofIteration_done :
    ofIteration .done = .done :=
  rfl

@[simp] theorem ofIteration_continued :
    ofIteration .continued = .done :=
  rfl

theorem ofIteration_of_not_repeats
    {e : Ending}
    (h : e.repeats = false) :
    e.ofIteration = e := by
  cases e <;> first | rfl | simp [repeats] at h

theorem repeats_ofIteration
    (e : Ending) :
    e.ofIteration.repeats = e.repeats := by
  cases e <;> rfl

end Ending

namespace Statement

/-- How a statement without parts ends once it has done its work. -/
def ending? : Statement → Option Ending
  | .ret _ => some .returned
  | .throw _ => some .threw
  | .expression _ => some .done
  | .declaration .. => some .done
  | .label _ => some .done
  | .jump .break _ => some .broke
  | .jump .continue _ => some .continued
  | .jump .goto target => some (.jumped target)
  | _ => none

/-- The work of a statement without parts; jumps, labels and plain declarations have none. -/
def work : Statement → List Happening
  | .ret value => [.ran (.ret value)]
  | .throw value => [.ran (.throw value)]
  | .expression value => [.ran (.expression value)]
  | .declaration decl (some value) => [.ran (.declaration decl (some value))]
  | _ => []

/-- The expression that a statement with parts evaluates in front of them. -/
def head? : Statement → Option Expression
  | .ifThen condition _ _ => some condition
  | .whileLoop condition _ => some condition
  | .switch selector _ => some selector
  | _ => none

end Statement

/-- The code that a switch runs for a value: the arm with the value as a key, or else the default,
and the arms behind it. -/
def selectedBy (value : Int32) (arms : List SwitchArm) : Block :=
  let keyed := arms.dropWhile fun arm => !arm.keys.contains value
  let entered := if keyed.isEmpty then arms.dropWhile fun arm => !arm.isDefault else keyed
  entered.flatMap SwitchArm.body

/-- What happens when a block is run, and how it ends. -/
inductive Performs : Block → List Happening → Ending → Prop
  | nil :
      Performs [] [] .done
  | next {s t : Statement} {rest : Block} {events later : List Happening} {e : Ending}
      (hfirst : Performs [s] events .done)
      (hsecond : Performs (t :: rest) later e) :
      Performs (s :: t :: rest) (events ++ later) e
  | ends {s t : Statement} {rest : Block} {events : List Happening} {e : Ending}
      (hfirst : Performs [s] events e)
      (hstops : e ≠ .done) :
      Performs (s :: t :: rest) events e
  | works {s : Statement} {e : Ending}
      (h : s.ending? = some e) :
      Performs [s] s.work e
  | raises {s : Statement}
      (h : s.work ≠ []) :
      Performs [s] [.raised s] .threw
  | fails {s : Statement} {c : Expression}
      (h : s.head? = some c) :
      Performs [s] [.failed c] .threw
  | block {body : Block} {events : List Happening} {e : Ending}
      (h : Performs body events e) :
      Performs [.block body] events e
  | ifThen {c : Expression} {thenBlock : Block} {elseBlock : Option Block} {events : List Happening}
      {e : Ending} (holds : Bool)
      (h : Performs (if holds then thenBlock else elseBlock.getD []) events e) :
      Performs [.ifThen c thenBlock elseBlock] (.tested c holds :: events) e
  /-- Watching stops in front of the test. -/
  | whileCut {c : Expression} {body : Block} :
      Performs [.whileLoop c body] [] .cut
  | whileFalse {c : Expression} {body : Block} :
      Performs [.whileLoop c body] [.tested c false] .done
  | whileAgain {c : Expression} {body : Block} {events later : List Happening} {inner e : Ending}
      (honce : Performs body events inner)
      (hrepeats : inner.repeats = true)
      (h : Performs [.whileLoop c body] later e) :
      Performs [.whileLoop c body] (.tested c true :: (events ++ later)) e
  | whileEnds {c : Expression} {body : Block} {events : List Happening} {inner : Ending}
      (honce : Performs body events inner)
      (hstops : inner.repeats = false) :
      Performs [.whileLoop c body] (.tested c true :: events) inner.outside
  /-- Behind its first iteration, the loop goes on like one that is tested in front. -/
  | doAgain {c : Expression} {body : Block} {events later : List Happening} {inner e : Ending}
      (honce : Performs body events inner)
      (hrepeats : inner.repeats = true)
      (h : Performs [.whileLoop c body] later e) :
      Performs [.doLoop c body] (events ++ later) e
  | doEnds {c : Expression} {body : Block} {events : List Happening} {inner : Ending}
      (honce : Performs body events inner)
      (hstops : inner.repeats = false) :
      Performs [.doLoop c body] events inner.outside
  | switch {selector : Expression} {arms : List SwitchArm} {events : List Happening}
      {inner : Ending}
      (value : Int32)
      (h : Performs (selectedBy value arms) events inner) :
      Performs [.switch selector arms] (.selected selector value :: events) inner.outside
  | tryCatch {body : Block} {clauses : List CatchClause} {events : List Happening} {e : Ending}
      (h : Performs body events e) :
      Performs [.tryCatch body clauses] events e
  | caught {body : Block} {clauses : List CatchClause} {clause : CatchClause}
      {events later : List Happening} {e : Ending}
      (hthrown : Performs body events .threw)
      (hmem : clause ∈ clauses)
      (h : Performs clause.body later e) :
      Performs [.tryCatch body clauses] (events ++ .caught clause :: later) e

/-- What happens in one iteration of a loop with a body, and how it ends. -/
def Iterates (body : Block) (events : List Happening) (e : Ending) : Prop :=
  ∃ inner, Performs body events inner ∧ inner.ofIteration = e

section Sequences

variable {s : Statement} {body body' rest : Block} {c : Expression}
  {events : List Happening} {e : Ending}

theorem performs_nil_iff :
    Performs [] events e ↔ events = [] ∧ e = .done := by
  constructor
  · intro h
    cases h
    exact ⟨rfl, rfl⟩
  · rintro ⟨rfl, rfl⟩
    exact .nil

/-- A statement is followed by the code behind it if it runs off its end. -/
theorem performs_cons_iff :
    Performs (s :: rest) events e ↔
      (∃ first later, events = first ++ later ∧ Performs [s] first .done ∧ Performs rest later e) ∨
        (Performs [s] events e ∧ e ≠ .done) := by
  cases rest with
  | nil =>
      constructor
      · intro h
        by_cases hdone : e = .done
        · subst hdone
          exact .inl ⟨events, [], by simp, h, .nil⟩
        · exact .inr ⟨h, hdone⟩
      · rintro (⟨first, later, rfl, hfirst, hlater⟩ | ⟨h, -⟩)
        · obtain ⟨rfl, rfl⟩ := performs_nil_iff.mp hlater
          simpa using hfirst
        · exact h
  | cons t rest =>
      constructor
      · intro h
        cases h with
        | next hfirst' hsecond => exact .inl ⟨_, _, rfl, hfirst', hsecond⟩
        | ends hfirst' hstops => exact .inr ⟨hfirst', hstops⟩
      · rintro (⟨first, later, rfl, hfirst, hlater⟩ | ⟨h, hstops⟩)
        · exact .next hfirst hlater
        · exact .ends h hstops

theorem performs_ifThen_iff
    {thenBlock : Block}
    {elseBlock : Option Block} :
    Performs [.ifThen c thenBlock elseBlock] events e ↔
      (events = [.failed c] ∧ e = .threw) ∨
        ∃ holds later, events = .tested c holds :: later ∧
          Performs (if holds then thenBlock else elseBlock.getD []) later e := by
  constructor
  · intro h
    cases h with
    | works h => cases h
    | raises h => exact absurd rfl h
    | fails h =>
        cases h
        exact .inl ⟨rfl, rfl⟩
    | ifThen holds h => exact .inr ⟨holds, _, rfl, h⟩
  · rintro (⟨rfl, rfl⟩ | ⟨holds, later, rfl, h⟩)
    · exact .fails rfl
    · exact .ifThen holds h

theorem performs_continue_iff
    {label : Option String} :
    Performs [.jump .continue label] events e ↔ events = [] ∧ e = .continued := by
  constructor
  · intro h
    cases h with
    | works h =>
        cases h
        exact ⟨rfl, rfl⟩
    | raises h => exact absurd rfl h
    | fails h => cases h
  · rintro ⟨rfl, rfl⟩
    exact .works rfl

end Sequences

section Iterations

variable {s : Statement} {body body' rest : Block} {c : Expression}
  {events : List Happening} {e : Ending}

/-- An iteration of a body goes on behind its first statement, or ends with it. -/
theorem iterates_cons_iff :
    Iterates (s :: rest) events e ↔
      (∃ first later, events = first ++ later ∧ Performs [s] first .done ∧
          Iterates rest later e) ∨
        ∃ inner, Performs [s] events inner ∧ inner ≠ .done ∧ inner.ofIteration = e := by
  constructor
  · rintro ⟨inner, h, rfl⟩
    rcases performs_cons_iff.mp h with ⟨first, later, rfl, hfirst, hlater⟩ | ⟨h, hstops⟩
    · exact .inl ⟨first, later, rfl, hfirst, inner, hlater, rfl⟩
    · exact .inr ⟨inner, h, hstops, rfl⟩
  · rintro (⟨first, later, rfl, hfirst, inner, hlater, rfl⟩ | ⟨inner, h, hstops, rfl⟩)
    · exact ⟨inner, performs_cons_iff.mpr (.inl ⟨first, later, rfl, hfirst, hlater⟩), rfl⟩
    · exact ⟨inner, performs_cons_iff.mpr (.inr ⟨h, hstops⟩), rfl⟩

theorem iterates_ifThen_iff
    {thenBlock : Block}
    {elseBlock : Option Block} :
    Iterates [.ifThen c thenBlock elseBlock] events e ↔
      (events = [.failed c] ∧ e = .threw) ∨
        ∃ holds later, events = .tested c holds :: later ∧
          Iterates (if holds then thenBlock else elseBlock.getD []) later e := by
  simp only [Iterates, performs_ifThen_iff]
  constructor
  · rintro ⟨inner, ⟨rfl, rfl⟩ | ⟨holds, later, rfl, h⟩, rfl⟩
    · exact .inl ⟨rfl, rfl⟩
    · exact .inr ⟨holds, later, rfl, inner, h, rfl⟩
  · rintro (⟨rfl, rfl⟩ | ⟨holds, later, rfl, inner, h, rfl⟩)
    · exact ⟨.threw, .inl ⟨rfl, rfl⟩, rfl⟩
    · exact ⟨inner, .inr ⟨holds, later, rfl, h⟩, rfl⟩

/-- An iteration that starts with a continue is over. -/
theorem iterates_continue_iff
    {label : Option String} :
    Iterates [.jump .continue label] events e ↔ Iterates [] events e := by
  simp only [Iterates, performs_continue_iff, performs_nil_iff]
  constructor
  · rintro ⟨inner, ⟨rfl, rfl⟩, rfl⟩
    exact ⟨.done, ⟨rfl, rfl⟩, rfl⟩
  · rintro ⟨inner, ⟨rfl, rfl⟩, rfl⟩
    exact ⟨.continued, ⟨rfl, rfl⟩, rfl⟩

end Iterations

section Loops

variable {body body' : Block} {c : Expression} {events : List Happening} {e : Ending}

/-- An iteration of one body is one of the other body, up to the way to repeat. -/
theorem Performs.of_iterates
    (h : ∀ events e, Iterates body events e → Iterates body' events e)
    (honce : Performs body events e) :
    ∃ e', Performs body' events e' ∧ e'.repeats = e.repeats ∧ (e.repeats = false → e' = e) := by
  obtain ⟨e', honce', hsame⟩ := h events e.ofIteration ⟨e, honce, rfl⟩
  have hrepeats : e'.repeats = e.repeats := by
    rw [← Ending.repeats_ofIteration, hsame, Ending.repeats_ofIteration]
  refine ⟨e', honce', hrepeats, fun hends => ?_⟩
  rw [← Ending.ofIteration_of_not_repeats (hrepeats.trans hends), hsame,
    Ending.ofIteration_of_not_repeats hends]

theorem Performs.whileLoop_of_iterates
    (h : ∀ events e, Iterates body events e → Iterates body' events e)
    (hloop : Performs [.whileLoop c body] events e) :
    Performs [.whileLoop c body'] events e := by
  generalize hcode : [Statement.whileLoop c body] = code at hloop
  induction hloop with
  | whileCut =>
      cases hcode
      exact .whileCut
  | whileFalse =>
      cases hcode
      exact .whileFalse
  | whileAgain honce hrepeats _ _ ih =>
      cases hcode
      obtain ⟨inner, honce', hsame, -⟩ := honce.of_iterates h
      exact .whileAgain honce' (hsame.trans hrepeats) (ih rfl)
  | whileEnds honce hstops =>
      cases hcode
      obtain ⟨inner, honce', hsame, heq⟩ := honce.of_iterates h
      rw [← heq hstops]
      exact .whileEnds honce' (hsame.trans hstops)
  | works hends =>
      cases hcode
      cases hends
  | raises hwork =>
      cases hcode
      exact absurd rfl hwork
  | fails hhead =>
      cases hcode
      cases hhead
      exact .fails rfl
  | _ => cases hcode

theorem Performs.doLoop_of_iterates
    (h : ∀ events e, Iterates body events e → Iterates body' events e)
    (hloop : Performs [.doLoop c body] events e) :
    Performs [.doLoop c body'] events e := by
  cases hloop with
  | works hends => cases hends
  | raises hwork => exact absurd rfl hwork
  | fails hhead => cases hhead
  | doAgain honce hrepeats hbehind =>
      obtain ⟨inner, honce', hsame, -⟩ := honce.of_iterates h
      exact .doAgain honce' (hsame.trans hrepeats) (hbehind.whileLoop_of_iterates h)
  | doEnds honce hstops =>
      obtain ⟨inner, honce', hsame, heq⟩ := honce.of_iterates h
      rw [← heq hstops]
      exact .doEnds honce' (hsame.trans hstops)

/-- A loop depends on the iterations of its body only. -/
theorem performs_whileLoop_congr
    (h : ∀ events e, Iterates body events e ↔ Iterates body' events e) :
    Performs [.whileLoop c body] events e ↔ Performs [.whileLoop c body'] events e :=
  ⟨.whileLoop_of_iterates fun events e => (h events e).mp,
    .whileLoop_of_iterates fun events e => (h events e).mpr⟩

theorem performs_doLoop_congr
    (h : ∀ events e, Iterates body events e ↔ Iterates body' events e) :
    Performs [.doLoop c body] events e ↔ Performs [.doLoop c body'] events e :=
  ⟨.doLoop_of_iterates fun events e => (h events e).mp,
    .doLoop_of_iterates fun events e => (h events e).mpr⟩

end Loops

end Java

namespace Emission

open Java (Block Statement Expression Happening Ending Performs Iterates)

mutual

/-- The continues that are left out stand where an iteration is over anyway. -/
theorem iterates_dropFinalContinue :
    ∀ (block : List Statement) (events : List Happening) (e : Ending),
      Iterates (dropFinalContinue block) events e ↔ Iterates block events e
  | [], _, _ => .rfl
  | [s], events, e => by
      rw [dropFinalContinue]
      exact iterates_dropContinue s events e
  | s :: t :: rest, events, e => by
      rw [dropFinalContinue.eq_3 s (t :: rest) (List.cons_ne_nil t rest), Java.iterates_cons_iff,
        Java.iterates_cons_iff]
      simp only [iterates_dropFinalContinue (t :: rest)]

theorem iterates_dropContinue :
    ∀ (s : Statement) (events : List Happening) (e : Ending),
      Iterates (dropContinue s) events e ↔ Iterates [s] events e
  | .jump .continue _, _, _ => Java.iterates_continue_iff.symm
  | .ifThen c thenBlock elseBlock, events, e => by
      rw [dropContinue, Java.iterates_ifThen_iff, Java.iterates_ifThen_iff]
      have chosen : ∀ (holds : Bool) (later : List Happening),
          Iterates (if holds then dropFinalContinue thenBlock
            else (dropElseContinue elseBlock).getD []) later e ↔
            Iterates (if holds then thenBlock else elseBlock.getD []) later e
        | true, later => iterates_dropFinalContinue thenBlock later e
        | false, later => iterates_dropElseContinue elseBlock later e
      simp only [chosen]
  | .jump .break _, _, _ => .rfl
  | .jump .goto _, _, _ => by simp [dropContinue]
  | .block _, _, _ => by simp [dropContinue]
  | .whileLoop .., _, _ => by simp [dropContinue]
  | .doLoop .., _, _ => by simp [dropContinue]
  | .switch .., _, _ => by simp [dropContinue]
  | .tryCatch .., _, _ => by simp [dropContinue]
  | .ret _, _, _ => .rfl
  | .throw _, _, _ => .rfl
  | .expression _, _, _ => .rfl
  | .declaration .., _, _ => .rfl
  | .label _, _, _ => .rfl

theorem iterates_dropElseContinue :
    ∀ (elseBlock : Option (List Statement)) (events : List Happening) (e : Ending),
      Iterates ((dropElseContinue elseBlock).getD []) events e ↔
        Iterates (elseBlock.getD []) events e
  | none, _, _ => .rfl
  | some block, events, e => by
      rw [dropElseContinue, getD_unlessEmpty]
      exact iterates_dropFinalContinue block events e

end

/-- **Final continues can be left out.**  One iteration of a loop does the same and ends in the same
way without them, and so does the whole loop, whether it is tested in front or behind. -/
theorem iterations_dropFinalContinue
    (block : Block) :
    (∀ events e, Iterates (dropFinalContinue block) events e ↔ Iterates block events e) ∧
      ∀ c events e,
        (Performs [.whileLoop c (dropFinalContinue block)] events e ↔
          Performs [.whileLoop c block] events e) ∧
        (Performs [.doLoop c (dropFinalContinue block)] events e ↔
          Performs [.doLoop c block] events e) := by
  have hsame := iterates_dropFinalContinue block
  exact ⟨hsame, fun _ _ _ =>
    ⟨Java.performs_whileLoop_congr hsame, Java.performs_doLoop_congr hsame⟩⟩

end Emission
end DalvikDecompiler
