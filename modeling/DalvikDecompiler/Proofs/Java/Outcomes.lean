import DalvikDecompiler.Proofs.Java.Execution
import Mathlib

/-!
# How Java code ends

A block runs off its end, breaks out of a loop, continues one, jumps to a label or leaves the
method.  Loops run their bodies again until a condition fails or one of the other things happens.
Watching code may stop at any time, so that code which runs for ever is known by what it does first.

The statements run here are those of code without switches and protected regions.  A jump to a label
is not followed, and a break or continue is taken to have no label.

Main statements: `does_append_iff`, `Does.while_induction`, `Does.do_induction`.
-/

namespace DalvikDecompiler
namespace Java

/-- How a block ends. -/
inductive Outcome where
  | done
  | broke
  | continued
  | jumped (name : String)
  | left
  /-- It was not watched any further. -/
  | cut

namespace Outcome

/-- Whether a loop whose body ends like this tests its condition next. -/
def repeats : Outcome → Bool
  | done | continued => true
  | broke | jumped _ | left | cut => false

/-- Whether a loop whose body ends like this ends in the same way. -/
def escapes : Outcome → Bool
  | jumped _ | left | cut => true
  | done | broke | continued => false

end Outcome

/-- What some code may do, and how it ends then. -/
abbrev Run :=
  List Action → Outcome → Prop

/-- Whether an expression is the literal `true`. -/
def Expression.isTrue : Expression → Bool
  | .literal value type => value == "true" && type == ⟨"boolean", 0⟩
  | _ => false

/-- How the condition of a loop comes out, and which tests decide it. -/
inductive Tests : Expression → List Action → Bool → Prop
  | literal {c : Expression}
      (halways : c.isTrue = true) :
      Tests c [] true
  | condition {c : Expression} {events : List Action} {holds : Bool}
      (hsometimes : c.isTrue = false)
      (h : Evaluates c events holds) :
      Tests c events holds

/-- What a block does until it ends, and how it ends. -/
inductive Does : Block → Run
  | cut {block : Block} :
      Does block [] .cut
  | nil :
      Does [] [] .done
  | label {name : String} {rest : Block} {events : List Action} {o : Outcome}
      (h : Does rest events o) :
      Does (.label name :: rest) events o
  | declared {decl : VarDecl} {rest : Block} {events : List Action} {o : Outcome}
      (h : Does rest events o) :
      Does (.declaration decl none :: rest) events o
  | initialized {decl : VarDecl} {value : Expression} {rest : Block} {events : List Action}
      {o : Outcome}
      (h : Does rest events o) :
      Does (.declaration decl (some value) :: rest)
        (.ran (.declaration decl (some value)) :: events) o
  | expression {value : Expression} {rest : Block} {events : List Action} {o : Outcome}
      (hplain : value.joined? = none)
      (h : Does rest events o) :
      Does (.expression value :: rest) (.ran (.expression value) :: events) o
  | tests {value : Expression} {holds : Bool} {rest : Block} {before events : List Action}
      {o : Outcome}
      (hjoined : value.joined? ≠ none)
      (htested : Evaluates value before holds)
      (h : Does rest events o) :
      Does (.expression value :: rest) (before ++ events) o
  | ret {value : Option Expression} {rest : Block} :
      Does (.ret value :: rest) [.ran (.ret value)] .left
  | throw {value : Expression} {rest : Block} :
      Does (.throw value :: rest) [.ran (.throw value)] .left
  | goto {name : String} {rest : Block} :
      Does (.jump .goto (some name) :: rest) [] (.jumped name)
  | break {label : Option String} {rest : Block} :
      Does (.jump .break label :: rest) [] .broke
  | continue {label : Option String} {rest : Block} :
      Does (.jump .continue label :: rest) [] .continued
  | ifThen {c : Expression} {thenBlock : Block} {elseBlock : Option Block} {holds : Bool}
      {rest : Block} {before events : List Action} {o : Outcome}
      (htested : Evaluates c before holds)
      (h : Does ((if holds then thenBlock else elseBlock.getD []) ++ rest) events o) :
      Does (.ifThen c thenBlock elseBlock :: rest) (before ++ events) o
  | whileFalse {c : Expression} {body rest : Block} {before events : List Action} {o : Outcome}
      (htested : Tests c before false)
      (h : Does rest events o) :
      Does (.whileLoop c body :: rest) (before ++ events) o
  | whileAgain {c : Expression} {body rest : Block} {before events later : List Action}
      {inner o : Outcome}
      (htested : Tests c before true)
      (honce : Does body events inner)
      (hrepeats : inner.repeats = true)
      (h : Does (.whileLoop c body :: rest) later o) :
      Does (.whileLoop c body :: rest) (before ++ (events ++ later)) o
  | whileBroke {c : Expression} {body rest : Block} {before events later : List Action}
      {o : Outcome}
      (htested : Tests c before true)
      (honce : Does body events .broke)
      (h : Does rest later o) :
      Does (.whileLoop c body :: rest) (before ++ (events ++ later)) o
  | whileEscaped {c : Expression} {body rest : Block} {before events : List Action} {o : Outcome}
      (htested : Tests c before true)
      (honce : Does body events o)
      (hescapes : o.escapes = true) :
      Does (.whileLoop c body :: rest) (before ++ events) o
  /-- Watching stops in front of the test. -/
  | doCut {c : Expression} {body rest : Block} {events : List Action} {inner : Outcome}
      (honce : Does body events inner)
      (hrepeats : inner.repeats = true) :
      Does (.doLoop c body :: rest) events .cut
  | doFalse {c : Expression} {body rest : Block} {before events later : List Action}
      {inner o : Outcome}
      (honce : Does body events inner)
      (hrepeats : inner.repeats = true)
      (htested : Tests c before false)
      (h : Does rest later o) :
      Does (.doLoop c body :: rest) (events ++ (before ++ later)) o
  | doAgain {c : Expression} {body rest : Block} {before events later : List Action}
      {inner o : Outcome}
      (honce : Does body events inner)
      (hrepeats : inner.repeats = true)
      (htested : Tests c before true)
      (h : Does (.doLoop c body :: rest) later o) :
      Does (.doLoop c body :: rest) (events ++ (before ++ later)) o
  | doBroke {c : Expression} {body rest : Block} {events later : List Action} {o : Outcome}
      (honce : Does body events .broke)
      (h : Does rest later o) :
      Does (.doLoop c body :: rest) (events ++ later) o
  | doEscaped {c : Expression} {body rest : Block} {events : List Action} {o : Outcome}
      (honce : Does body events o)
      (hescapes : o.escapes = true) :
      Does (.doLoop c body :: rest) events o

section Statements

variable {block rest : Block} {events : List Action} {o : Outcome}

theorem does_nil_iff :
    Does [] events o ↔ events = [] ∧ (o = .done ∨ o = .cut) := by
  constructor
  · intro h
    cases h
    · exact ⟨rfl, .inr rfl⟩
    · exact ⟨rfl, .inl rfl⟩
  · rintro ⟨rfl, rfl | rfl⟩
    · exact .nil
    · exact .cut

theorem does_plain_iff
    {s : Statement}
    (hplain : s.Plain) :
    Does (s :: rest) events o ↔
      events = [] ∧ o = .cut ∨ ∃ later, events = .ran s :: later ∧ Does rest later o := by
  constructor
  · intro h
    cases hplain with
    | expression hp =>
        cases h with
        | cut => exact .inl ⟨rfl, rfl⟩
        | expression _ h => exact .inr ⟨_, rfl, h⟩
        | tests hjoined => exact absurd hp hjoined
    | initialized =>
        cases h with
        | cut => exact .inl ⟨rfl, rfl⟩
        | initialized h => exact .inr ⟨_, rfl, h⟩
  · rintro (⟨rfl, rfl⟩ | ⟨later, rfl, h⟩)
    · exact .cut
    · cases hplain with
      | expression hp => exact .expression hp h
      | initialized => exact .initialized h

theorem does_leaving_iff
    {s : Statement}
    (hleaving : s.Leaving) :
    Does (s :: rest) events o ↔ events = [] ∧ o = .cut ∨ events = [.ran s] ∧ o = .left := by
  constructor
  · intro h
    cases hleaving <;> cases h
    all_goals first | exact .inl ⟨rfl, rfl⟩ | exact .inr ⟨rfl, rfl⟩
  · rintro (⟨rfl, rfl⟩ | ⟨rfl, rfl⟩)
    · exact .cut
    · cases hleaving
      · exact .ret
      · exact .throw

theorem does_silent_iff
    {front : Block}
    (hsilent : ∀ s ∈ front, s.Silent) :
    Does (front ++ rest) events o ↔ Does rest events o := by
  induction front with
  | nil => rfl
  | cons s front ih =>
      have hlater := ih fun t ht => hsilent t (List.mem_cons_of_mem s ht)
      rw [List.cons_append, ← hlater]
      constructor
      · intro h
        cases hsilent s List.mem_cons_self <;> cases h
        all_goals first | assumption | exact .cut
      · intro h
        cases hsilent s List.mem_cons_self
        · exact .label h
        · exact .declared h

theorem does_ifThen_iff
    {c : Expression}
    {thenBlock : Block}
    {elseBlock : Option Block} :
    Does (.ifThen c thenBlock elseBlock :: rest) events o ↔
      events = [] ∧ o = .cut ∨ ∃ before later holds,
        events = before ++ later ∧ Evaluates c before holds ∧
          Does ((if holds then thenBlock else elseBlock.getD []) ++ rest) later o := by
  constructor
  · intro h
    cases h with
    | cut => exact .inl ⟨rfl, rfl⟩
    | ifThen htested h => exact .inr ⟨_, _, _, rfl, htested, h⟩
  · rintro (⟨rfl, rfl⟩ | ⟨before, later, holds, rfl, htested, h⟩)
    · exact .cut
    · exact .ifThen htested h

end Statements

section Sequences

variable {block rest : Block} {events later : List Action} {o : Outcome}

theorem Does.append_done
    (h : Does block events .done)
    (h' : Does rest later o) :
    Does (block ++ rest) (events ++ later) o := by
  generalize hdone : Outcome.done = inner at h
  induction h generalizing later with
  | cut => cases hdone
  | nil => exact h'
  | label _ ih => exact .label (ih h' hdone)
  | declared _ ih => exact .declared (ih h' hdone)
  | initialized _ ih => exact .initialized (ih h' hdone)
  | expression hplain _ ih => exact .expression hplain (ih h' hdone)
  | tests hjoined htested _ ih =>
      rw [List.append_assoc]
      exact .tests hjoined htested (ih h' hdone)
  | ret | throw | goto | «break» | «continue» | doCut => cases hdone
  | ifThen htested _ ih =>
      rw [List.append_assoc]
      exact .ifThen htested (List.append_assoc .. ▸ ih h' hdone)
  | whileFalse htested _ ih =>
      rw [List.append_assoc]
      exact .whileFalse htested (ih h' hdone)
  | whileAgain htested honce hrepeats _ _ ih =>
      simp only [List.append_assoc]
      exact .whileAgain htested honce hrepeats (ih h' hdone)
  | whileBroke htested honce _ _ ih =>
      simp only [List.append_assoc]
      exact .whileBroke htested honce (ih h' hdone)
  | whileEscaped _ _ hescapes => exact absurd hescapes (hdone ▸ Bool.false_ne_true)
  | doFalse honce hrepeats htested _ _ ih =>
      simp only [List.append_assoc]
      exact .doFalse honce hrepeats htested (ih h' hdone)
  | doAgain honce hrepeats htested _ _ ih =>
      simp only [List.append_assoc]
      exact .doAgain honce hrepeats htested (ih h' hdone)
  | doBroke honce _ _ ih =>
      rw [List.append_assoc]
      exact .doBroke honce (ih h' hdone)
  | doEscaped _ hescapes => exact absurd hescapes (hdone ▸ Bool.false_ne_true)

/-- Code that does not run off its end does not depend on what stands behind it. -/
theorem Does.append
    (h : Does block events o)
    (hstops : o ≠ .done) :
    Does (block ++ rest) events o := by
  induction h with
  | cut => exact .cut
  | nil => exact absurd rfl hstops
  | label _ ih => exact .label (ih hstops)
  | declared _ ih => exact .declared (ih hstops)
  | initialized _ ih => exact .initialized (ih hstops)
  | expression hplain _ ih => exact .expression hplain (ih hstops)
  | tests hjoined htested _ ih => exact .tests hjoined htested (ih hstops)
  | ret => exact .ret
  | throw => exact .throw
  | goto => exact .goto
  | «break» => exact .break
  | «continue» => exact .continue
  | ifThen htested _ ih => exact .ifThen htested (List.append_assoc .. ▸ ih hstops)
  | whileFalse htested _ ih => exact .whileFalse htested (ih hstops)
  | whileAgain htested honce hrepeats _ _ ih => exact .whileAgain htested honce hrepeats (ih hstops)
  | whileBroke htested honce _ _ ih => exact .whileBroke htested honce (ih hstops)
  | whileEscaped htested honce hescapes => exact .whileEscaped htested honce hescapes
  | doCut honce hrepeats => exact .doCut honce hrepeats
  | doFalse honce hrepeats htested _ _ ih => exact .doFalse honce hrepeats htested (ih hstops)
  | doAgain honce hrepeats htested _ _ ih => exact .doAgain honce hrepeats htested (ih hstops)
  | doBroke honce _ _ ih => exact .doBroke honce (ih hstops)
  | doEscaped honce hescapes => exact .doEscaped honce hescapes

/-- Code in front of other code runs off its end into it, or ends there. -/
inductive Splits (run : Run) (rest : Block) : Run
  | onward {events later : List Action} {o : Outcome}
      (hfirst : run events .done)
      (hsecond : Does rest later o) :
      Splits run rest (events ++ later) o
  | ends {events : List Action} {o : Outcome}
      (hstops : o ≠ .done)
      (hfirst : run events o) :
      Splits run rest events o

theorem Splits.map
    {run run' : Run}
    (more : List Action)
    (h : Splits run rest events o)
    (honward : ∀ events o, run events o → run' (more ++ events) o) :
    Splits run' rest (more ++ events) o := by
  cases h with
  | onward hfirst hsecond =>
      rw [← List.append_assoc]
      exact .onward (honward _ _ hfirst) hsecond
  | ends hstops hfirst => exact .ends hstops (honward _ _ hfirst)

theorem Does.splits
    (h : Does (block ++ rest) events o) :
    Splits (Does block) rest events o := by
  have hnonempty {block whole : Block} {events : List Action} {o : Outcome}
      (h : Does whole events o) (hsame : block ++ rest = whole)
      (hcons : ∀ s block, s :: (block ++ rest) = whole → Splits (Does (s :: block)) rest events o) :
      Splits (Does block) rest events o := by
    cases block with
    | nil =>
        cases hsame
        exact .onward Does.nil h
    | cons s block => exact hcons s block hsame
  refine hnonempty h rfl fun s block hsame => ?_
  generalize _ ++ rest = whole at h hsame
  induction h generalizing s block with
  | cut => exact .ends (fun h => by cases h) .cut
  | nil => cases hsame
  | label h ih =>
      cases hsame
      exact (hnonempty h rfl ih).map [] fun _ _ => Does.label
  | declared h ih =>
      cases hsame
      exact (hnonempty h rfl ih).map [] fun _ _ => Does.declared
  | initialized h ih =>
      cases hsame
      exact (hnonempty h rfl ih).map [_] fun _ _ => Does.initialized
  | expression hplain h ih =>
      cases hsame
      exact (hnonempty h rfl ih).map [_] fun _ _ => Does.expression hplain
  | tests hjoined htested h ih =>
      cases hsame
      exact (hnonempty h rfl ih).map _ fun _ _ => Does.tests hjoined htested
  | ret =>
      cases hsame
      exact .ends (fun h => by cases h) .ret
  | throw =>
      cases hsame
      exact .ends (fun h => by cases h) .throw
  | goto =>
      cases hsame
      exact .ends (fun h => by cases h) .goto
  | «break» =>
      cases hsame
      exact .ends (fun h => by cases h) .break
  | «continue» =>
      cases hsame
      exact .ends (fun h => by cases h) .continue
  | ifThen htested h ih =>
      cases hsame
      exact (hnonempty h (List.append_assoc ..) ih).map _ fun _ _ => Does.ifThen htested
  | whileFalse htested h ih =>
      cases hsame
      exact (hnonempty h rfl ih).map _ fun _ _ => Does.whileFalse htested
  | whileAgain htested honce hrepeats _ _ ih =>
      cases hsame
      rw [← List.append_assoc]
      refine (ih _ _ rfl).map _ fun _ _ h => ?_
      rw [List.append_assoc]
      exact .whileAgain htested honce hrepeats h
  | whileBroke htested honce h _ ih =>
      cases hsame
      rw [← List.append_assoc]
      refine (hnonempty h rfl ih).map _ fun _ _ h => ?_
      rw [List.append_assoc]
      exact .whileBroke htested honce h
  | whileEscaped htested honce hescapes =>
      cases hsame
      exact .ends (by rintro rfl; cases hescapes) (.whileEscaped htested honce hescapes)
  | doCut honce hrepeats =>
      cases hsame
      exact .ends (fun h => by cases h) (.doCut honce hrepeats)
  | doFalse honce hrepeats htested h _ ih =>
      cases hsame
      rw [← List.append_assoc]
      refine (hnonempty h rfl ih).map _ fun _ _ h => ?_
      rw [List.append_assoc]
      exact .doFalse honce hrepeats htested h
  | doAgain honce hrepeats htested _ _ ih =>
      cases hsame
      rw [← List.append_assoc]
      refine (ih _ _ rfl).map _ fun _ _ h => ?_
      rw [List.append_assoc]
      exact .doAgain honce hrepeats htested h
  | doBroke honce h _ ih =>
      cases hsame
      exact (hnonempty h rfl ih).map _ fun _ _ => Does.doBroke honce
  | doEscaped honce hescapes =>
      cases hsame
      exact .ends (by rintro rfl; cases hescapes) (.doEscaped honce hescapes)

theorem does_append_iff :
    Does (block ++ rest) events o ↔ Splits (Does block) rest events o := by
  refine ⟨Does.splits, fun h => ?_⟩
  cases h with
  | onward hfirst hsecond => exact hfirst.append_done hsecond
  | ends hstops hfirst => exact hfirst.append hstops

section Runs

variable {run run' : Run}

/-- Code behind other code, with more code behind both. -/
theorem splits_append_iff :
    Splits run (block ++ rest) events o ↔ Splits (Splits run block) rest events o := by
  constructor
  · intro h
    cases h with
    | ends hstops hfirst => exact .ends hstops (.ends hstops hfirst)
    | onward hfirst hbehind =>
        cases hbehind.splits with
        | onward hsecond hthird =>
            rw [← List.append_assoc]
            exact .onward (.onward hfirst hsecond) hthird
        | ends hstops hsecond => exact .ends hstops (.onward hfirst hsecond)
  · intro h
    cases h with
    | onward hfirst hthird =>
        cases hfirst with
        | onward hfirst hsecond =>
            rw [List.append_assoc]
            exact .onward hfirst (hsecond.append_done hthird)
        | ends hstops => exact absurd rfl hstops
    | ends hstops hfirst =>
        cases hfirst with
        | onward hfirst hsecond => exact .onward hfirst (hsecond.append hstops)
        | ends _ hfirst => exact .ends hstops hfirst

theorem Splits.exists_run
    (h : Splits run rest events o) :
    ∃ events o, run events o := by
  cases h <;> exact ⟨_, _, ‹_›⟩

theorem splits_or_iff :
    Splits (fun events o => run events o ∨ run' events o) rest events o ↔
      Splits run rest events o ∨ Splits run' rest events o := by
  constructor
  · intro h
    cases h with
    | onward hfirst hsecond => exact hfirst.imp (.onward · hsecond) (.onward · hsecond)
    | ends hstops hfirst => exact hfirst.imp (.ends hstops ·) (.ends hstops ·)
  · rintro (h | h)
    · exact h.map [] fun _ _ => .inl
    · exact h.map [] fun _ _ => .inr

end Runs
end Sequences

section Loops

/-- What a loop that is tested in front does from some place in its body on: its turn ends there,
and the loop goes on or ends too. -/
inductive WhileTurn (c : Expression) (body : Block) (run : Run) : Run
  | again {events later : List Action} {inner o : Outcome}
      (honce : run events inner)
      (hrepeats : inner.repeats = true)
      (h : Does [.whileLoop c body] later o) :
      WhileTurn c body run (events ++ later) o
  | broke {events : List Action} {o : Outcome}
      (honce : run events .broke)
      (h : Does [] [] o) :
      WhileTurn c body run events o
  | escaped {events : List Action} {o : Outcome}
      (honce : run events o)
      (hescapes : o.escapes = true) :
      WhileTurn c body run events o

/-- The same for a loop that is tested behind. -/
inductive DoTurn (c : Expression) (body : Block) (run : Run) : Run
  /-- Watching stops in front of the test. -/
  | cut {events : List Action} {inner : Outcome}
      (honce : run events inner)
      (hrepeats : inner.repeats = true) :
      DoTurn c body run events .cut
  | exit {events before : List Action} {inner o : Outcome}
      (honce : run events inner)
      (hrepeats : inner.repeats = true)
      (htested : Tests c before false)
      (h : Does [] [] o) :
      DoTurn c body run (events ++ before) o
  | again {events before later : List Action} {inner o : Outcome}
      (honce : run events inner)
      (hrepeats : inner.repeats = true)
      (htested : Tests c before true)
      (h : Does [.doLoop c body] later o) :
      DoTurn c body run (events ++ (before ++ later)) o
  | broke {events : List Action} {o : Outcome}
      (honce : run events .broke)
      (h : Does [] [] o) :
      DoTurn c body run events o
  | escaped {events : List Action} {o : Outcome}
      (honce : run events o)
      (hescapes : o.escapes = true) :
      DoTurn c body run events o

variable {c : Expression} {body rest : Block} {events : List Action} {o : Outcome}
variable {motive : List Action → Outcome → Prop}

theorem WhileTurn.exists_run
    {run : Run}
    (h : WhileTurn c body run events o) :
    ∃ events o, run events o := by
  cases h <;> exact ⟨_, _, ‹_›⟩

theorem DoTurn.exists_run
    {run : Run}
    (h : DoTurn c body run events o) :
    ∃ events o, run events o := by
  cases h <;> exact ⟨_, _, ‹_›⟩

theorem WhileTurn.does
    {before : List Action}
    (h : WhileTurn c body (Does body) events o)
    (htested : Tests c before true) :
    Does [.whileLoop c body] (before ++ events) o := by
  cases h with
  | again honce hrepeats h => exact .whileAgain htested honce hrepeats h
  | broke honce h => exact List.append_nil events ▸ .whileBroke htested honce h
  | escaped honce hescapes => exact .whileEscaped htested honce hescapes

theorem DoTurn.does
    (h : DoTurn c body (Does body) events o) :
    Does [.doLoop c body] events o := by
  cases h with
  | cut honce hrepeats => exact .doCut honce hrepeats
  | @exit _ before _ _ honce hrepeats htested h =>
      exact List.append_nil before ▸ .doFalse honce hrepeats htested h
  | again honce hrepeats htested h => exact .doAgain honce hrepeats htested h
  | broke honce h => exact List.append_nil events ▸ .doBroke honce h
  | escaped honce hescapes => exact .doEscaped honce hescapes

/-- To prove something of a loop that is tested in front, it may be assumed of what the loop does
after one more turn. -/
theorem Does.while_induction
    (h : Does (.whileLoop c body :: rest) events o)
    (hcut : motive [] .cut)
    (hexit : ∀ before later o, Tests c before false → Does rest later o →
      motive (before ++ later) o)
    (hagain : ∀ before events later inner o, Tests c before true → Does body events inner →
      inner.repeats = true → motive later o → motive (before ++ (events ++ later)) o)
    (hbroke : ∀ before events later o, Tests c before true → Does body events .broke →
      Does rest later o → motive (before ++ (events ++ later)) o)
    (hescaped : ∀ before events o, Tests c before true → Does body events o → o.escapes = true →
      motive (before ++ events) o) :
    motive events o := by
  generalize hloop : Statement.whileLoop c body :: rest = loop at h
  induction h with
  | cut => exact hcut
  | whileFalse htested h =>
      cases hloop
      exact hexit _ _ _ htested h
  | whileAgain htested honce hrepeats _ _ ih =>
      cases hloop
      exact hagain _ _ _ _ _ htested honce hrepeats (ih rfl)
  | whileBroke htested honce h =>
      cases hloop
      exact hbroke _ _ _ _ htested honce h
  | whileEscaped htested honce hescapes =>
      cases hloop
      exact hescaped _ _ _ htested honce hescapes
  | _ => cases hloop

/-- The same for a loop that is tested behind. -/
theorem Does.do_induction
    (h : Does (.doLoop c body :: rest) events o)
    (hcut : motive [] .cut)
    (hended : ∀ events inner, Does body events inner → inner.repeats = true → motive events .cut)
    (hexit : ∀ events before later inner o, Does body events inner → inner.repeats = true →
      Tests c before false → Does rest later o → motive (events ++ (before ++ later)) o)
    (hagain : ∀ events before later inner o, Does body events inner → inner.repeats = true →
      Tests c before true → motive later o → motive (events ++ (before ++ later)) o)
    (hbroke : ∀ events later o, Does body events .broke → Does rest later o →
      motive (events ++ later) o)
    (hescaped : ∀ events o, Does body events o → o.escapes = true → motive events o) :
    motive events o := by
  generalize hloop : Statement.doLoop c body :: rest = loop at h
  induction h with
  | cut => exact hcut
  | doCut honce hrepeats =>
      cases hloop
      exact hended _ _ honce hrepeats
  | doFalse honce hrepeats htested h =>
      cases hloop
      exact hexit _ _ _ _ _ honce hrepeats htested h
  | doAgain honce hrepeats htested _ _ ih =>
      cases hloop
      exact hagain _ _ _ _ _ honce hrepeats htested (ih rfl)
  | doBroke honce h =>
      cases hloop
      exact hbroke _ _ _ honce h
  | doEscaped honce hescapes =>
      cases hloop
      exact hescaped _ _ honce hescapes
  | _ => cases hloop

end Loops

end Java
end DalvikDecompiler
