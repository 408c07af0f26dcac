import DalvikDecompiler.Emission.Body
import DalvikDecompiler.Proofs.FlowGraph.LoopFree
import DalvikDecompiler.Proofs.Java.Execution

/-!
# What the Java forms of instructions and conditions do

The statement of an instruction depends on which variables have been declared, and a condition may
be written negated.  Neither changes what happens when the code is run.

Main statements: `Spells.runs_iff` for the instructions of a node, `conveys_condition` for its
condition.
-/

namespace DalvikDecompiler
namespace Emission

open Symbolic (VarId Variables Variable Expr Instr)
open Java (Block Expression Statement Action)

/-- The variables before any declaration has been written. -/
def undeclared (vars : Variables) : Variables :=
  { vars with entries := vars.entries.map fun v => { v with declared := false } }

/-- Whether two tables hold the same variables, apart from what has been declared. -/
def SameVars (vars vars' : Variables) : Prop :=
  undeclared vars' = undeclared vars

theorem sameVars_markDeclared
    (vars : Variables)
    (v : VarId) :
    SameVars vars (vars.markDeclared v) := by
  simp only [SameVars, undeclared, Variables.markDeclared, Variables.modify]
  congr 1
  ext i x
  · simp
  · simp only [Array.getElem_map, Array.getElem_modify]
    split <;> rfl

theorem SameVars.isReceiver
    {vars vars' : Variables}
    (h : SameVars vars vars')
    (v : VarId) :
    vars'.isReceiver v = vars.isReceiver v := by
  have hplain (table : Variables) : (undeclared table).isReceiver v = table.isReceiver v := by
    simp [undeclared, Variables.isReceiver, Variables.get?, Option.any_map]
  rw [← hplain, h, hplain]

section Forms

variable (vars : Variables) (owner : String)

theorem joined?_expression
    (e : Expr)
    (expected : Option String) :
    (expression vars owner e expected).joined? = none := by
  cases e with
  | binary op left right type => cases op <;> rfl
  | call dispatch method receiver args =>
      simp only [expression, callExpression]
      split
      · split
        · rfl
        · cases receiver <;> rfl
      · rfl
  | _ => rfl

theorem joined?_condition
    (ins : Instr)
    (negate : Bool) :
    (condition vars owner ins negate).joined? = none := by
  have hcompared (r : Symbolic.Relation) (left right : Expression) :
      (Expression.binary r.symbol left right).joined? = none := by
    cases r <;> rfl
  have hzero (r : Symbolic.Relation) (e : Expr) (type : Option String) :
      (zeroTest r (expression vars owner e none) type).joined? = none := by
    unfold zeroTest
    split
    · split
      · rfl
      · exact joined?_expression vars owner e none
      · exact hcompared ..
    · split <;> exact hcompared ..
    · exact hcompared ..
  unfold condition
  split
  · exact hcompared ..
  · exact hcompared ..
  · exact hzero ..
  · rfl

theorem plain_assignment
    (target : VarId)
    (value : Expr) :
    (assignment vars owner target value).1.Plain := by
  unfold assignment
  split
  · exact .initialized
  · refine .expression ?_
    split <;> rfl

theorem sameVars_assignment
    (target : VarId)
    (value : Expr) :
    SameVars vars (assignment vars owner target value).2 := by
  unfold assignment
  split
  · exact sameVars_markDeclared vars target
  · rfl

variable (w : Writing)

/-- Writing an instruction changes no more than what has been declared. -/
theorem sameVars_statement
    (ins : Instr) :
    SameVars vars (statement w vars ins).2 := by
  cases ins with
  | move target value =>
      simp only [statement]
      split
      · rfl
      · exact sameVars_assignment ..
  | moveResult target value => exact sameVars_assignment ..
  | assign target value =>
      cases target with
      | some target => exact sameVars_assignment ..
      | none =>
          simp only [statement]
          split <;> rfl
  | moveException v =>
      simp only [statement, exceptionStatement]
      split
      · exact sameVars_markDeclared vars v
      · rfl
  | _ => rfl

/-- Whether an instruction has a statement does not depend on what has been declared. -/
theorem isSome_statement_congr
    {vars vars' : Variables}
    (h : SameVars vars vars')
    (ins : Instr) :
    (statement w vars' ins).1.isSome = (statement w vars ins).1.isSome := by
  cases ins with
  | move target value =>
      simp only [statement]
      split <;> rfl
  | assign target value =>
      cases target with
      | some target => rfl
      | none =>
          have hsame : isDefaultSuperCall vars' value = isDefaultSuperCall vars value := by
            cases value <;> simp [isDefaultSuperCall, Emission.isReceiver, funext h.isReceiver]
          simp only [statement, hsame]
          split <;> rfl
  | _ => rfl

theorem plain_of_statement
    {ins : Instr}
    {s : Statement}
    (hstays : ins.leaves = false)
    (h : (statement w vars ins).1 = some s) :
    s.Plain := by
  have hexpr {e : Expression} (hplain : e.joined? = none)
      (he : some (Statement.expression e) = some s) : s.Plain :=
    Option.some.inj he ▸ .expression hplain
  cases ins with
  | nop | switch => simp [statement] at h
  | ret | throw => simp [Instr.leaves] at hstays
  | move target value =>
      simp only [statement] at h
      split at h
      · cases h
      · exact Option.some.inj h ▸ plain_assignment ..
  | moveResult target value => exact Option.some.inj h ▸ plain_assignment ..
  | assign target value =>
      cases target with
      | some target => exact Option.some.inj h ▸ plain_assignment ..
      | none =>
          simp only [statement] at h
          split at h
          · cases h
          · exact hexpr (joined?_expression ..) h
  | ifCompare | ifCompareZero => exact hexpr (joined?_condition ..) h
  | moveException v =>
      simp only [statement, exceptionStatement] at h
      split at h
      · exact Option.some.inj h ▸ .initialized
      · exact hexpr rfl h
  | _ => exact hexpr rfl h

theorem leaving_of_statement
    {ins : Instr}
    (hleaves : ins.leaves = true) :
    ∃ s, (statement w vars ins).1 = some s ∧ s.Leaving := by
  cases ins with
  | ret value => exact ⟨_, rfl, .ret⟩
  | throw value => exact ⟨_, rfl, .throw⟩
  | _ => simp [Instr.leaves] at hleaves

theorem form_of_statement
    {ins : Instr}
    {s : Statement}
    (h : (statement w vars ins).1 = some s) :
    s.Plain ∨ s.Leaving := by
  cases hleaves : ins.leaves with
  | false => exact .inl (plain_of_statement vars w hleaves h)
  | true =>
      obtain ⟨_, hsame, hleaving⟩ := leaving_of_statement vars w hleaves
      exact .inr (Option.some.inj (h.symm.trans hsame) ▸ hleaving)

end Forms

/-- The statements of some instructions, each written when some variables had been declared. -/
inductive Spells (w : Writing) (vars : Variables) : List Instr → Block → Prop
  | nil :
      Spells w vars [] []
  | silent {ins : Instr} {rest : List Instr} {block : Block}
      (hunwritten : (statement w vars ins).1 = none)
      (h : Spells w vars rest block) :
      Spells w vars (ins :: rest) block
  | cons {vars' : Variables} {ins : Instr} {s : Statement} {rest : List Instr} {block : Block}
      (hsame : SameVars vars vars')
      (hwritten : (statement w vars' ins).1 = some s)
      (h : Spells w vars rest block) :
      Spells w vars (ins :: rest) (s :: block)

/-- What running Java code shows of a walk.  An instruction may have no statement; a comparison may
be written negated, or stand alone where its outcome does not matter. -/
inductive Renders (w : Writing) (vars : Variables) : List FlowEvent → List Action → Prop
  | nil :
      Renders w vars [] []
  | silent {ins : Instr} {flow : List FlowEvent} {events : List Action}
      (hunwritten : (statement w vars ins).1 = none)
      (h : Renders w vars flow events) :
      Renders w vars (.performs ins :: flow) events
  | performed {vars' : Variables} {ins : Instr} {s : Statement} {flow : List FlowEvent}
      {events : List Action}
      (hsame : SameVars vars vars')
      (hwritten : (statement w vars' ins).1 = some s)
      (h : Renders w vars flow events) :
      Renders w vars (.performs ins :: flow) (.ran s :: events)
  | tested {vars' : Variables} {ins : Instr} {holds : Bool} {flow : List FlowEvent}
      {events : List Action} (negate : Bool)
      (hsame : SameVars vars vars')
      (h : Renders w vars flow events) :
      Renders w vars (.tests ins holds :: flow)
        (.tested (condition vars' w.method.owner ins negate).bare (holds != negate) :: events)
  | discarded {vars' : Variables} {ins : Instr} {holds : Bool} {flow : List FlowEvent}
      {events : List Action}
      (hsame : SameVars vars vars')
      (h : Renders w vars flow events) :
      Renders w vars (.tests ins holds :: flow)
        (.ran (.expression (condition vars' w.method.owner ins false)) :: events)

section Running

variable {w : Writing} {vars : Variables}

theorem Renders.append
    {flow flow' : List FlowEvent}
    {events events' : List Action}
    (h : Renders w vars flow events)
    (h' : Renders w vars flow' events') :
    Renders w vars (flow ++ flow') (events ++ events') := by
  induction h with
  | nil => exact h'
  | silent hunwritten _ ih => exact .silent hunwritten ih
  | performed hsame hwritten _ ih => exact .performed hsame hwritten ih
  | tested negate hsame _ ih => exact .tested negate hsame ih
  | discarded hsame _ ih => exact .discarded hsame ih

theorem Renders.of_nil
    {events : List Action}
    (h : Renders w vars [] events) :
    events = [] := by
  cases h
  rfl

theorem Renders.of_performs
    {ins : Instr}
    {flow : List FlowEvent}
    {events : List Action}
    (h : Renders w vars (.performs ins :: flow) events) :
    (statement w vars ins).1 = none ∧ Renders w vars flow events ∨
      ∃ vars' s rest, SameVars vars vars' ∧ (statement w vars' ins).1 = some s ∧
        events = .ran s :: rest ∧ Renders w vars flow rest := by
  cases h with
  | silent hunwritten h => exact .inl ⟨hunwritten, h⟩
  | performed hsame hwritten h => exact .inr ⟨_, _, _, hsame, hwritten, rfl, h⟩

theorem Renders.of_tests
    {ins : Instr}
    {holds : Bool}
    {flow : List FlowEvent}
    {events : List Action}
    (h : Renders w vars (.tests ins holds :: flow) events) :
    ∃ vars' shown rest, SameVars vars vars' ∧ events = shown :: rest ∧ Renders w vars flow rest ∧
      ((∃ negate, shown =
          .tested (condition vars' w.method.owner ins negate).bare (holds != negate)) ∨
        shown = .ran (.expression (condition vars' w.method.owner ins false))) := by
  cases h with
  | tested negate hsame h => exact ⟨_, _, _, hsame, rfl, h, .inl ⟨negate, rfl⟩⟩
  | discarded hsame h => exact ⟨_, _, _, hsame, rfl, h, .inr rfl⟩

/-- The events of statements that do their work and go on. -/
def ranAll (block : Block) : List Action :=
  block.map .ran

theorem Spells.renders
    {code : List Instr}
    {block : Block}
    (h : Spells w vars code block) :
    Renders w vars (code.map .performs) (ranAll block) := by
  induction h with
  | nil => exact .nil
  | silent hunwritten _ ih => exact .silent hunwritten ih
  | cons hsame hwritten _ ih => exact .performed hsame hwritten ih

/-- There are no labels among the statements of instructions. -/
theorem Spells.not_behind
    {code : List Instr}
    {block rest found : Block}
    {name : String}
    (h : Spells w vars code block) :
    ¬ Java.Behind block rest name found := by
  induction h with
  | nil => exact Java.not_behind_nil
  | silent _ _ ih => exact ih
  | @cons vars' ins s _ _ _ hwritten _ ih =>
      rwa [Java.behind_cons_of_plain (form_of_statement vars' w hwritten)]

/-- Instructions that stay in the method run one after the other. -/
theorem Spells.runs_iff
    {code : List Instr}
    {block rest whole : Block}
    {events : List Action}
    (h : Spells w vars code block)
    (hstays : ∀ ins ∈ code, ins.leaves = false) :
    Java.Runs whole (block ++ rest) events ↔
      ∃ later, events = ranAll block ++ later ∧ Java.Runs whole rest later := by
  induction h generalizing events with
  | nil => simp [ranAll]
  | silent _ _ ih => exact ih fun ins hins => hstays ins (List.mem_cons_of_mem _ hins)
  | @cons vars' ins s code block _ hwritten _ ih =>
      have hplain := plain_of_statement vars' w (hstays _ List.mem_cons_self) hwritten
      have hbehind := fun events =>
        @ih events fun ins hins => hstays ins (List.mem_cons_of_mem _ hins)
      rw [List.cons_append, Java.runs_plain_iff hplain]
      constructor
      · rintro ⟨more, rfl, hrun⟩
        obtain ⟨later, rfl, hlast⟩ := (hbehind more).1 hrun
        exact ⟨later, rfl, hlast⟩
      · rintro ⟨later, rfl, hrun⟩
        exact ⟨_, rfl, (hbehind _).2 ⟨later, rfl, hrun⟩⟩

/-- Code that ends by leaving the method is run to its end, whatever stands behind it. -/
theorem Spells.runs_leaving_iff
    {ahead : List Instr}
    {last : Instr}
    {block rest whole : Block}
    {events : List Action}
    (h : Spells w vars (ahead ++ [last]) block)
    (hstays : ∀ ins ∈ ahead, ins.leaves = false)
    (hleaves : last.leaves = true) :
    Java.Runs whole (block ++ rest) events ↔ events = ranAll block := by
  induction ahead generalizing block events with
  | nil =>
      cases h with
      | silent hunwritten _ =>
          obtain ⟨s, hwritten, -⟩ := leaving_of_statement vars w hleaves
          simp [hwritten] at hunwritten
      | @cons vars' _ s _ _ _ hwritten h =>
          cases h
          obtain ⟨_, hsame, hleaving⟩ := leaving_of_statement vars' w hleaves
          obtain rfl := Option.some.inj (hwritten.symm.trans hsame)
          exact Java.runs_leaving_iff hleaving
  | cons ins ahead ih =>
      have hstays' := fun ins hins => hstays ins (List.mem_cons_of_mem _ hins)
      cases h with
      | silent _ h => exact ih h hstays'
      | @cons vars' _ s _ block _ hwritten h =>
          have hplain := plain_of_statement vars' w (hstays _ List.mem_cons_self) hwritten
          rw [List.cons_append, Java.runs_plain_iff hplain]
          simp only [ih h hstays']
          simp [ranAll]

end Running

section Conditions

variable {src : Source} {vars vars' : Variables}
variable {id : NodeId}

/-- One short circuit is part of another. -/
def Joins (src : Source) (id part : NodeId) : Prop :=
  ∃ sc, (src.node id).kind.base = .shortCircuit sc ∧ (part = sc.first ∨ part = sc.second)

theorem conditionWithin_single
    {ins : Instr}
    (vars : Variables)
    (depth : Nat)
    (negate : Bool)
    (hplain : ∀ sc, (src.node id).kind.base ≠ .shortCircuit sc)
    (hcode : (src.node id).ins = [ins]) :
    src.conditionWithin vars (depth + 1) id negate =
      condition vars src.writing.method.owner ins negate := by
  rw [Source.conditionWithin]
  split
  · next sc hjoined => exact absurd hjoined (hplain sc)
  · simp [hcode]

theorem joined?_conditionWithin
    {sc : ShortCircuit}
    (vars : Variables)
    (depth : Nat)
    (negate : Bool)
    (hjoined : (src.node id).kind.base = .shortCircuit sc) :
    (src.conditionWithin vars (depth + 1) id negate).joined? =
      some (sc.isAnd != negate,
        (src.conditionWithin vars depth sc.first (sc.isNot != negate)).asOperand,
        (src.conditionWithin vars depth sc.second negate).asOperand) := by
  rw [Source.conditionWithin]
  simp only [hjoined]
  exact Expression.joined?_binary ..

/-- No condition is part of its own parts. -/
theorem not_joins_back
    (h : src.graph.Testable id)
    {part : NodeId}
    (hjoins : Joins src id part) :
    ¬ Relation.ReflTransGen (Joins src) part id := by
  induction h generalizing part with
  | single hplain => exact fun _ => (hplain _ hjoins.choose_spec.1).elim
  | @joined id sc hjoined _ _ _ hfirst hsecond =>
      intro hback
      obtain ⟨next, hnext, hcycle⟩ :
          ∃ next, Joins src part next ∧ Relation.ReflTransGen (Joins src) next part := by
        rcases hback.cases_head with rfl | ⟨next, hnext, hback⟩
        · exact ⟨part, hjoins, .refl⟩
        · exact ⟨next, hnext, hback.tail hjoins⟩
      obtain ⟨sc', hsame, rfl | rfl⟩ := hjoins
      all_goals
        obtain rfl : sc' = sc := by simpa [Source.node, hjoined, eq_comm] using hsame
      · exact hfirst hnext hcycle
      · exact hsecond hnext hcycle

/-- A written condition is decided by the same tests as the condition of a node, and comes out
alike, or the other way round where it is negated. -/
structure Conveys (w : Writing) (vars : Variables) (g : FlowGraph) (id : NodeId) (e : Expression)
    (negate : Bool) : Prop where
  evaluates : ∀ flow holds, g.Decides id flow holds →
    ∃ events, Java.Evaluates e events (holds != negate) ∧ Renders w vars flow events
  decides : ∀ events holds, Java.Evaluates e events holds →
    ∃ flow, g.Decides id flow (holds != negate) ∧ Renders w vars flow events

theorem conveys_single
    {ins : Instr}
    (hsame : SameVars vars vars')
    (depth : Nat)
    (negate : Bool)
    (hplain : ∀ sc, (src.node id).kind.base ≠ .shortCircuit sc)
    (hcode : (src.node id).ins = [ins]) :
    Conveys src.writing vars src.graph id (src.conditionWithin vars' (depth + 1) id negate)
      negate := by
  rw [conditionWithin_single vars' depth negate hplain hcode]
  have hsimple := joined?_condition vars' src.writing.method.owner ins negate
  constructor
  · intro flow holds hdecided
    obtain rfl := (FlowGraph.decides_single_iff hplain hcode).1 hdecided
    exact ⟨_, .single _ hsimple, .tested negate hsame .nil⟩
  · intro events holds hevaluated
    obtain rfl := (Java.Evaluates.single_iff hsimple).1 hevaluated
    refine ⟨_, (FlowGraph.decides_single_iff hplain hcode).2 rfl, ?_⟩
    have hshown :=
      @Renders.tested src.writing vars vars' ins (holds != negate) [] [] negate hsame .nil
    have hundone : ((holds != negate) != negate) = holds := by cases holds <;> cases negate <;> rfl
    rwa [hundone] at hshown

theorem conveys_joined
    {sc : ShortCircuit}
    {depth : Nat}
    {negate : Bool}
    (hjoined : (src.node id).kind.base = .shortCircuit sc)
    (hcode : (src.node id).ins = [])
    (hfirst : Conveys src.writing vars src.graph sc.first
      (src.conditionWithin vars' depth sc.first (sc.isNot != negate)) (sc.isNot != negate))
    (hsecond : Conveys src.writing vars src.graph sc.second
      (src.conditionWithin vars' depth sc.second negate) negate) :
    Conveys src.writing vars src.graph id (src.conditionWithin vars' (depth + 1) id negate)
      negate := by
  have htwoParts := joined?_conditionWithin vars' depth negate hjoined
  have hthrough (a b c : Bool) : ((a != b) != (b != c)) = (a != c) := by
    cases a <;> cases b <;> cases c <;> rfl
  have hswap (a b c : Bool) : ((a != c) != b) = (a != (b != c)) := by
    cases a <;> cases b <;> cases c <;> rfl
  have hxor_xor (a b : Bool) : ((a != b) != b) = a := by cases a <;> cases b <;> rfl
  constructor
  · intro flow holds hdecided
    rcases (FlowGraph.decides_joined_iff hjoined hcode).1 hdecided with
      ⟨htested, hanswer⟩ | ⟨before, after, rfl, htested, hrest⟩
    · obtain ⟨events, hevaluated, hshown⟩ := hfirst.evaluates _ _ htested
      rw [hthrough] at hevaluated
      exact ⟨events, .settled htwoParts (Java.Evaluates.asOperand_iff.2 hevaluated)
        (by simpa), hshown⟩
    · obtain ⟨events, hevaluated, hshown⟩ := hfirst.evaluates _ _ htested
      obtain ⟨more, hevaluated', hshown'⟩ := hsecond.evaluates _ _ hrest
      rw [hthrough] at hevaluated
      exact ⟨_, .passed htwoParts (Java.Evaluates.asOperand_iff.2 hevaluated)
        (Java.Evaluates.asOperand_iff.2 hevaluated'), hshown.append hshown'⟩
  · intro events holds hevaluated
    rcases (Java.Evaluates.joined_iff htwoParts).1 hevaluated with
      ⟨htested, hanswer⟩ | ⟨before, after, rfl, htested, hrest⟩
    · obtain ⟨flow, hdecided, hshown⟩ := hfirst.decides _ _ (Java.Evaluates.asOperand_iff.1 htested)
      rw [← hswap] at hdecided
      have hsettled : (holds != negate) ≠ sc.isAnd := fun he => hanswer (by rw [← he, hxor_xor])
      exact ⟨flow, (FlowGraph.decides_joined_iff hjoined hcode).2
        (.inl ⟨hdecided, hsettled⟩), hshown⟩
    · obtain ⟨flow, hdecided, hshown⟩ := hfirst.decides _ _ (Java.Evaluates.asOperand_iff.1 htested)
      obtain ⟨more, hdecided', hshown'⟩ :=
        hsecond.decides _ _ (Java.Evaluates.asOperand_iff.1 hrest)
      rw [← hswap, hxor_xor] at hdecided
      exact ⟨_, (FlowGraph.decides_joined_iff hjoined hcode).2
        (.inr ⟨_, _, rfl, hdecided, hdecided'⟩),
        hshown.append hshown'⟩

/-- The parts of a condition are slots of the graph, and none of them is part of itself: the number
of slots bounds the depth of a condition. -/
theorem conveys_of_parts
    (h : src.graph.Testable id)
    (hsame : SameVars vars vars')
    (depth : Nat)
    (negate : Bool)
    (parts : Finset NodeId)
    (hmem : ∀ part, Relation.ReflTransGen (Joins src) id part → part ∈ parts)
    (hbound : parts.card ≤ depth) :
    Conveys src.writing vars src.graph id (src.conditionWithin vars' depth id negate) negate := by
  induction h generalizing depth negate parts with
  | @single id ins hplain hcode =>
      obtain ⟨depth, rfl⟩ : ∃ d, depth = d + 1 :=
        Nat.exists_eq_add_of_le' ((Finset.card_pos.2 ⟨id, hmem id .refl⟩).trans_le hbound)
      exact conveys_single hsame depth negate hplain hcode
  | @joined id sc hjoined hcode hfirst hsecond ih₁ ih₂ =>
      obtain ⟨depth, rfl⟩ : ∃ d, depth = d + 1 :=
        Nat.exists_eq_add_of_le' ((Finset.card_pos.2 ⟨id, hmem id .refl⟩).trans_le hbound)
      have hsmaller : (parts.erase id).card ≤ depth := by
        rw [Finset.card_erase_of_mem (hmem id .refl)]
        omega
      have hinside (part : NodeId) (hjoins : Joins src id part) (inner : NodeId)
          (hreach : Relation.ReflTransGen (Joins src) part inner) : inner ∈ parts.erase id :=
        Finset.mem_erase.2
          ⟨fun he => not_joins_back (.joined hjoined hcode hfirst hsecond) hjoins (he ▸ hreach),
            hmem inner (.head hjoins hreach)⟩
      exact conveys_joined hjoined hcode
        (ih₁ depth (sc.isNot != negate) _ (hinside _ ⟨sc, hjoined, .inl rfl⟩) hsmaller)
        (ih₂ depth negate _ (hinside _ ⟨sc, hjoined, .inr rfl⟩) hsmaller)

theorem testable_of_joins
    (h : src.graph.Testable id)
    {part : NodeId}
    (hreach : Relation.ReflTransGen (Joins src) id part) :
    src.graph.Testable part := by
  induction hreach with
  | refl => exact h
  | tail _ hjoins ih =>
      obtain ⟨sc, hjoined, hpart⟩ := hjoins
      cases ih with
      | single hplain => exact absurd hjoined (hplain sc)
      | joined hsame _ hfirst hsecond =>
          obtain rfl : sc = _ := by simpa [Source.node, hsame, eq_comm] using hjoined
          rcases hpart with rfl | rfl
          · exact hfirst
          · exact hsecond

/-- The condition of a node is written faithfully. -/
theorem conveys_condition
    (h : src.graph.Testable id)
    (hsame : SameVars vars vars')
    (negate : Bool) :
    Conveys src.writing vars src.graph id
      (src.conditionWithin vars' (src.graph.size + 1) id negate) negate :=
  conveys_of_parts h hsame _ negate (Finset.range src.graph.size)
    (fun _ hreach => Finset.mem_range.2 (testable_of_joins h hreach).lt_size)
    (by simp)

end Conditions

end Emission
end DalvikDecompiler
