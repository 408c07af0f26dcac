import DalvikDecompiler.Java.Ast

/-!
# Running Java code

A block is run together with the code behind it.  Conditions have no values of their own: each of
them may come out either way, and a run says how it did.  `&&` and `||` test their second condition
only if the first one leaves the answer open.

The statements run here are those of code without loops, switches and protected regions.

Main statements: `runs_plain_iff`, `runs_leaving_iff`, `behind_append`.
-/

namespace DalvikDecompiler
namespace Java

/-- What happens while code runs. -/
inductive Action where
  /-- A statement does its work. -/
  | ran (s : Statement)
  /-- A condition comes out true or false. -/
  | tested (condition : Expression) (holds : Bool)

namespace Expression

/-- An expression without the parentheses around it. -/
def bare : Expression → Expression
  | .parenthesis inner => inner.bare
  | e => e

/-- The conditions that `&&` or `||` joins, and whether both of them have to hold. -/
def joined? (e : Expression) : Option (Bool × Expression × Expression) :=
  match e.bare with
  | .binary op left right =>
      if op = "&&" then some (true, left, right)
      else if op = "||" then some (false, left, right)
      else none
  | _ => none

@[simp] theorem bare_asOperand
    (e : Expression) :
    e.asOperand.bare = e.bare := by
  cases e <;> rfl

@[simp] theorem joined?_asOperand
    (e : Expression) :
    e.asOperand.joined? = e.joined? := by
  simp [joined?]

theorem joined?_binary
    (both : Bool)
    (left right : Expression) :
    (binary (if both then "&&" else "||") left right).joined? = some (both, left, right) := by
  cases both <;> rfl

end Expression

/-- How a condition comes out, and which tests decide it. -/
inductive Evaluates : Expression → List Action → Bool → Prop
  | single {e : Expression} (holds : Bool)
      (hplain : e.joined? = none) :
      Evaluates e [.tested e.bare holds] holds
  /-- The first condition gives the answer. -/
  | settled {e first second : Expression} {both holds : Bool} {before : List Action}
      (hjoined : e.joined? = some (both, first, second))
      (htested : Evaluates first before holds)
      (hanswer : holds ≠ both) :
      Evaluates e before holds
  /-- The first condition leaves the answer to the second one. -/
  | passed {e first second : Expression} {both holds : Bool} {before after : List Action}
      (hjoined : e.joined? = some (both, first, second))
      (htested : Evaluates first before both)
      (hrest : Evaluates second after holds) :
      Evaluates e (before ++ after) holds

namespace Evaluates

theorem asOperand_iff
    {e : Expression}
    {events : List Action}
    {holds : Bool} :
    Evaluates e.asOperand events holds ↔ Evaluates e events holds := by
  constructor
  · intro h
    cases h with
    | single _ hplain =>
        rw [Expression.bare_asOperand]
        exact .single holds (Expression.joined?_asOperand e ▸ hplain)
    | settled hjoined htested hanswer =>
        exact .settled (Expression.joined?_asOperand e ▸ hjoined) htested hanswer
    | passed hjoined htested hrest =>
        exact .passed (Expression.joined?_asOperand e ▸ hjoined) htested hrest
  · intro h
    cases h with
    | single _ hplain =>
        rw [← Expression.bare_asOperand]
        exact .single holds (Expression.joined?_asOperand e ▸ hplain)
    | settled hjoined htested hanswer =>
        exact .settled (Expression.joined?_asOperand e ▸ hjoined) htested hanswer
    | passed hjoined htested hrest =>
        exact .passed (Expression.joined?_asOperand e ▸ hjoined) htested hrest

theorem single_iff
    {e : Expression}
    {events : List Action}
    {holds : Bool}
    (hplain : e.joined? = none) :
    Evaluates e events holds ↔ events = [.tested e.bare holds] := by
  constructor
  · intro h
    cases h with
    | single => rfl
    | settled hjoined => simp [hplain] at hjoined
    | passed hjoined => simp [hplain] at hjoined
  · rintro rfl
    exact .single holds hplain

theorem joined_iff
    {e first second : Expression}
    {both holds : Bool}
    {events : List Action}
    (hjoined : e.joined? = some (both, first, second)) :
    Evaluates e events holds ↔
      Evaluates first events holds ∧ holds ≠ both ∨
        ∃ before after,
          events = before ++ after ∧ Evaluates first before both ∧
            Evaluates second after holds := by
  constructor
  · intro h
    cases h with
    | single _ hplain => simp [hjoined] at hplain
    | settled hsame htested hanswer =>
        obtain ⟨rfl, rfl, rfl⟩ : _ ∧ _ ∧ _ := by simpa [hjoined] using hsame
        exact .inl ⟨htested, hanswer⟩
    | passed hsame htested hrest =>
        obtain ⟨rfl, rfl, rfl⟩ : _ ∧ _ ∧ _ := by simpa [hjoined] using hsame
        exact .inr ⟨_, _, rfl, htested, hrest⟩
  · rintro (⟨htested, hanswer⟩ | ⟨before, after, rfl, htested, hrest⟩)
    · exact .settled hjoined htested hanswer
    · exact .passed hjoined htested hrest

end Evaluates

/-- What is run from a label on, when a block is followed by more code. -/
inductive Behind : Block → Block → String → Block → Prop
  | here {name : String} {rest more : Block} :
      Behind (.label name :: rest) more name (rest ++ more)
  | later {s : Statement} {name : String} {rest more found : Block}
      (h : Behind rest more name found) :
      Behind (s :: rest) more name found
  | inThen {c : Expression} {thenBlock : Block} {elseBlock : Option Block} {name : String}
      {rest more found : Block}
      (h : Behind thenBlock (rest ++ more) name found) :
      Behind (.ifThen c thenBlock elseBlock :: rest) more name found
  | inElse {c : Expression} {thenBlock : Block} {elseBlock : Option Block} {name : String}
      {rest more found : Block}
      (h : Behind (elseBlock.getD []) (rest ++ more) name found) :
      Behind (.ifThen c thenBlock elseBlock :: rest) more name found

/-- What happens when a block is run that is part of a whole body. -/
inductive Runs (whole : Block) : Block → List Action → Prop
  | nil :
      Runs whole [] []
  | label {name : String} {rest : Block} {events : List Action}
      (h : Runs whole rest events) :
      Runs whole (.label name :: rest) events
  | declared {decl : VarDecl} {rest : Block} {events : List Action}
      (h : Runs whole rest events) :
      Runs whole (.declaration decl none :: rest) events
  | initialized {decl : VarDecl} {value : Expression} {rest : Block} {events : List Action}
      (h : Runs whole rest events) :
      Runs whole (.declaration decl (some value) :: rest)
        (.ran (.declaration decl (some value)) :: events)
  | expression {value : Expression} {rest : Block} {events : List Action}
      (hplain : value.joined? = none)
      (h : Runs whole rest events) :
      Runs whole (.expression value :: rest) (.ran (.expression value) :: events)
  /-- An expression of joined conditions tests them, whatever comes out. -/
  | tests {value : Expression} {holds : Bool} {rest : Block} {before events : List Action}
      (hjoined : value.joined? ≠ none)
      (htested : Evaluates value before holds)
      (h : Runs whole rest events) :
      Runs whole (.expression value :: rest) (before ++ events)
  | ret {value : Option Expression} {rest : Block} :
      Runs whole (.ret value :: rest) [.ran (.ret value)]
  | throw {value : Expression} {rest : Block} :
      Runs whole (.throw value :: rest) [.ran (.throw value)]
  | ifThen {c : Expression} {thenBlock : Block} {elseBlock : Option Block} {holds : Bool}
      {rest : Block} {before events : List Action}
      (htested : Evaluates c before holds)
      (h : Runs whole ((if holds then thenBlock else elseBlock.getD []) ++ rest) events) :
      Runs whole (.ifThen c thenBlock elseBlock :: rest) (before ++ events)
  | goto {name : String} {rest target : Block} {events : List Action}
      (hfound : Behind whole [] name target)
      (h : Runs whole target events) :
      Runs whole (.jump .goto (some name) :: rest) events

namespace Statement

/-- A statement that does its work and goes on. -/
inductive Plain : Statement → Prop
  | expression {value : Expression} (hplain : value.joined? = none) : Plain (.expression value)
  | initialized {decl : VarDecl} {value : Expression} : Plain (.declaration decl (some value))

/-- A statement that leaves the method. -/
inductive Leaving : Statement → Prop
  | ret {value : Option Expression} : Leaving (.ret value)
  | throw {value : Expression} : Leaving (.throw value)

/-- A statement at which nothing happens. -/
inductive Silent : Statement → Prop
  | label {name : String} : Silent (.label name)
  | declared {decl : VarDecl} : Silent (.declaration decl none)

end Statement

section Running

variable {whole rest : Block}
variable {events : List Action}

theorem runs_plain_iff
    {s : Statement}
    (hplain : s.Plain) :
    Runs whole (s :: rest) events ↔ ∃ later, events = .ran s :: later ∧ Runs whole rest later := by
  constructor
  · intro h
    cases hplain with
    | expression hp =>
        cases h with
        | expression _ h => exact ⟨_, rfl, h⟩
        | tests hjoined => exact absurd hp hjoined
    | initialized =>
        cases h with
        | initialized h => exact ⟨_, rfl, h⟩
  · rintro ⟨later, rfl, h⟩
    cases hplain with
    | expression hp => exact .expression hp h
    | initialized => exact .initialized h

theorem runs_leaving_iff
    {s : Statement}
    (hleaving : s.Leaving) :
    Runs whole (s :: rest) events ↔ events = [.ran s] := by
  constructor
  · intro h
    cases hleaving <;> cases h <;> rfl
  · rintro rfl
    cases hleaving
    · exact .ret
    · exact .throw

theorem runs_silent_iff
    {front : Block}
    (hsilent : ∀ s ∈ front, s.Silent) :
    Runs whole (front ++ rest) events ↔ Runs whole rest events := by
  induction front with
  | nil => rfl
  | cons s front ih =>
      have hlater := ih fun t ht => hsilent t (List.mem_cons_of_mem s ht)
      rw [List.cons_append, ← hlater]
      constructor
      · intro h
        cases hsilent s List.mem_cons_self <;> cases h <;> assumption
      · intro h
        cases hsilent s List.mem_cons_self
        · exact .label h
        · exact .declared h

theorem runs_goto_iff
    {name : String} :
    Runs whole (.jump .goto (some name) :: rest) events ↔
      ∃ target, Behind whole [] name target ∧ Runs whole target events := by
  constructor
  · intro h
    cases h with
    | goto hfound h => exact ⟨_, hfound, h⟩
  · rintro ⟨target, hfound, h⟩
    exact .goto hfound h

theorem runs_ifThen_iff
    {c : Expression}
    {thenBlock : Block}
    {elseBlock : Option Block} :
    Runs whole (.ifThen c thenBlock elseBlock :: rest) events ↔
      ∃ before later holds,
        events = before ++ later ∧ Evaluates c before holds ∧
          Runs whole ((if holds then thenBlock else elseBlock.getD []) ++ rest) later := by
  constructor
  · intro h
    cases h with
    | ifThen htested h => exact ⟨_, _, _, rfl, htested, h⟩
  · rintro ⟨before, later, holds, rfl, htested, h⟩
    exact .ifThen htested h

end Running

section Labels

variable {front block more found : Block}
variable {name : String}

theorem not_behind_nil :
    ¬ Behind [] more name found :=
  fun h => by cases h

/-- Only labels and the branches of a statement are places that a jump may lead to. -/
theorem behind_cons_of_plain
    {s : Statement}
    (h : s.Plain ∨ s.Leaving) :
    Behind (s :: block) more name found ↔ Behind block more name found := by
  refine ⟨fun hbehind => ?_, .later⟩
  rcases h with h | h <;> cases h <;> cases hbehind <;> assumption

theorem not_behind_declared
    (h : ∀ s ∈ front, ∃ decl, s = .declaration decl none) :
    ¬ Behind front more name found := by
  induction front with
  | nil => exact not_behind_nil
  | cons s front ih =>
      intro hbehind
      obtain ⟨decl, rfl⟩ := h s List.mem_cons_self
      cases hbehind with
      | later hbehind => exact ih (fun t ht => h t (List.mem_cons_of_mem _ ht)) hbehind

theorem behind_append :
    Behind (front ++ block) more name found ↔
      Behind front (block ++ more) name found ∨ Behind block more name found := by
  induction front with
  | nil => exact ⟨.inr, fun h => h.resolve_left not_behind_nil⟩
  | cons s front ih =>
      constructor
      · intro h
        cases h with
        | here => exact .inl (List.append_assoc .. ▸ .here)
        | later h => exact (ih.1 h).imp_left .later
        | inThen h => exact .inl (.inThen (List.append_assoc .. ▸ h))
        | inElse h => exact .inl (.inElse (List.append_assoc .. ▸ h))
      · rintro (h | h)
        · cases h with
          | here => exact List.append_assoc .. ▸ .here
          | later h => exact .later (ih.2 (.inl h))
          | inThen h => exact .inThen (List.append_assoc .. ▸ h)
          | inElse h => exact .inElse (List.append_assoc .. ▸ h)
        · exact .later (ih.2 (.inr h))

theorem behind_ifThen_iff
    {c : Expression}
    {thenBlock : Block}
    {elseBlock : Option Block} :
    Behind [.ifThen c thenBlock elseBlock] more name found ↔
      Behind thenBlock more name found ∨ Behind (elseBlock.getD []) more name found := by
  constructor
  · intro h
    cases h with
    | later h => cases h
    | inThen h => exact .inl h
    | inElse h => exact .inr h
  · rintro (h | h)
    · exact .inThen h
    · exact .inElse h

end Labels

end Java
end DalvikDecompiler
