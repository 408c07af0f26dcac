import DalvikDecompiler.Proofs.Java.Outcomes

/-!
# Labels and the code behind them

**Input.** Code with labels and with jumps to them.

A label may stand inside of branches and loops, which a jump to it enters.  From there on code runs
as if it had come there in any other way: at the end of a branch it goes on behind the statement,
and at the end of the body of a loop with the next turn.

**Results.**
* `doesFrom_append_iff`: where a label of two pieces of code stands.
* `doesFrom_of_mem`: code can be entered at each label of its text.
* `Executes`: what a whole body does, with all its jumps.
-/

namespace DalvikDecompiler
namespace Java

/-- What the text of a statement is made of. -/
inductive Mark where
  | label (name : String)
  | goto (name : String)
  /-- The condition of a branch or a loop, or the selector of a switch. -/
  | tests (value : Expression)
  | simple (s : Statement)

/-- Whether a mark is neither a label nor a jump to one. -/
def Mark.isInert : Mark → Bool
  | .label _ => false
  | .goto _ => false
  | _ => true

mutual

/-- The marks of a statement in the order of its text.  Jumps without a label have none, since some
of them are dropped at the end of a loop. -/
def Statement.marks : Statement → List Mark
  | .block body => blockMarks body
  | .ifThen condition thenBlock elseBlock =>
      .tests condition :: (blockMarks thenBlock ++ elseMarks elseBlock)
  | .whileLoop condition body => .tests condition :: blockMarks body
  | .doLoop condition body => blockMarks body ++ [.tests condition]
  | .switch selector arms => .tests selector :: armMarks arms
  | .tryCatch body clauses => blockMarks body ++ clauseMarks clauses
  | .jump .goto (some name) => [.goto name]
  | .jump .. => []
  | .label name => [.label name]
  | .ret value => [.simple (.ret value)]
  | .throw value => [.simple (.throw value)]
  | .expression value => [.simple (.expression value)]
  | .declaration decl init => [.simple (.declaration decl init)]

/-- The marks of a block. -/
def blockMarks : List Statement → List Mark
  | [] => []
  | s :: rest => s.marks ++ blockMarks rest

/-- The marks of an else branch. -/
def elseMarks : Option (List Statement) → List Mark
  | none => []
  | some block => blockMarks block

/-- The marks of the arms of a switch. -/
def armMarks : List SwitchArm → List Mark
  | [] => []
  | .mk _ _ body :: rest => blockMarks body ++ armMarks rest

/-- The marks of handlers. -/
def clauseMarks : List CatchClause → List Mark
  | [] => []
  | .mk _ body :: rest => blockMarks body ++ clauseMarks rest

end

/-- The names of the labels among some marks. -/
def labelNames (marks : List Mark) : List String :=
  marks.filterMap fun
    | .label name => some name
    | _ => none

/-- The names of the jumps among some marks. -/
def gotoNames (marks : List Mark) : List String :=
  marks.filterMap fun
    | .goto name => some name
    | _ => none

theorem mem_gotoNames
    {marks : List Mark}
    {name : String} :
    name ∈ gotoNames marks ↔ .goto name ∈ marks := by
  simp only [gotoNames, List.mem_filterMap]
  constructor
  · rintro ⟨mark, hm, hfound⟩
    cases mark <;> simp_all
  · exact fun hm => ⟨_, hm, rfl⟩

@[simp] theorem blockMarks_nil :
    blockMarks [] = [] := rfl

@[simp] theorem blockMarks_cons
    (s : Statement)
    (rest : Block) :
    blockMarks (s :: rest) = s.marks ++ blockMarks rest := rfl

@[simp] theorem blockMarks_append
    (block block' : Block) :
    blockMarks (block ++ block') = blockMarks block ++ blockMarks block' := by
  induction block with
  | nil => rfl
  | cons s block ih => simp [ih]

@[simp] theorem armMarks_append
    (arms arms' : List SwitchArm) :
    armMarks (arms ++ arms') = armMarks arms ++ armMarks arms' := by
  induction arms with
  | nil => rfl
  | cons arm arms ih =>
      obtain ⟨keys, isDefault, body⟩ := arm
      simp [armMarks, ih]

theorem isInert_of_mem_blockMarks
    {block : Block}
    (h : ∀ s ∈ block, ∀ mark ∈ s.marks, mark.isInert = true) :
    ∀ mark ∈ blockMarks block, mark.isInert = true := by
  induction block with
  | nil => nofun
  | cons s block ih =>
      intro mark hm
      rcases List.mem_append.1 hm with hm | hm
      · exact h s List.mem_cons_self mark hm
      · exact ih (fun t ht => h t (List.mem_cons_of_mem s ht)) mark hm

theorem Statement.Plain.isInert_of_mem_marks
    {s : Statement}
    (h : s.Plain) :
    ∀ mark ∈ s.marks, mark.isInert = true := by
  cases h <;> simp [Statement.marks, Mark.isInert]

theorem Statement.Leaving.isInert_of_mem_marks
    {s : Statement}
    (h : s.Leaving) :
    ∀ mark ∈ s.marks, mark.isInert = true := by
  cases h <;> simp [Statement.marks, Mark.isInert]

mutual

/-- What a statement does from a label in it on.  Inside a switch or a protected region it is not
watched any further. -/
def Statement.doesFrom (name : String) : Statement → Run
  | .label other => fun events o => other = name ∧ Does [] events o
  | .ifThen _ thenBlock elseBlock => fun events o =>
      doesFrom name thenBlock events o ∨ elseDoesFrom name elseBlock events o
  | .whileLoop c body => WhileTurn c body (doesFrom name body)
  | .doLoop c body => DoTurn c body (doesFrom name body)
  | s => fun events o => .label name ∈ s.marks ∧ events = [] ∧ o = .cut

/-- What a block does from a label in it on. -/
def doesFrom (name : String) : List Statement → Run
  | [] => fun _ _ => False
  | s :: rest => fun events o =>
      Splits (s.doesFrom name) rest events o ∨ doesFrom name rest events o

/-- What an else branch does from a label in it on. -/
def elseDoesFrom (name : String) : Option (List Statement) → Run
  | none => fun _ _ => False
  | some block => doesFrom name block

end

/-- What a whole body does if each jump leads to its label. -/
inductive Executes (whole : Block) : Run → Run
  | ends {run : Run} {events : List Action} {o : Outcome}
      (h : run events o)
      (hends : ∀ name, o ≠ .jumped name) :
      Executes whole run events o
  | jumps {run : Run} {name : String} {events later : List Action} {o : Outcome}
      (h : run events (.jumped name))
      (honward : Executes whole (doesFrom name whole) later o) :
      Executes whole run (events ++ later) o

section Entering

variable {name : String} {block rest : Block} {events : List Action} {o : Outcome}

theorem elseDoesFrom_eq
    (elseBlock : Option Block) :
    elseDoesFrom name elseBlock = doesFrom name (elseBlock.getD []) := by
  cases elseBlock <;> rfl

theorem doesFrom_append_iff :
    doesFrom name (block ++ rest) events o ↔
      Splits (doesFrom name block) rest events o ∨ doesFrom name rest events o := by
  induction block with
  | nil =>
      refine ⟨.inr, fun h => h.resolve_left fun h => ?_⟩
      cases h <;> contradiction
  | cons s block ih =>
      have hcons : Splits (doesFrom name (s :: block)) rest events o ↔
          Splits (Splits (s.doesFrom name) block) rest events o ∨
            Splits (doesFrom name block) rest events o := splits_or_iff
      rw [hcons, ← splits_append_iff, or_assoc, ← ih]
      rfl

mutual

theorem statementDoesFrom_of_mem :
    ∀ s : Statement, .label name ∈ s.marks → s.doesFrom name [] .cut
  | .label other, h => by
      obtain rfl : name = other := by simpa [Statement.marks] using h
      exact ⟨rfl, .cut⟩
  | .ifThen _ thenBlock elseBlock, h => by
      have h : .label name ∈ blockMarks thenBlock ∨ .label name ∈ elseMarks elseBlock := by
        simpa [Statement.marks] using h
      exact h.imp (doesFrom_of_mem thenBlock) (elseDoesFrom_of_mem elseBlock)
  | .whileLoop _ body, h => by
      have h : .label name ∈ blockMarks body := by simpa [Statement.marks] using h
      exact .escaped (doesFrom_of_mem body h) rfl
  | .doLoop _ body, h => by
      have h : .label name ∈ blockMarks body := by simpa [Statement.marks] using h
      exact .escaped (doesFrom_of_mem body h) rfl
  | .block _, h => ⟨h, rfl, rfl⟩
  | .switch .., h => ⟨h, rfl, rfl⟩
  | .tryCatch .., h => ⟨h, rfl, rfl⟩
  | .jump .., h => ⟨h, rfl, rfl⟩
  | .ret _, h => ⟨h, rfl, rfl⟩
  | .throw _, h => ⟨h, rfl, rfl⟩
  | .expression _, h => ⟨h, rfl, rfl⟩
  | .declaration .., h => ⟨h, rfl, rfl⟩

/-- Code can be entered at each label of its text. -/
theorem doesFrom_of_mem :
    ∀ block : List Statement, .label name ∈ blockMarks block → doesFrom name block [] .cut
  | [], h => absurd h List.not_mem_nil
  | s :: rest, h => by
      rcases List.mem_append.1 h with h | h
      · exact .inl (.ends (fun h => by cases h) (statementDoesFrom_of_mem s h))
      · exact .inr (doesFrom_of_mem rest h)

theorem elseDoesFrom_of_mem :
    ∀ elseBlock : Option (List Statement), .label name ∈ elseMarks elseBlock →
      elseDoesFrom name elseBlock [] .cut
  | none, h => absurd h List.not_mem_nil
  | some block, h => doesFrom_of_mem block h

end

mutual

theorem mem_of_statementDoesFrom :
    ∀ (s : Statement) (events : List Action) (o : Outcome),
      s.doesFrom name events o → .label name ∈ s.marks
  | .label other, _, _, h => by
      obtain ⟨rfl, -⟩ := h
      exact List.mem_cons_self
  | .ifThen _ thenBlock elseBlock, _, _, h => by
      have h : .label name ∈ blockMarks thenBlock ∨ .label name ∈ elseMarks elseBlock :=
        h.imp (mem_of_doesFrom thenBlock _ _) (mem_of_elseDoesFrom elseBlock _ _)
      simpa [Statement.marks] using h
  | .whileLoop _ body, _, _, h => by
      obtain ⟨_, _, h⟩ := WhileTurn.exists_run h
      exact List.mem_cons_of_mem _ (mem_of_doesFrom body _ _ h)
  | .doLoop _ body, _, _, h => by
      obtain ⟨_, _, h⟩ := DoTurn.exists_run h
      exact List.mem_append_left _ (mem_of_doesFrom body _ _ h)
  | .block _, _, _, h => h.1
  | .switch .., _, _, h => h.1
  | .tryCatch .., _, _, h => h.1
  | .jump .., _, _, h => h.1
  | .ret _, _, _, h => h.1
  | .throw _, _, _, h => h.1
  | .expression _, _, _, h => h.1
  | .declaration .., _, _, h => h.1

/-- Code can only be entered at the labels of its text. -/
theorem mem_of_doesFrom :
    ∀ (block : List Statement) (events : List Action) (o : Outcome),
      doesFrom name block events o → .label name ∈ blockMarks block
  | [], _, _, h => h.elim
  | s :: rest, _, _, h => by
      rcases h with h | h
      · obtain ⟨_, _, h⟩ := Splits.exists_run h
        exact List.mem_append_left _ (mem_of_statementDoesFrom s _ _ h)
      · exact List.mem_append_right _ (mem_of_doesFrom rest _ _ h)

theorem mem_of_elseDoesFrom :
    ∀ (elseBlock : Option (List Statement)) (events : List Action) (o : Outcome),
      elseDoesFrom name elseBlock events o → .label name ∈ elseMarks elseBlock
  | none, _, _, h => h.elim
  | some block, _, _, h => mem_of_doesFrom block _ _ h

end

/-- Code without labels cannot be entered. -/
theorem not_doesFrom
    (h : ∀ mark ∈ blockMarks block, mark.isInert = true) :
    ¬ doesFrom name block events o := by
  intro hfrom
  have hinert := h _ (mem_of_doesFrom block events o hfrom)
  cases hinert

/-- Behind code without labels only the rest can be entered. -/
theorem doesFrom_inert_append_iff
    (h : ∀ mark ∈ blockMarks block, mark.isInert = true) :
    doesFrom name (block ++ rest) events o ↔ doesFrom name rest events o := by
  refine doesFrom_append_iff.trans ⟨fun hfrom => hfrom.resolve_left fun hsplits => ?_, .inr⟩
  obtain ⟨_, _, hblock⟩ := Splits.exists_run hsplits
  exact not_doesFrom h hblock

/-- Code behind a label is run from there, or from a label behind it. -/
theorem doesFrom_label_iff
    {other : String} :
    doesFrom name (.label other :: rest) events o ↔
      other = name ∧ Does rest events o ∨ doesFrom name rest events o := by
  have hrest : Does rest events o ↔ Splits (Does []) rest events o :=
    @does_append_iff [] rest events o
  refine or_congr ?_ .rfl
  rw [hrest]
  constructor
  · intro h
    cases h with
    | onward hfirst hsecond => exact ⟨hfirst.1, .onward hfirst.2 hsecond⟩
    | ends hstops hfirst => exact ⟨hfirst.1, .ends hstops hfirst.2⟩
  · rintro ⟨hname, h⟩
    exact h.map [] fun _ _ hdoes => ⟨hname, hdoes⟩

end Entering

end Java
end DalvikDecompiler
