import DalvikDecompiler.Java.Ast
import Mathlib

/-!
# The scopes of variables in Java text

A declaration holds from where it stands to the end of its block: also inside the statements behind
it, but neither behind the branch, the loop body, the arm or the protected code that it stands in,
nor in the condition behind a loop body.  A handler has its variable in its own block.

**Results.** `strays` collects the names of variables that are used outside of every scope.  More
names in scope leave fewer of them, and code behind other code sees what this declares.
`blockDeclared` collects the names of all declarations, in whatever scope.
-/

namespace DalvikDecompiler
namespace Java

namespace Expression

mutual

/-- The variables that an expression names. -/
def locals : Expression → List String
  | .assignment target value _ => target.locals ++ value.locals
  | .binary _ left right => left.locals ++ right.locals
  | .unary _ operand _ => operand.locals
  | .invocation _ _ receiver args => optionalLocals receiver ++ localsOfAll args
  | .creation _ _ args => localsOfAll args
  | .fieldAccess _ _ object => object.locals
  | .arrayAccess array index => array.locals ++ index.locals
  | .cast _ operand => operand.locals
  | .literal .. => []
  | .localVar name => [name]
  | .typeName _ => []
  | .arrayInitializer _ elements => localsOfAll elements
  | .arrayCreation _ sizes => localsOfAll sizes
  | .parenthesis inner => inner.locals
  | .placeholder _ args => localsOfAll args

/-- The variables that an expression names, if there is one. -/
def optionalLocals : Option Expression → List String
  | none => []
  | some e => e.locals

/-- The variables that expressions name. -/
def localsOfAll : List Expression → List String
  | [] => []
  | e :: rest => e.locals ++ localsOfAll rest

end

end Expression

open Expression (optionalLocals localsOfAll)

/-- The variable that is in scope behind a statement because of it. -/
def Statement.bound : Statement → List String
  | .declaration decl _ => [decl.name]
  | _ => []

/-- The variables that are in scope behind a block because of its own declarations. -/
def boundNames (block : Block) : List String :=
  block.flatMap Statement.bound

/-- The used names that are not among those in scope. -/
def outside (names used : List String) : List String :=
  used.filter fun name => !names.contains name

mutual

/-- The names of variables that a statement uses outside of their scopes, if some names are in scope
around it. -/
def Statement.strays (names : List String) : Statement → List String
  | .block body => blockStrays names body
  | .ifThen condition thenBlock elseBlock =>
      outside names condition.locals ++ (blockStrays names thenBlock ++ elseStrays names elseBlock)
  | .whileLoop condition body => outside names condition.locals ++ blockStrays names body
  | .doLoop condition body => blockStrays names body ++ outside names condition.locals
  | .switch selector arms => outside names selector.locals ++ armStrays names arms
  | .tryCatch body clauses => blockStrays names body ++ clauseStrays names clauses
  | .ret value => outside names (optionalLocals value)
  | .throw value => outside names value.locals
  | .expression value => outside names value.locals
  | .declaration _ init => outside names (optionalLocals init)
  | .jump .. => []
  | .label _ => []

/-- The names that the statements of a block use outside of their scopes. -/
def blockStrays (names : List String) : List Statement → List String
  | [] => []
  | s :: rest => s.strays names ++ blockStrays (names ++ s.bound) rest

/-- The names that an else branch uses outside of their scopes. -/
def elseStrays (names : List String) : Option (List Statement) → List String
  | none => []
  | some block => blockStrays names block

/-- The names that the arms of a switch use outside of their scopes. -/
def armStrays (names : List String) : List SwitchArm → List String
  | [] => []
  | .mk _ _ body :: rest => blockStrays names body ++ armStrays names rest

/-- The names that handlers use outside of their scopes. -/
def clauseStrays (names : List String) : List CatchClause → List String
  | [] => []
  | .mk decl body :: rest => blockStrays (names ++ [decl.name]) body ++ clauseStrays names rest

end

mutual

/-- The names that are declared in a statement, also by its handlers, in the order of its text. -/
def Statement.declared : Statement → List String
  | .block body => blockDeclared body
  | .ifThen _ thenBlock elseBlock => blockDeclared thenBlock ++ elseDeclared elseBlock
  | .whileLoop _ body => blockDeclared body
  | .doLoop _ body => blockDeclared body
  | .switch _ arms => armDeclared arms
  | .tryCatch body clauses => blockDeclared body ++ clauseDeclared clauses
  | .declaration decl _ => [decl.name]
  | .ret _ => []
  | .throw _ => []
  | .expression _ => []
  | .jump .. => []
  | .label _ => []

/-- The names that are declared in a block. -/
def blockDeclared : List Statement → List String
  | [] => []
  | s :: rest => s.declared ++ blockDeclared rest

/-- The names that are declared in an else branch. -/
def elseDeclared : Option (List Statement) → List String
  | none => []
  | some block => blockDeclared block

/-- The names that are declared in the arms of a switch. -/
def armDeclared : List SwitchArm → List String
  | [] => []
  | .mk _ _ body :: rest => blockDeclared body ++ armDeclared rest

/-- The names that are declared by handlers and in them. -/
def clauseDeclared : List CatchClause → List String
  | [] => []
  | .mk decl body :: rest => decl.name :: (blockDeclared body ++ clauseDeclared rest)

end

theorem mem_outside
    {names used : List String}
    {name : String} :
    name ∈ outside names used ↔ name ∈ used ∧ name ∉ names := by
  simp [outside]

theorem outside_eq_nil
    {names used : List String} :
    outside names used = [] ↔ used ⊆ names := by
  simp [outside, List.filter_eq_nil_iff, List.subset_def]

@[simp] theorem boundNames_nil :
    boundNames [] = [] := rfl

@[simp] theorem boundNames_cons
    (s : Statement)
    (rest : Block) :
    boundNames (s :: rest) = s.bound ++ boundNames rest := rfl

@[simp] theorem boundNames_append
    (block block' : Block) :
    boundNames (block ++ block') = boundNames block ++ boundNames block' :=
  List.flatMap_append

@[simp] theorem blockStrays_nil
    (names : List String) :
    blockStrays names [] = [] := rfl

@[simp] theorem blockStrays_cons
    (names : List String)
    (s : Statement)
    (rest : Block) :
    blockStrays names (s :: rest) = s.strays names ++ blockStrays (names ++ s.bound) rest := rfl

theorem blockStrays_append
    (names : List String)
    (block block' : Block) :
    blockStrays names (block ++ block') =
      blockStrays names block ++ blockStrays (names ++ boundNames block) block' := by
  induction block generalizing names with
  | nil => simp
  | cons s block ih => simp [ih]

@[simp] theorem armStrays_append
    (names : List String)
    (arms arms' : List SwitchArm) :
    armStrays names (arms ++ arms') = armStrays names arms ++ armStrays names arms' := by
  induction arms with
  | nil => rfl
  | cons arm arms ih =>
      obtain ⟨keys, isDefault, body⟩ := arm
      simp [armStrays, ih]

@[simp] theorem blockDeclared_nil :
    blockDeclared [] = [] := rfl

@[simp] theorem blockDeclared_cons
    (s : Statement)
    (rest : Block) :
    blockDeclared (s :: rest) = s.declared ++ blockDeclared rest := rfl

@[simp] theorem blockDeclared_append
    (block block' : Block) :
    blockDeclared (block ++ block') = blockDeclared block ++ blockDeclared block' := by
  induction block with
  | nil => rfl
  | cons s block ih => simp [ih]

@[simp] theorem armDeclared_append
    (arms arms' : List SwitchArm) :
    armDeclared (arms ++ arms') = armDeclared arms ++ armDeclared arms' := by
  induction arms with
  | nil => rfl
  | cons arm arms ih =>
      obtain ⟨keys, isDefault, body⟩ := arm
      simp [armDeclared, ih]

section More

/-- With some more names in scope, what is still stray was so before, and what is not stray any more
is one of these names. -/
def Shrinks (more : List String) (strays fewer : List String) : Prop :=
  (∀ name ∈ fewer, name ∈ strays) ∧ ∀ name ∈ strays, name ∈ more ∨ name ∈ fewer

variable {more names names' : List String}

theorem Shrinks.append
    {strays fewer strays' fewer' : List String}
    (h : Shrinks more strays fewer)
    (h' : Shrinks more strays' fewer') :
    Shrinks more (strays ++ strays') (fewer ++ fewer') := by
  simp only [Shrinks, List.mem_append] at *
  constructor
  · exact fun name hn => hn.imp (h.1 name) (h'.1 name)
  · rintro name (hn | hn)
    · exact (h.2 name hn).imp_right .inl
    · exact (h'.2 name hn).imp_right .inr

theorem Shrinks.nil :
    Shrinks more [] [] :=
  ⟨nofun, nofun⟩

/-- The names in scope have become more, by given ones at most. -/
def Extends (more names names' : List String) : Prop :=
  names ⊆ names' ∧ ∀ name ∈ names', name ∈ names ∨ name ∈ more

theorem Extends.append
    (h : Extends more names names')
    (bound : List String) :
    Extends more (names ++ bound) (names' ++ bound) := by
  simp only [Extends, List.subset_def, List.mem_append] at *
  constructor
  · exact fun hn => hn.imp_left fun hn => h.1 hn
  · rintro name (hn | hn)
    · exact (h.2 name hn).imp_left .inl
    · exact .inl (.inr hn)

theorem shrinks_outside
    (h : Extends more names names')
    (used : List String) :
    Shrinks more (outside names used) (outside names' used) := by
  simp only [Shrinks, mem_outside]
  constructor
  · exact fun name ⟨hu, hn⟩ => ⟨hu, fun hn' => hn (h.1 hn')⟩
  · intro name ⟨hu, hn⟩
    by_cases hn' : name ∈ names'
    · exact .inl ((h.2 name hn').resolve_left hn)
    · exact .inr ⟨hu, hn'⟩

mutual

theorem shrinks_strays :
    ∀ {names names' : List String}, Extends more names names' → ∀ s : Statement,
      Shrinks more (s.strays names) (s.strays names')
  | _, _, h, .block body => shrinks_blockStrays h body
  | _, _, h, .ifThen _ thenBlock elseBlock =>
      (shrinks_outside h _).append
        ((shrinks_blockStrays h thenBlock).append (shrinks_elseStrays h elseBlock))
  | _, _, h, .whileLoop _ body => (shrinks_outside h _).append (shrinks_blockStrays h body)
  | _, _, h, .doLoop _ body => (shrinks_blockStrays h body).append (shrinks_outside h _)
  | _, _, h, .switch _ arms => (shrinks_outside h _).append (shrinks_armStrays h arms)
  | _, _, h, .tryCatch body clauses =>
      (shrinks_blockStrays h body).append (shrinks_clauseStrays h clauses)
  | _, _, h, .ret _ => shrinks_outside h _
  | _, _, h, .throw _ => shrinks_outside h _
  | _, _, h, .expression _ => shrinks_outside h _
  | _, _, h, .declaration _ _ => shrinks_outside h _
  | _, _, _, .jump .. => .nil
  | _, _, _, .label _ => .nil

/-- With more names in scope, no other names become stray, and only these cease to be so. -/
theorem shrinks_blockStrays :
    ∀ {names names' : List String}, Extends more names names' → ∀ block : List Statement,
      Shrinks more (blockStrays names block) (blockStrays names' block)
  | _, _, _, [] => .nil
  | _, _, h, s :: rest => (shrinks_strays h s).append (shrinks_blockStrays (h.append s.bound) rest)

theorem shrinks_elseStrays :
    ∀ {names names' : List String}, Extends more names names' →
      ∀ elseBlock : Option (List Statement),
        Shrinks more (elseStrays names elseBlock) (elseStrays names' elseBlock)
  | _, _, _, none => .nil
  | _, _, h, some block => shrinks_blockStrays h block

theorem shrinks_armStrays :
    ∀ {names names' : List String}, Extends more names names' → ∀ arms : List SwitchArm,
      Shrinks more (armStrays names arms) (armStrays names' arms)
  | _, _, _, [] => .nil
  | _, _, h, .mk _ _ body :: rest => (shrinks_blockStrays h body).append (shrinks_armStrays h rest)

theorem shrinks_clauseStrays :
    ∀ {names names' : List String}, Extends more names names' → ∀ clauses : List CatchClause,
      Shrinks more (clauseStrays names clauses) (clauseStrays names' clauses)
  | _, _, _, [] => .nil
  | _, _, h, .mk decl body :: rest =>
      (shrinks_blockStrays (h.append [decl.name]) body).append (shrinks_clauseStrays h rest)

end

/-- A name that is stray in a block is so no more once it is in scope. -/
theorem mem_or_mem_blockStrays
    (more names : List String)
    {block : Block}
    {name : String}
    (h : name ∈ blockStrays names block) :
    name ∈ more ∨ name ∈ blockStrays (names ++ more) block := by
  have hgrown : Extends more names (names ++ more) := by simp [Extends]
  exact (shrinks_blockStrays hgrown block).2 name h

end More

end Java
end DalvikDecompiler
