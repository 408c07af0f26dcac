import DalvikDecompiler.Proofs.Java.Execution

/-!
# What holds everywhere in an expression

An expression has direct parts, and these have parts again.  A property that an expression and all
parts of its parts have is told from the expression itself and its direct parts.

Main statements: `everywhere_iff`, `everywhere_bare_iff`.
-/

namespace DalvikDecompiler
namespace Java
namespace Expression

/-- The direct parts of an expression. -/
def parts : Expression → List Expression
  | .assignment target value _ => [target, value]
  | .binary _ left right => [left, right]
  | .unary _ operand _ => [operand]
  | .invocation _ _ receiver args => receiver.toList ++ args
  | .creation _ _ args => args
  | .fieldAccess _ _ object => [object]
  | .arrayAccess array index => [array, index]
  | .cast _ operand => [operand]
  | .literal .. => []
  | .localVar _ => []
  | .typeName _ => []
  | .arrayInitializer _ elements => elements
  | .arrayCreation _ sizes => sizes
  | .parenthesis inner => [inner]
  | .placeholder _ args => args

theorem sizeOf_lt_of_mem_parts
    {e part : Expression}
    (h : part ∈ e.parts) :
    sizeOf part < sizeOf e := by
  cases e with
  | assignment | binary | arrayAccess =>
      simp only [parts, List.mem_cons, List.not_mem_nil, or_false] at h
      rcases h with rfl | rfl <;> simp +arith
  | unary | fieldAccess | cast | parenthesis =>
      obtain rfl := List.mem_singleton.1 h
      simp +arith
  | invocation member name receiver args =>
      rcases List.mem_append.1 h with h | h
      · obtain rfl := Option.mem_toList.1 h
        simp +arith
      · have := List.sizeOf_lt_of_mem h
        simp only [invocation.sizeOf_spec]
        omega
  | creation _ _ es | arrayInitializer _ es | arrayCreation _ es | placeholder _ es =>
      have : sizeOf part < sizeOf es := List.sizeOf_lt_of_mem h
      simp only [creation.sizeOf_spec, arrayInitializer.sizeOf_spec, arrayCreation.sizeOf_spec,
        placeholder.sizeOf_spec]
      omega
  | literal | localVar | typeName => cases h

/-- To prove something of every expression, prove it of one whose parts have it. -/
theorem parts_induction
    {motive : Expression → Prop}
    (step : ∀ e, (∀ part ∈ e.parts, motive part) → motive e)
    (e : Expression) :
    motive e :=
  step e fun part _ => parts_induction step part
termination_by sizeOf e
decreasing_by exact sizeOf_lt_of_mem_parts ‹_›

/-- An expression stands in another one at some depth. -/
inductive Within (part : Expression) : Expression → Prop
  | refl : Within part part
  | step {inner whole : Expression} (hmem : inner ∈ whole.parts) (h : Within part inner) :
      Within part whole

/-- A property holds of an expression and of all that stands in it. -/
def Everywhere (P : Expression → Prop) (e : Expression) : Prop :=
  ∀ part, Within part e → P part

variable {P : Expression → Prop} {e : Expression}

theorem everywhere_iff :
    Everywhere P e ↔ P e ∧ ∀ part ∈ e.parts, Everywhere P part := by
  constructor
  · exact fun h => ⟨h e .refl, fun part hmem x hwithin => h x (.step hmem hwithin)⟩
  · rintro ⟨here, hbelow⟩ x (_ | ⟨hmem, hwithin⟩)
    · exact here
    · exact hbelow _ hmem x hwithin

theorem everywhere_of_leaf
    (hleaf : e.parts = [])
    (here : P e) :
    Everywhere P e :=
  everywhere_iff.2 ⟨here, hleaf ▸ fun _ h => absurd h List.not_mem_nil⟩

/-- Parentheses do not matter to a property that they have themselves. -/
theorem everywhere_bare_iff
    (hparenthesis : ∀ inner, P (.parenthesis inner))
    (e : Expression) :
    Everywhere P e.bare ↔ Everywhere P e := by
  induction e using parts_induction with
  | step e ih =>
      cases e with
      | parenthesis inner =>
          rw [bare, ih inner List.mem_cons_self, everywhere_iff (e := .parenthesis inner)]
          simp [parts, hparenthesis]
      | _ => rfl

theorem everywhere_asOperand_iff
    (hparenthesis : ∀ inner, P (.parenthesis inner))
    (e : Expression) :
    Everywhere P e.asOperand ↔ Everywhere P e := by
  rw [← everywhere_bare_iff hparenthesis e.asOperand, bare_asOperand,
    everywhere_bare_iff hparenthesis]

end Expression
end Java
end DalvikDecompiler
