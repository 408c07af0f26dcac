import DalvikDecompiler.Java.Source
import DalvikDecompiler.Proofs.Emission.Declarations
import DalvikDecompiler.Proofs.Java.Parts

/-!
# Expressions are written with all their parentheses

Text is made of an expression without adding parentheses, so that the expression has to have them.
An operand that stands beside an operator, a dot or a bracket must not be an operation whose own
operands could be grouped with what stands there.  A sign or a negation in front of its operand is
no such operation beside `&&` and `||`, which bind less.

Main statement: `conditions_grouped`, for the expressions of values, of branches and of short
circuits.
-/

namespace DalvikDecompiler

namespace Java.Expression

/-- An operation with text at an end that other text could be grouped with. -/
def isLoose : Expression → Bool
  | .binary .. => true
  | .assignment .. => true
  | .cast .. => true
  | _ => false

/-- An operator in front of its operand. -/
def isPrefix : Expression → Bool
  | .unary _ _ after => !after
  | _ => false

/-- Two conditions that are joined. -/
def isJunction : Expression → Bool
  | .binary op _ _ => op == "&&" || op == "||"
  | _ => false

/-- The operands with nothing but an operator, a dot or a bracket between them and what stands
beside them. -/
def exposed : Expression → List Expression
  | .binary _ left right => [left, right]
  | .unary _ operand _ => [operand]
  | .cast _ operand => [operand]
  | .arrayAccess array _ => [array]
  | .fieldAccess _ _ object => [object]
  | .invocation _ _ receiver _ => receiver.toList
  | _ => []

/-- No exposed operand could be grouped otherwise. -/
def KeepsGroups (e : Expression) : Prop :=
  ∀ operand ∈ e.exposed,
    operand.isLoose = false ∧ (operand.isPrefix = true → e.isJunction = true)

/-- Put parentheses around an operand that could be grouped otherwise. -/
def guarded (inJunction : Bool) (e : Expression) : Expression :=
  if e.isLoose || (e.isPrefix && !inJunction) then .parenthesis e else e

mutual

/-- Put parentheses around all exposed operands that could be grouped otherwise. -/
def protect : Expression → Expression
  | .assignment target value op => .assignment (protect target) (protect value) op
  | .binary op left right =>
      let inJunction := op == "&&" || op == "||"
      .binary op ((protect left).guarded inJunction) ((protect right).guarded inJunction)
  | .unary op operand after => .unary op ((protect operand).guarded false) after
  | .invocation member name receiver args =>
      .invocation member name (protectReceiver receiver) (protectAll args)
  | .creation member type args => .creation member type (protectAll args)
  | .fieldAccess member name object => .fieldAccess member name ((protect object).guarded false)
  | .arrayAccess array index => .arrayAccess ((protect array).guarded false) (protect index)
  | .cast type operand => .cast type ((protect operand).guarded false)
  | .literal value type => .literal value type
  | .localVar name => .localVar name
  | .typeName type => .typeName type
  | .arrayInitializer type elements => .arrayInitializer type (protectAll elements)
  | .arrayCreation type sizes => .arrayCreation type (protectAll sizes)
  | .parenthesis inner => .parenthesis (protect inner)
  | .placeholder label args => .placeholder label (protectAll args)

/-- Protect a receiver. -/
def protectReceiver : Option Expression → Option Expression
  | none => none
  | some receiver => some ((protect receiver).guarded false)

/-- Protect the expressions of a list. -/
def protectAll : List Expression → List Expression
  | [] => []
  | e :: rest => protect e :: protectAll rest

end

theorem protectAll_eq_map
    (es : List Expression) :
    protectAll es = es.map protect := by
  induction es with
  | nil => rfl
  | cons e es ih => rw [protectAll, ih, List.map_cons]

theorem guarded_eq
    {e operand : Expression}
    (hkeeps : KeepsGroups e)
    (hmem : operand ∈ e.exposed) :
    operand.guarded e.isJunction = operand := by
  obtain ⟨htight, hjunction⟩ := hkeeps operand hmem
  refine if_neg ?_
  simpa [htight] using hjunction

/-- Everything in an expression keeps its groups. -/
def Grouped : Expression → Prop :=
  Everywhere KeepsGroups

/-- An expression that keeps its groups has all parentheses it needs. -/
theorem protect_of_grouped
    {e : Expression}
    (h : Grouped e) :
    e.protect = e := by
  induction e using parts_induction with
  | step e ih =>
      obtain ⟨hkeeps, hbelow⟩ := everywhere_iff.1 h
      have heach (part : Expression) (hmem : part ∈ e.parts) : part.protect = part :=
        ih part hmem (hbelow part hmem)
      have hall {es : List Expression} (hsub : es ⊆ e.parts) : protectAll es = es := by
        rw [protectAll_eq_map, List.map_congr_left fun part hmem =>
          heach part (hsub hmem), List.map_id']
      cases e with
      | assignment target value op =>
          rw [protect, heach target List.mem_cons_self, heach value (by simp [parts])]
      | binary op left right =>
          rw [protect, heach left List.mem_cons_self, heach right (by simp [parts])]
          exact congrArg₂ (binary op) (guarded_eq hkeeps List.mem_cons_self)
            (guarded_eq hkeeps (by simp [exposed]))
      | unary op operand after =>
          rw [protect, heach operand List.mem_cons_self]
          exact congrArg (unary op · after) (guarded_eq hkeeps List.mem_cons_self)
      | invocation member name receiver args =>
          rw [protect, hall (List.subset_append_right ..)]
          cases receiver with
          | none => rfl
          | some receiver =>
              rw [protectReceiver, heach receiver List.mem_cons_self]
              exact congrArg (fun r => invocation member name (some r) args)
                (guarded_eq hkeeps List.mem_cons_self)
      | fieldAccess member name object =>
          rw [protect, heach object List.mem_cons_self]
          exact congrArg (fieldAccess member name) (guarded_eq hkeeps List.mem_cons_self)
      | arrayAccess array index =>
          rw [protect, heach array List.mem_cons_self, heach index (by simp [parts])]
          exact congrArg (arrayAccess · index) (guarded_eq hkeeps List.mem_cons_self)
      | cast type operand =>
          rw [protect, heach operand List.mem_cons_self]
          exact congrArg (cast type) (guarded_eq hkeeps List.mem_cons_self)
      | parenthesis inner => rw [protect, heach inner List.mem_cons_self]
      | creation _ _ es | arrayInitializer _ es | arrayCreation _ es | placeholder _ es =>
          rw [protect, show protectAll es = es from hall (List.Subset.refl es)]
      | literal | localVar | typeName => rfl

/-- An expression that may stand beside anything. -/
def Tight (e : Expression) : Prop :=
  e.isLoose = false ∧ e.isPrefix = false

theorem exposed_subset_parts
    (e : Expression) :
    e.exposed ⊆ e.parts := by
  cases e with
  | invocation => exact List.subset_append_left ..
  | arrayAccess => exact List.cons_subset_cons _ (List.nil_subset _)
  | binary | unary | cast | fieldAccess => exact List.Subset.refl _
  | _ => exact List.nil_subset _

theorem grouped_of_tight
    {e : Expression}
    (hparts : ∀ part ∈ e.parts, Grouped part)
    (htight : ∀ operand ∈ e.exposed, operand.Tight) :
    Grouped e := by
  refine everywhere_iff.2 ⟨fun operand hmem => ?_, hparts⟩
  obtain ⟨hloose, hnoPrefix⟩ := htight operand hmem
  exact ⟨hloose, fun h => by rw [hnoPrefix] at h; cases h⟩

theorem keepsGroups_parenthesis
    (inner : Expression) :
    KeepsGroups (.parenthesis inner) :=
  fun _ h => absurd h List.not_mem_nil

/-- Conditions are put in parentheses before they are joined. -/
theorem grouped_junction
    {left right : Expression}
    (both : Bool)
    (hleft : Grouped left)
    (hright : Grouped right) :
    Grouped (.binary (if both then "&&" else "||") left.asOperand right.asOperand) := by
  have hnotLoose (e : Expression) : e.asOperand.isLoose = false := by cases e <;> rfl
  have hjunction (l r : Expression) :
      (binary (if both then "&&" else "||") l r).isJunction = true := by cases both <;> rfl
  refine everywhere_iff.2 ⟨fun operand hmem => ?_, fun part hmem => ?_⟩
  · simp only [exposed, List.mem_cons, List.not_mem_nil, or_false] at hmem
    rcases hmem with rfl | rfl
    · exact ⟨hnotLoose left, fun _ => hjunction ..⟩
    · exact ⟨hnotLoose right, fun _ => hjunction ..⟩
  · simp only [parts, List.mem_cons, List.not_mem_nil, or_false] at hmem
    rcases hmem with rfl | rfl
    · exact (everywhere_asOperand_iff keepsGroups_parenthesis left).2 hleft
    · exact (everywhere_asOperand_iff keepsGroups_parenthesis right).2 hright

/-- No grouping is lost in the text: a printer that puts parentheses around the operands that need
them prints the same. -/
structure WellGrouped (e : Expression) : Prop where
  grouped : Grouped e
  text_eq : e.protect.render = e.render

theorem Grouped.wellGrouped
    {e : Expression}
    (h : Grouped e) :
    WellGrouped e :=
  ⟨h, congrArg render (protect_of_grouped h)⟩

end Java.Expression

namespace Emission

open Symbolic (Variables Expr Instr Relation)
open Java (Expression)
open Java.Expression (Grouped Tight WellGrouped grouped_of_tight)

section Values

variable (vars : Variables) (owner : String)

/-- The names that the Java form of an expression has beside those of its operands. -/
def ownNames : Expr → List Expression
  | .compare type _ _ => [classExpression (comparisonClass type)]
  | .instanceOf type _ => [classExpression type]
  | .staticFieldRead field => [classExpression field.owner]
  | .staticCall method _ => [classExpression method.owner]
  | .call .. => [.localVar "super"]
  | _ => []

/-- The parts of a call are its receiver, `super` in its place, and the arguments. -/
theorem parts_callExpression
    {dispatch : Symbolic.Dispatch}
    {method : Bytecode.MethodRef}
    {receiver : Expr}
    {object : Expression}
    {args : List Expression} :
    (callExpression vars owner dispatch method receiver object args).bare.parts ⊆
      .localVar "super" :: object :: args := by
  have hargs_subset : args ⊆ .localVar "super" :: object :: args := fun _ h => by simp [h]
  have hplain : (Expression.invocation (.of method.owner method.name method.descriptor) method.name
      (some (if dispatch = .super ∧ isReceiver vars receiver then .localVar "super" else object))
      args).bare.parts ⊆ .localVar "super" :: object :: args := by
    refine List.cons_subset.2 ⟨?_, hargs_subset⟩
    split <;> simp
  unfold callExpression
  dsimp only
  split
  · split
    · exact hargs_subset
    · split
      · exact hargs_subset
      · exact hplain
  · exact hplain

/-- The parts of the Java form of an expression are those of its operands, or names. -/
theorem mem_parts_expression
    {e : Expr}
    {expected : Option String}
    {part : Expression}
    (h : part ∈ (expression vars owner e expected).bare.parts) :
    (∃ c ∈ e.children, ∃ expected, part = expression vars owner c expected) ∨
      part ∈ ownNames e := by
  cases e with
  | var | const | newInstance => cases h
  | staticFieldRead => exact .inr h
  | unary | cast | checkCast | arrayLength | newArray | fieldRead =>
      exact .inl ⟨_, List.mem_cons_self, _, List.mem_singleton.1 h⟩
  | binary | arrayRead =>
      simp only [expression, Expression.bare, Expression.parts, List.mem_cons, List.not_mem_nil,
        or_false] at h
      rcases h with rfl | rfl
      · exact .inl ⟨_, List.mem_cons_self, _, rfl⟩
      · exact .inl ⟨_, List.mem_cons_of_mem _ List.mem_cons_self, _, rfl⟩
  | instanceOf =>
      rcases List.mem_cons.1 h with rfl | h
      · exact .inl ⟨_, List.mem_cons_self, _, rfl⟩
      · exact .inr h
  | compare =>
      simp only [expression, Expression.bare, Expression.parts, Option.toList_some,
        List.cons_append, List.nil_append, List.mem_cons, List.not_mem_nil, or_false] at h
      rcases h with rfl | rfl | rfl
      · exact .inr List.mem_cons_self
      · exact .inl ⟨_, List.mem_cons_self, _, rfl⟩
      · exact .inl ⟨_, List.mem_cons_of_mem _ List.mem_cons_self, _, rfl⟩
  | filledArray =>
      obtain ⟨element, hmem, expected, rfl⟩ := exists_of_mem_elementExpressions owner h
      exact .inl ⟨element, hmem, _, rfl⟩
  | staticCall =>
      rcases List.mem_cons.1 h with rfl | h
      · exact .inr List.mem_cons_self
      · obtain ⟨argument, hmem, expected, rfl⟩ := exists_of_mem_argumentExpressions owner h
        exact .inl ⟨argument, hmem, _, rfl⟩
  | call =>
      rcases List.mem_cons.1 (parts_callExpression vars owner h) with rfl | h
      · exact .inr List.mem_cons_self
      rcases List.mem_cons.1 h with rfl | h
      · exact .inl ⟨_, List.mem_cons_self, _, rfl⟩
      · obtain ⟨argument, hmem, expected, rfl⟩ := exists_of_mem_argumentExpressions owner h
        exact .inl ⟨argument, List.mem_cons_of_mem _ hmem, _, rfl⟩

/-- Operations have parentheses, and nothing else needs them. -/
theorem tight_expression
    (e : Expr)
    (expected : Option String) :
    (expression vars owner e expected).Tight := by
  cases e with
  | call =>
      unfold expression callExpression
      dsimp only
      split
      · split
        · exact ⟨rfl, rfl⟩
        · split <;> exact ⟨rfl, rfl⟩
      · exact ⟨rfl, rfl⟩
  | _ => exact ⟨rfl, rfl⟩

theorem tight_ownNames
    {e : Expr}
    {name : Expression}
    (h : name ∈ ownNames e) :
    name.Tight ∧ name.parts = [] := by
  cases e <;> simp only [ownNames, List.mem_cons, List.not_mem_nil, or_false] at h <;> subst h <;>
    exact ⟨⟨rfl, rfl⟩, rfl⟩

theorem grouped_expression
    (e : Expr)
    (expected : Option String) :
    Grouped (expression vars owner e expected) := by
  induction e using Expr.children_induction generalizing expected with
  | step e ih =>
      refine (Expression.everywhere_bare_iff Expression.keepsGroups_parenthesis _).1 ?_
      refine grouped_of_tight (fun part hmem => ?_) fun operand hmem => ?_
      · rcases mem_parts_expression vars owner hmem with ⟨c, hchild, expected, rfl⟩ | hname
        · exact ih c hchild expected
        · obtain ⟨-, hleaf⟩ := tight_ownNames hname
          refine grouped_of_tight (hleaf ▸ fun _ h => absurd h List.not_mem_nil) fun _ h => ?_
          exact absurd (hleaf ▸ Expression.exposed_subset_parts _ h) List.not_mem_nil
      · rcases mem_parts_expression vars owner (Expression.exposed_subset_parts _ hmem) with
          ⟨c, -, expected, rfl⟩ | hname
        · exact tight_expression vars owner c expected
        · exact (tight_ownNames hname).1

/-- A literal beside an operator, or an operand behind it. -/
theorem grouped_literal
    (value type : String) :
    Grouped (literal value type) :=
  grouped_of_tight (fun _ h => absurd h List.not_mem_nil) fun _ h => absurd h List.not_mem_nil

theorem grouped_note
    (label : String) :
    Grouped (.note label) :=
  grouped_of_tight (fun _ h => absurd h List.not_mem_nil) fun _ h => absurd h List.not_mem_nil

theorem grouped_binary
    {left right : Expression}
    (op : String)
    (hleft : Grouped left ∧ left.Tight)
    (hright : Grouped right ∧ right.Tight) :
    Grouped (.binary op left right) := by
  have hboth : ∀ part ∈ [left, right], Grouped part ∧ part.Tight := by
    simp only [List.mem_cons, List.not_mem_nil, or_false, forall_eq_or_imp, forall_eq]
    exact ⟨hleft, hright⟩
  exact grouped_of_tight (fun part hmem => (hboth part hmem).1) fun part hmem => (hboth part hmem).2

theorem grouped_condition
    (ins : Instr)
    (negate : Bool) :
    Grouped (condition vars owner ins negate) := by
  have hvalue (e : Expr) (expected : Option String) :
      Grouped (expression vars owner e expected) ∧ (expression vars owner e expected).Tight :=
    ⟨grouped_expression vars owner e expected, tight_expression vars owner e expected⟩
  have hzero (e : Expr) (relation : Relation) (text type : String) :
      Grouped (.binary relation.symbol (expression vars owner e none) (literal text type)) :=
    grouped_binary _ (hvalue e none) ⟨grouped_literal text type, rfl, rfl⟩
  unfold condition
  split
  · exact grouped_binary _ (hvalue ..) (hvalue ..)
  · exact grouped_binary _ (hvalue ..) (hvalue ..)
  · next e _ =>
      unfold zeroTest
      split
      · split
        · refine grouped_of_tight (fun part hmem => ?_) fun part hmem => ?_
          · exact List.mem_singleton.1 hmem ▸ (hvalue e none).1
          · exact List.mem_singleton.1 hmem ▸ (hvalue e none).2
        · exact (hvalue e none).1
        · exact hzero _ _ _ _
      · split <;> exact hzero _ _ _ _
      · exact hzero _ _ _ _
  · exact grouped_note _

end Values

theorem grouped_conditionWithin
    (src : Source)
    (vars : Variables)
    (depth : Nat)
    (id : NodeId)
    (negate : Bool) :
    Grouped (src.conditionWithin vars depth id negate) := by
  induction depth generalizing id negate with
  | zero => exact grouped_note _
  | succ depth ih =>
      unfold Source.conditionWithin
      split
      · exact Expression.grouped_junction _ (ih _ _) (ih _ _)
      · split
        · exact grouped_condition _ _ _ _
        · exact grouped_note _

/-- All values and conditions have the parentheses that their text needs. -/
theorem conditions_grouped
    (src : Source)
    (vars : Variables)
    (owner : String) :
    (∀ e expected, WellGrouped (expression vars owner e expected)) ∧
      (∀ ins negate, WellGrouped (condition vars owner ins negate)) ∧
        ∀ depth id negate, WellGrouped (src.conditionWithin vars depth id negate) :=
  ⟨fun e expected => (grouped_expression vars owner e expected).wellGrouped,
    fun ins negate => (grouped_condition vars owner ins negate).wellGrouped,
    fun depth id negate => (grouped_conditionWithin src vars depth id negate).wellGrouped⟩

end Emission
end DalvikDecompiler
