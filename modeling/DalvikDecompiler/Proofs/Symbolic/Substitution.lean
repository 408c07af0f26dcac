import DalvikDecompiler.Symbolic.Instr
import Mathlib

/-!
# Substitutions and other names for variables

**Input.** An instruction on variables.

Substituting an expression for a variable replaces each read of the variable by
the reads of the expression, in order, and changes no target.

What an instruction defines and what it reads may be given other names.  A
substitution of a variable for a variable, and the choice of another target,
only change such names.

**Results.**
* `Instr.reads_substitute`: the reads of an instruction behind a substitution.
* `Instr.relabel_of_rename`: an instruction under other names, in which some of
  them are changed once more, is the instruction under the names that this
  gives.
-/

namespace DalvikDecompiler
namespace Symbolic

section Reads

variable {id : VarId} {value : Expr}

namespace Expr

/-- The reads that a read becomes. -/
def readsFor (id : VarId) (value : Expr) (v : VarId) : List VarId :=
  if v = id then value.varsRead else [v]

theorem subtermsOfAll_eq
    (es : List Expr) :
    subtermsOfAll es = es.flatMap subterms := by
  induction es with
  | nil => rfl
  | cons e es ih => simp [subtermsOfAll, ih]

theorem substituteAll_eq
    (id : VarId)
    (value : Expr)
    (es : List Expr) :
    substituteAll id value es = es.map (substitute id value) := by
  induction es with
  | nil => rfl
  | cons e es ih => simp [substituteAll, ih]

theorem subterms_eq
    (e : Expr) :
    e.subterms = e :: e.children.flatMap subterms := by
  cases e <;> simp [subterms, children, subtermsOfAll_eq]

theorem sizeOf_lt_of_mem_children
    {c e : Expr}
    (h : c ∈ e.children) :
    sizeOf c < sizeOf e := by
  cases e with
  | var _ => cases h
  | const _ => cases h
  | newInstance _ => cases h
  | staticFieldRead _ => cases h
  | filledArray type elements =>
      have hlt := List.sizeOf_lt_of_mem (show c ∈ elements from h)
      simp only [filledArray.sizeOf_spec]
      omega
  | staticCall method args =>
      have hlt := List.sizeOf_lt_of_mem (show c ∈ args from h)
      simp only [staticCall.sizeOf_spec]
      omega
  | call dispatch method receiver args =>
      simp only [call.sizeOf_spec]
      rcases List.mem_cons.mp (show c ∈ receiver :: args from h) with rfl | h
      · omega
      · have hlt := List.sizeOf_lt_of_mem h
        omega
  | _ =>
      simp only [children, List.mem_cons, List.not_mem_nil, or_false] at h
      first
        | (subst h; simp +arith)
        | (rcases h with rfl | rfl <;> simp +arith)

/-- What holds of an expression if it holds of its operands holds of all expressions. -/
theorem children_induction
    {P : Expr → Prop}
    (step : ∀ e, (∀ c, c ∈ e.children → P c) → P e)
    (e : Expr) :
    P e := by
  generalize hn : sizeOf e = n
  induction n using Nat.strongRecOn generalizing e with
  | _ n ih =>
      refine step e fun c hc => ih (sizeOf c) ?_ c rfl
      rw [← hn]
      exact sizeOf_lt_of_mem_children hc

theorem varsRead_eq_of_not_var
    {e : Expr}
    (h : e.var? = none) :
    e.varsRead = e.children.flatMap varsRead := by
  rw [varsRead, subterms_eq, List.filterMap_cons_none h, List.filterMap_flatMap]
  rfl

theorem children_substitute_of_not_var
    (id : VarId)
    (value : Expr)
    {e : Expr}
    (h : e.var? = none) :
    (substitute id value e).var? = none ∧
      (substitute id value e).children = e.children.map (substitute id value) := by
  cases e with
  | var v => simp [var?] at h
  | _ => simp [substitute, var?, children, substituteAll_eq]

/-- A substitution replaces each read of the variable by the reads of the expression. -/
theorem varsRead_substitute
    (id : VarId)
    (value e : Expr) :
    (substitute id value e).varsRead = e.varsRead.flatMap (readsFor id value) := by
  induction e using children_induction with
  | step e ih =>
      cases hvar : e.var? with
      | some v =>
          obtain rfl : e = .var v := by
            cases e <;> simp_all [var?]
          by_cases h : v = id
          · simp [substitute, varsRead, subterms, var?, readsFor, h]
          · simp [substitute, varsRead, subterms, var?, readsFor, h]
      | none =>
          obtain ⟨hvar', hchildren⟩ := children_substitute_of_not_var id value hvar
          rw [varsRead_eq_of_not_var hvar', hchildren, varsRead_eq_of_not_var hvar,
            List.flatMap_map, List.flatMap_assoc]
          exact List.flatMap_congr fun c hc => ih c hc

end Expr

namespace Instr

theorem operands_mapOperands
    (f : Expr → Expr)
    (ins : Instr) :
    (ins.mapOperands f).operands = ins.operands.map f := by
  cases ins with
  | ret value => cases value <;> rfl
  | _ => rfl

theorem reads_substitute
    (ins : Instr)
    (id : VarId)
    (value : Expr) :
    (ins.substitute id value).reads = ins.reads.flatMap (Expr.readsFor id value) := by
  rw [reads, substitute, operands_mapOperands, List.flatMap_map]
  simp only [Expr.varsRead_substitute]
  rw [reads, List.flatMap_assoc]

theorem mem_reads_substitute
    {ins : Instr}
    {w : VarId} :
    w ∈ (ins.substitute id value).reads ↔
      (w ∈ ins.reads ∧ w ≠ id) ∨ (id ∈ ins.reads ∧ w ∈ value.varsRead) := by
  rw [reads_substitute, List.mem_flatMap]
  constructor
  · rintro ⟨v, hv, hw⟩
    unfold Expr.readsFor at hw
    split at hw
    · rename_i heq
      exact Or.inr ⟨heq ▸ hv, hw⟩
    · rename_i hne
      obtain rfl : w = v := by simpa using hw
      exact Or.inl ⟨hv, hne⟩
  · rintro (⟨hw, hne⟩ | ⟨hid, hw⟩)
    · exact ⟨w, hw, by simp [Expr.readsFor, hne]⟩
    · exact ⟨id, hid, by simpa [Expr.readsFor] using hw⟩

@[simp] theorem target?_substitute
    (ins : Instr)
    (id : VarId)
    (value : Expr) :
    (ins.substitute id value).target? = ins.target? := by
  cases ins <;> rfl

theorem target?_replaceTarget
    {ins : Instr}
    {old new : VarId}
    (h : ins.target? = some old) :
    (ins.replaceTarget new).target? = some new := by
  cases ins <;> first | rfl | simp [target?] at h

@[simp] theorem reads_replaceTarget
    (ins : Instr)
    (id : VarId) :
    (ins.replaceTarget id).reads = ins.reads := by
  cases ins <;> rfl

end Instr

end Reads

section Relabelling

variable {old new : VarId} {read target : VarId → VarId}

namespace Expr

mutual

/-- Give the variables of an expression other names. -/
def relabel (name : VarId → VarId) : Expr → Expr
  | .var id => .var (name id)
  | .const constant => .const constant
  | .newInstance type => .newInstance type
  | .staticFieldRead field => .staticFieldRead field
  | .unary op operand type => .unary op (relabel name operand) type
  | .cast type operand => .cast type (relabel name operand)
  | .checkCast type operand => .checkCast type (relabel name operand)
  | .instanceOf type operand => .instanceOf type (relabel name operand)
  | .arrayLength array => .arrayLength (relabel name array)
  | .newArray type size => .newArray type (relabel name size)
  | .fieldRead object field => .fieldRead (relabel name object) field
  | .binary op left right type => .binary op (relabel name left) (relabel name right) type
  | .compare type left right => .compare type (relabel name left) (relabel name right)
  | .arrayRead array index type => .arrayRead (relabel name array) (relabel name index) type
  | .filledArray type elements => .filledArray type (relabelAll name elements)
  | .staticCall method args => .staticCall method (relabelAll name args)
  | .call dispatch method receiver args =>
      .call dispatch method (relabel name receiver) (relabelAll name args)

/-- Give the variables of the expressions of a list other names. -/
def relabelAll (name : VarId → VarId) : List Expr → List Expr
  | [] => []
  | e :: rest => relabel name e :: relabelAll name rest

end

theorem relabelAll_eq
    (name : VarId → VarId)
    (es : List Expr) :
    relabelAll name es = es.map (relabel name) := by
  induction es with
  | nil => rfl
  | cons e es ih => simp [relabelAll, ih]

@[simp] theorem relabel_id
    (e : Expr) :
    e.relabel (fun v => v) = e := by
  induction e using children_induction with
  | step e ih =>
      have hall : ∀ es : List Expr, (∀ c, c ∈ es → c.relabel (fun v => v) = c) →
          es.map (relabel fun v => v) = es := fun es h =>
        (List.map_congr_left h).trans (List.map_id es)
      cases e with
      | filledArray type elements => rw [relabel, relabelAll_eq, hall elements ih]
      | staticCall method args => rw [relabel, relabelAll_eq, hall args ih]
      | call dispatch method receiver args =>
          rw [relabel, relabelAll_eq, ih receiver (by simp [children]),
            hall _ fun c hc => ih c (by simp [children, hc])]
      | _ => simp_all [relabel, children]

/-- Putting a variable in the place of another one changes names. -/
theorem substitute_relabel
    (old new : VarId)
    (name : VarId → VarId)
    (e : Expr) :
    substitute old (.var new) (e.relabel name) =
      e.relabel fun v => if name v = old then new else name v := by
  induction e using children_induction with
  | step e ih =>
      cases e with
      | var v =>
          simp only [relabel, substitute]
          split <;> rfl
      | filledArray type elements =>
          simp only [relabel, substitute, relabelAll_eq, substituteAll_eq, List.map_map]
          exact congrArg _ (List.map_congr_left ih)
      | staticCall method args =>
          simp only [relabel, substitute, relabelAll_eq, substituteAll_eq, List.map_map]
          exact congrArg _ (List.map_congr_left ih)
      | call dispatch method receiver args =>
          simp only [relabel, substitute, relabelAll_eq, substituteAll_eq, List.map_map]
          rw [ih receiver (by simp [children])]
          exact congrArg _ (List.map_congr_left fun c hc => ih c (by simp [children, hc]))
      | _ => simp_all [relabel, substitute, children]

end Expr

namespace Instr

/-- Change the variable that an instruction defines. -/
def mapTarget (f : VarId → VarId) : Instr → Instr
  | .move target value => .move (f target) value
  | .moveResult target value => .moveResult (f target) value
  | .assign target value => .assign (target.map f) value
  | .moveException target => .moveException (f target)
  | other => other

/-- Give what an instruction defines and what it reads other names. -/
def relabel (target read : VarId → VarId) (ins : Instr) : Instr :=
  (ins.mapOperands (Expr.relabel read)).mapTarget target

@[simp] theorem relabel_id
    (ins : Instr) :
    ins.relabel (fun v => v) (fun v => v) = ins := by
  cases ins with
  | ret value => cases value <;> simp [relabel, mapTarget, mapOperands]
  | assign target value => simp [relabel, mapTarget, mapOperands]
  | _ => simp [relabel, mapTarget, mapOperands]

theorem target?_relabel
    (ins : Instr) :
    (ins.relabel target read).target? = ins.target?.map target := by
  cases ins <;> rfl

theorem substitute_relabel
    (ins : Instr) :
    (ins.relabel target read).substitute old (.var new) =
      ins.relabel target fun v => if read v = old then new else read v := by
  cases ins with
  | ret value =>
      cases value <;> simp [relabel, substitute, mapTarget, mapOperands, Expr.substitute_relabel]
  | _ => simp [relabel, substitute, mapTarget, mapOperands, Expr.substitute_relabel]

/-- Nothing is left of a variable for which another one has been put. -/
theorem substitute_substitute_var
    (hne : old ≠ new)
    (ins : Instr) :
    (ins.substitute old (.var new)).substitute old (.var new) = ins.substitute old (.var new) := by
  rw [← relabel_id ins, substitute_relabel, substitute_relabel]
  congr 1
  funext v
  by_cases h : v = old
  · simp [h, hne.symm]
  · simp [h]

/-- Another target for an instruction that defines something. -/
theorem replaceTarget_relabel
    {ins : Instr}
    (h : (ins.relabel target read).target? = some old) :
    (ins.relabel target read).replaceTarget new =
      ins.relabel (fun v => if target v = old then new else target v) read := by
  rw [target?_relabel] at h
  cases ins with
  | assign defined value =>
      obtain ⟨v, hv, hold⟩ := Option.map_eq_some_iff.mp h
      obtain rfl : defined = some v := hv
      simp [relabel, mapTarget, mapOperands, replaceTarget, hold]
  | move | moveResult | moveException =>
      simp_all [relabel, mapTarget, mapOperands, replaceTarget, target?]
  | _ => cases h

/-- Names that are changed once more, those of reads and that of the target on their own
conditions. -/
theorem relabel_of_rename
    {ins : Instr}
    (defined used : Prop)
    [Decidable defined]
    [Decidable used]
    (h : defined → (ins.relabel target read).target? = some old) :
    (let named := if defined then (ins.relabel target read).replaceTarget new
        else ins.relabel target read
      if used then named.substitute old (.var new) else named) =
      ins.relabel (fun v => if defined ∧ target v = old then new else target v)
        (fun v => if used ∧ read v = old then new else read v) := by
  by_cases hdefined : defined <;> by_cases hused : used <;>
    simp [hdefined, hused, replaceTarget_relabel, substitute_relabel, h]

end Instr

end Relabelling

end Symbolic
end DalvikDecompiler
