import DalvikDecompiler.Chains.Propagation
import DalvikDecompiler.Proofs.Symbolic.Substitution

/-!
# Effects of instructions

**Input.** Instructions whose operands are expressions over variables.

Evaluating an expression makes the calls of its operands, from left to right,
and then its own.  An instruction evaluates its operands in order and then
does what it does itself.

**Results.**
* `Instr.effects_substitute_of_preservesOrder`: a call that takes the place of a
  variable is made before everything else the instruction does, if order is
  preserved.
* `Instr.effects_substitute_eq`: a value that makes no call changes no effect.
-/

namespace DalvikDecompiler
namespace Symbolic

open Bytecode (FieldRef MethodRef)

/-- Something done that can be seen from outside a method. -/
inductive Effect where
  /-- A call, of a static method if no dispatch is given. -/
  | call (dispatch : Option Dispatch) (method : MethodRef)
  | fieldWrite (field : FieldRef)
  | staticFieldWrite (field : FieldRef)
  | arrayWrite
  | fillArrayData (width : UInt16) (data : List UInt8)
  | monitorEnter
  | monitorExit
  | ret
  | throw
  deriving DecidableEq, Repr

/-- Whether an effect is a call. -/
def Effect.isCall : Effect → Bool
  | .call .. => true
  | _ => false

variable {id : VarId} {value : Expr}

namespace Expr

/-- The call that an expression makes itself. -/
def ownCall? : Expr → Option Effect
  | .staticCall method _ => some (.call none method)
  | .call dispatch method _ _ => some (.call (some dispatch) method)
  | _ => none

mutual

/-- The calls made by evaluating an expression, in order. -/
def calls : Expr → List Effect
  | .var _ => []
  | .const _ => []
  | .newInstance _ => []
  | .staticFieldRead _ => []
  | .unary _ operand _ => calls operand
  | .cast _ operand => calls operand
  | .checkCast _ operand => calls operand
  | .instanceOf _ operand => calls operand
  | .arrayLength array => calls array
  | .newArray _ size => calls size
  | .fieldRead object _ => calls object
  | .binary _ left right _ => calls left ++ calls right
  | .compare _ left right => calls left ++ calls right
  | .arrayRead array index _ => calls array ++ calls index
  | .filledArray _ elements => callsOfAll elements
  | .staticCall method args => callsOfAll args ++ [.call none method]
  | .call dispatch method receiver args =>
      calls receiver ++ callsOfAll args ++ [.call (some dispatch) method]

/-- The calls made by evaluating the expressions of a list, one after another. -/
def callsOfAll : List Expr → List Effect
  | [] => []
  | e :: rest => calls e ++ callsOfAll rest

end

theorem callsOfAll_eq
    (es : List Expr) :
    callsOfAll es = es.flatMap calls := by
  induction es with
  | nil => rfl
  | cons e es ih => simp [callsOfAll, ih]

/-- Operands are evaluated first, from left to right. -/
theorem calls_eq
    (e : Expr) :
    e.calls = e.children.flatMap calls ++ e.ownCall?.toList := by
  cases e <;> simp [calls, children, ownCall?, callsOfAll_eq]

theorem hasEffect_eq
    (e : Expr) :
    e.hasEffect = (e.isCall || e.children.any hasEffect) := by
  rw [hasEffect, subterms_eq, List.any_cons, List.any_flatMap]
  rfl

theorem ownCall?_eq_none_iff
    {e : Expr} :
    e.ownCall? = none ↔ e.isCall = false := by
  cases e <;> simp [ownCall?, isCall]

/-- An expression without an effect makes no call. -/
theorem calls_eq_nil_iff
    (e : Expr) :
    e.calls = [] ↔ e.hasEffect = false := by
  induction e using children_induction with
  | step e ih =>
      have hchildren : e.children.flatMap calls = [] ↔ e.children.any hasEffect = false := by
        rw [List.flatMap_eq_nil_iff, List.any_eq_false]
        exact forall₂_congr fun c hc => by simp [ih c hc]
      rw [calls_eq, hasEffect_eq, List.append_eq_nil_iff, hchildren, Bool.or_eq_false_iff,
        Option.toList_eq_nil_iff, ownCall?_eq_none_iff, and_comm]

theorem isCall_of_mem_calls
    {e : Expr}
    {effect : Effect}
    (h : effect ∈ e.calls) :
    effect.isCall = true := by
  induction e using children_induction with
  | step e ih =>
      rw [calls_eq, List.mem_append] at h
      rcases h with h | h
      · obtain ⟨c, hc, h⟩ := List.mem_flatMap.mp h
        exact ih c hc h
      · have hown : e.ownCall? = some effect := Option.mem_toList.mp h
        cases e <;> simp only [ownCall?, reduceCtorEq, Option.some.injEq] at hown
        · subst hown
          rfl
        · subst hown
          rfl

theorem ownCall?_substitute
    {e : Expr}
    (h : e.var? = none) :
    (substitute id value e).ownCall? = e.ownCall? := by
  cases e with
  | var v => simp [var?] at h
  | _ => rfl

theorem eq_var_of_var?
    {e : Expr}
    {v : VarId}
    (h : e.var? = some v) :
    e = .var v := by
  cases e with
  | var w => rw [Option.some.inj h]
  | _ => cases h

/-- A substitution adds calls only where the variable is read. -/
theorem calls_substitute_eq
    (e : Expr)
    (h : id ∈ e.varsRead → value.calls = []) :
    (substitute id value e).calls = e.calls := by
  induction e using children_induction with
  | step e ih =>
      cases hvar : e.var? with
      | some v =>
          obtain rfl := eq_var_of_var? hvar
          by_cases hv : v = id
          · subst hv
            simpa [substitute, calls] using h (by simp [varsRead, subterms, var?])
          · simp [substitute, hv]
      | none =>
          rw [calls_eq, calls_eq e, (children_substitute_of_not_var id value hvar).2,
            ownCall?_substitute hvar, List.flatMap_map]
          congr 1
          refine List.flatMap_congr fun c hc => ih c hc fun hid => h ?_
          rw [varsRead_eq_of_not_var hvar]
          exact List.mem_flatMap.mpr ⟨c, hc, hid⟩

theorem evaluatedBefore_eq_of_not_var
    {e : Expr}
    (h : e.var? = none) :
    evaluatedBefore id e = evaluatedBeforeIn id e.children := by
  cases e with
  | var v => simp [var?] at h
  | _ => simp [evaluatedBefore, evaluatedBeforeIn, children]

theorem evaluatedBeforeIn_eq_none_iff
    {es : List Expr} :
    evaluatedBeforeIn id es = none ↔ ∀ e, e ∈ es → evaluatedBefore id e = none := by
  induction es with
  | nil => simp [evaluatedBeforeIn]
  | cons e es ih => simp [evaluatedBeforeIn, ih]

theorem evaluatedBefore_eq_none_iff
    (e : Expr) :
    evaluatedBefore id e = none ↔ id ∉ e.varsRead := by
  induction e using children_induction with
  | step e ih =>
      cases hvar : e.var? with
      | some v =>
          obtain rfl := eq_var_of_var? hvar
          simp [evaluatedBefore, varsRead, subterms, var?, eq_comm]
      | none =>
          rw [evaluatedBefore_eq_of_not_var hvar, evaluatedBeforeIn_eq_none_iff,
            varsRead_eq_of_not_var hvar]
          simp only [List.mem_flatMap, not_exists, not_and]
          exact forall₂_congr ih

/-- If what is evaluated in front of the only read of a variable makes no call, then the calls of
a value in its place come first. -/
def CallsFirst (id : VarId) (value e : Expr) : Prop :=
  ∀ earlier, e.varsRead.count id ≤ 1 → evaluatedBefore id e = some earlier →
    (∀ x, x ∈ earlier → x.calls = []) →
    (substitute id value e).calls = value.calls ++ e.calls

/-- Operands in front of the read make no call, and operands behind it do not change. -/
theorem flatMap_calls_of_callsFirst
    {es earlier : List Expr}
    (hes : ∀ e, e ∈ es → CallsFirst id value e)
    (hcount : (es.flatMap varsRead).count id ≤ 1)
    (hbefore : evaluatedBeforeIn id es = some earlier)
    (hearlier : ∀ x, x ∈ earlier → x.calls = []) :
    (es.map (substitute id value)).flatMap calls = value.calls ++ es.flatMap calls := by
  induction es generalizing earlier with
  | nil => simp [evaluatedBeforeIn] at hbefore
  | cons e es ih =>
      rw [List.flatMap_cons, List.count_append] at hcount
      rw [List.map_cons, List.flatMap_cons, List.flatMap_cons]
      cases hfirst : evaluatedBefore id e with
      | some front =>
          obtain rfl : front = earlier := by
            simpa [evaluatedBeforeIn, hfirst] using hbefore
          have hread : id ∈ e.varsRead := by
            by_contra hnot
            rw [(evaluatedBefore_eq_none_iff e).mpr hnot] at hfirst
            cases hfirst
          have hrest : id ∉ es.flatMap varsRead := by
            have hpos := List.count_pos_iff.mpr hread
            exact List.count_eq_zero.mp (by omega)
          rw [hes e (by simp) front (by omega) hfirst hearlier, List.flatMap_map,
            List.append_assoc]
          congr 2
          refine List.flatMap_congr fun c hc => calls_substitute_eq c fun hid => ?_
          exact absurd (List.mem_flatMap.mpr ⟨c, hc, hid⟩) hrest
      | none =>
          obtain ⟨front, hfront, rfl⟩ : ∃ front, evaluatedBeforeIn id es = some front ∧
              e :: front = earlier := by
            simpa [evaluatedBeforeIn, hfirst] using hbefore
          have hunread := (evaluatedBefore_eq_none_iff e).mp hfirst
          rw [calls_substitute_eq e fun hid => absurd hid hunread, hearlier e (by simp),
            ih (fun c hc => hes c (by simp [hc])) (by omega) hfront
              fun x hx => hearlier x (by simp [hx])]
          rfl

theorem callsFirst
    (id : VarId)
    (value e : Expr) :
    CallsFirst id value e := by
  induction e using children_induction with
  | step e ih =>
      intro earlier hcount hbefore hearlier
      cases hvar : e.var? with
      | some v =>
          obtain rfl := eq_var_of_var? hvar
          have hv : v = id := by
            by_contra hne
            simp [evaluatedBefore, hne] at hbefore
          simp [substitute, hv, calls]
      | none =>
          rw [varsRead_eq_of_not_var hvar] at hcount
          rw [evaluatedBefore_eq_of_not_var hvar] at hbefore
          rw [calls_eq, calls_eq e, (children_substitute_of_not_var id value hvar).2,
            ownCall?_substitute hvar, flatMap_calls_of_callsFirst ih hcount hbefore hearlier,
            List.append_assoc]

end Expr

namespace Instr

/-- What an instruction does itself, apart from evaluating its operands. -/
def ownEffect? : Instr → Option Effect
  | .ret _ => some .ret
  | .throw _ => some .throw
  | .fillArrayData _ width data => some (.fillArrayData width data)
  | .fieldWrite _ field _ => some (.fieldWrite field)
  | .staticFieldWrite field _ => some (.staticFieldWrite field)
  | .arrayWrite .. => some .arrayWrite
  | .monitorEnter _ => some .monitorEnter
  | .monitorExit _ => some .monitorExit
  | _ => none

/-- The effects of an instruction, in order. -/
def effects (ins : Instr) : List Effect :=
  ins.operands.flatMap Expr.calls ++ ins.ownEffect?.toList

theorem ownEffect?_substitute
    (ins : Instr) :
    (ins.substitute id value).ownEffect? = ins.ownEffect? := by
  cases ins <;> rfl

theorem operands_substitute
    (ins : Instr) :
    (ins.substitute id value).operands = ins.operands.map (Expr.substitute id value) :=
  operands_mapOperands _ ins

/-- An assignment makes the calls of its value. -/
theorem effects_of_value?
    {ins : Instr}
    (h : ins.value? = some value) :
    ins.effects = value.calls := by
  cases ins <;> simp_all [value?, effects, operands, ownEffect?]

/-- An instruction that need not stay has no effects. -/
theorem effects_eq_nil_of_not_hasEffect
    {ins : Instr}
    (h : ins.hasEffect = false) :
    ins.effects = [] := by
  cases ins <;>
    simp_all [hasEffect, effects, operands, ownEffect?, Expr.calls_eq_nil_iff]

/-- What is not a call is done by the instruction itself. -/
theorem filter_effects
    (ins : Instr) :
    ins.effects.filter (!·.isCall) = ins.ownEffect?.toList := by
  have hcalls : (ins.operands.flatMap Expr.calls).filter (!·.isCall) = [] := by
    refine List.filter_eq_nil_iff.mpr fun effect h => ?_
    obtain ⟨e, -, h⟩ := List.mem_flatMap.mp h
    simp [Expr.isCall_of_mem_calls h]
  rw [effects, List.filter_append, hcalls, List.nil_append, List.filter_eq_self]
  intro effect h
  have hown : ins.ownEffect? = some effect := Option.mem_toList.mp h
  cases ins <;> simp only [ownEffect?, reduceCtorEq, Option.some.injEq] at hown <;>
    (subst hown; rfl)

/-- A substitution adds effects only where the variable is read. -/
theorem effects_substitute_eq
    (ins : Instr)
    (h : id ∈ ins.reads → value.calls = []) :
    (ins.substitute id value).effects = ins.effects := by
  rw [effects, effects, operands_substitute, ownEffect?_substitute, List.flatMap_map]
  congr 1
  refine List.flatMap_congr fun e he => Expr.calls_substitute_eq e fun hid => h ?_
  exact List.mem_flatMap.mpr ⟨e, he, hid⟩

/-- A value with an effect that takes the place of a variable has its effects before those of the
instruction, if it may be evaluated there. -/
theorem effects_substitute_of_preservesOrder
    {ins : Instr}
    (heffect : value.hasEffect = true)
    (hread : id ∈ ins.reads)
    (hcount : ins.readsOf id ≤ 1)
    (horder : ins.preservesOrder id value = true) :
    (ins.substitute id value).effects = value.calls ++ ins.effects := by
  obtain ⟨earlier, hbefore⟩ : ∃ earlier, Expr.evaluatedBeforeIn id ins.operands = some earlier := by
    refine Option.ne_none_iff_exists'.mp fun hnone => ?_
    obtain ⟨e, he, hid⟩ := List.mem_flatMap.mp hread
    exact (Expr.evaluatedBefore_eq_none_iff e).mp
      (Expr.evaluatedBeforeIn_eq_none_iff.mp hnone e he) hid
  have hearlier : ∀ x, x ∈ earlier → x.calls = [] := by
    intro x hx
    simp only [preservesOrder, hbefore, Bool.not_eq_true', List.any_eq_false] at horder
    have hnot := horder x hx
    simp only [Expr.mustPrecede, heffect, if_true, Bool.or_eq_true, not_or] at hnot
    exact (Expr.calls_eq_nil_iff x).mpr (by simpa using hnot.1)
  rw [effects, effects, operands_substitute, ownEffect?_substitute,
    Expr.flatMap_calls_of_callsFirst (fun e _ => Expr.callsFirst id value e) hcount
      hbefore hearlier,
    List.append_assoc]

end Instr
end Symbolic
end DalvikDecompiler
