import DalvikDecompiler.Proofs.Symbolic.Substitution
import DalvikDecompiler.Symbolic.Lifting

/-!
# Instructions that are read off their operands

**Input.** An instruction that is lifted.

Most instructions are made of variables of registers and of immediate operands.
The others call a method, make an array or move a result.  Whatever holds of the
reading of one operand and of the instruction that is made in the end holds of
all instructions of the first kind.

**Results.**
* `Reads`: code that reads operands and makes an instruction of them that neither
  makes nor moves a result.
* `lifting_liftOther`: how an instruction other than a jump is lifted.
-/

namespace DalvikDecompiler
namespace Symbolic

/-- The variables that an instruction defines or reads. -/
def Instr.mentions (ins : Instr) : List VarId :=
  ins.target?.toList ++ ins.reads

@[simp] theorem Expr.varsRead_var
    (v : VarId) :
    (Expr.var v).varsRead = [v] := by
  simp [Expr.varsRead, Expr.subterms, Expr.var?]

/-- What the operands of an expression read is all that it reads, unless it is a variable. -/
theorem Expr.mem_of_operands
    {e : Expr}
    {known : List VarId}
    (hvar : e.var? = none)
    (h : ∀ c, c ∈ e.children → ∀ v, v ∈ c.varsRead → v ∈ known)
    (v : VarId)
    (hv : v ∈ e.varsRead) :
    v ∈ known := by
  rw [varsRead_eq_of_not_var hvar] at hv
  obtain ⟨c, hc, hv⟩ := List.mem_flatMap.mp hv
  exact h c hc v hv

/-- Whether a variable that a value is assigned to is made for this value.  A constructor assigns
the object that it is called on. -/
def Expr.makes (target : VarId) : Expr → Bool
  | .staticCall .. => true
  | .filledArray .. => true
  | .call _ _ (.var receiver) _ => target != receiver
  | _ => false

/-- The variable that an instruction makes for its result. -/
def Instr.result? : Instr → Option VarId
  | .assign (some target) value => if value.makes target then some target else none
  | _ => none

/-- The value that a move of a result moves. -/
def Instr.moved? : Instr → Option Expr
  | .moveResult _ value => some value
  | _ => none

namespace LiftState

open Bytecode (FieldRef Instruction)

/-- An instruction that neither makes nor moves a result. -/
def Plain (made : Instr) : Prop :=
  made.result? = none ∧ made.moved? = none

theorem plain_assign
    {target : VarId}
    {value : Expr}
    (h : value.makes target = false) :
    Plain (.assign (some target) value) :=
  ⟨if_neg (by simp [h]), rfl⟩

/-- Code that reads operands, and makes an instruction of them and of variables that are known. -/
inductive Reads (ins : Instruction) : List VarId → LiftM Instr → Prop where
  | made {known : List VarId} {made : Instr}
      (hknown : ∀ v, v ∈ made.mentions → v ∈ known)
      (hplain : Plain made) :
      Reads ins known (pure made)
  | require {α : Type} {known : List VarId} {operand : Option α} {error : LiftError}
      {f : α → LiftM Instr}
      (h : ∀ a, Reads ins known (f a)) :
      Reads ins known (require operand error >>= f)
  | reg {known : List VarId} {n : Nat} {f : VarId → LiftM Instr}
      (h : ∀ v, Reads ins (v :: known) (f v)) :
      Reads ins known (reg ins n >>= f)

namespace Reads

variable {ins : Instruction} {known : List VarId} {n : Nat}

theorem operand
    {f : Expr → LiftM Instr}
    (h : ∀ v, Reads ins (v :: known) (f (.var v))) :
    Reads ins known (LiftState.operand ins n >>= f) := by
  rw [LiftState.operand, bind_map_left]
  exact .reg h

theorem literal
    {f : Int64 → LiftM Instr}
    (h : ∀ value, Reads ins known (f value)) :
    Reads ins known (LiftState.literal ins >>= f) :=
  .require h

theorem intLiteral
    {f : Expr → LiftM Instr}
    (h : ∀ value, Reads ins known (f (.const (.int value)))) :
    Reads ins known (LiftState.intLiteral ins >>= f) := by
  rw [LiftState.intLiteral, bind_assoc]
  refine .require fun value => ?_
  rw [pure_bind]
  exact h _

theorem type
    {f : String → LiftM Instr}
    (h : ∀ t, Reads ins known (f t)) :
    Reads ins known (LiftState.type ins >>= f) :=
  .require h

theorem field
    {f : FieldRef → LiftM Instr}
    (h : ∀ reference, Reads ins known (f reference)) :
    Reads ins known (LiftState.field ins >>= f) :=
  .require h

theorem assigned
    {target : VarId}
    {value : Expr}
    (htarget : target ∈ known)
    (h : ∀ v, v ∈ value.varsRead → v ∈ known)
    (hmakes : value.makes target = false) :
    Reads ins known (pure (.assign (some target) value)) := by
  refine .made (fun v hv => ?_) (plain_assign hmakes)
  simp only [Instr.mentions, Instr.target?, Instr.reads, Instr.operands, Option.toList_some,
    List.flatMap_singleton, List.singleton_append, List.mem_cons] at hv
  rcases hv with rfl | hv
  · exact htarget
  · exact h v hv

theorem assign
    {value : Expr}
    (h : ∀ v, v ∈ value.varsRead → v ∈ known)
    (hmakes : ∀ target, value.makes target = false) :
    Reads ins known (LiftState.assign ins value) :=
  .reg fun target => .assigned List.mem_cons_self (fun v hv => List.mem_cons_of_mem _ (h v hv))
    (hmakes target)

theorem cast
    (type : String) :
    Reads ins known (LiftState.cast ins type) :=
  .operand fun _ => .assign (Expr.mem_of_operands rfl (by simp [Expr.children])) fun _ => rfl

theorem unary
    (op : UnaryOp)
    (type : String) :
    Reads ins known (LiftState.unary ins op type) :=
  .operand fun _ => .assign (Expr.mem_of_operands rfl (by simp [Expr.children])) fun _ => rfl

theorem compare
    (type : String) :
    Reads ins known (LiftState.compare ins type) :=
  .operand fun _ => .operand fun _ =>
    .assign (Expr.mem_of_operands rfl (by simp [Expr.children])) fun _ => rfl

theorem binary
    (a : Arithmetic) :
    Reads ins known (LiftState.binary ins a) := by
  unfold LiftState.binary
  have hassign : ∀ {known : List VarId} (left right : Expr),
      (∀ v, v ∈ left.varsRead → v ∈ known) → (∀ v, v ∈ right.varsRead → v ∈ known) →
      Reads ins known (pure (left, right) >>= fun operands : Expr × Expr =>
        LiftState.assign ins (.binary a.op operands.1 operands.2 a.type)) := by
    intro known left right hleft hright
    rw [pure_bind]
    refine .assign (Expr.mem_of_operands rfl ?_) fun _ => rfl
    simpa [Expr.children] using ⟨hleft, hright⟩
  have hconst : ∀ (value : Int32) (v : VarId), v ∈ (Expr.const (.int value)).varsRead → v ∈ known :=
    fun value => Expr.mem_of_operands rfl (by simp [Expr.children])
  cases a.form with
  | threeRegister => exact .operand fun _ => .operand fun _ => hassign _ _ (by simp) (by simp)
  | twoAddress => exact .operand fun _ => .operand fun _ => hassign _ _ (by simp) (by simp)
  | literal =>
      exact .operand fun _ => .intLiteral fun value =>
        hassign _ _ (by simp) fun v hv => List.mem_cons_of_mem _ (hconst value v hv)
  | reverseLiteral =>
      exact .intLiteral fun value => .operand fun _ =>
        hassign _ _ (fun v hv => List.mem_cons_of_mem _ (hconst value v hv)) (by simp)

/-- An instruction that has operands, and defines nothing. -/
theorem acts
    {made : Instr}
    (htarget : made.target? = none)
    (h : ∀ c, c ∈ made.operands → ∀ v, v ∈ c.varsRead → v ∈ known)
    (hplain : Plain made) :
    Reads ins known (pure made) := by
  refine .made (fun v hv => ?_) hplain
  rw [Instr.mentions, htarget, Instr.reads] at hv
  obtain ⟨c, hc, hv⟩ := List.mem_flatMap.mp hv
  exact h c hc v hv

theorem arithmetic
    (a : Option Arithmetic) :
    Reads ins known (match a with
      | some a => LiftState.binary ins a
      | none => pure .nop) := by
  cases a with
  | none => exact .acts rfl (by simp [Instr.operands]) ⟨rfl, rfl⟩
  | some a => exact .binary a

theorem move :
    Reads ins known (do
      let target ← LiftState.reg ins 0
      let value ← LiftState.operand ins 1
      return .move target value) :=
  .reg fun _ => .operand fun _ =>
    .made (by simp [Instr.mentions, Instr.target?, Instr.reads, Instr.operands]) ⟨rfl, rfl⟩

theorem ifCompare
    (relation : Relation) :
    Reads ins known (do
      let left ← LiftState.operand ins 0
      let right ← LiftState.operand ins 1
      return .ifCompare relation left right) :=
  .operand fun _ => .operand fun _ => .acts rfl (by simp [Instr.operands]) ⟨rfl, rfl⟩

theorem ifCompareZero
    (relation : Relation) :
    Reads ins known (do
      let value ← LiftState.operand ins 0
      return .ifCompareZero relation value) :=
  .operand fun _ => .acts rfl (by simp [Instr.operands]) ⟨rfl, rfl⟩

theorem arrayRead
    (type : Option String) :
    Reads ins known (do
      let array ← LiftState.operand ins 1
      let index ← LiftState.operand ins 2
      LiftState.assign ins (.arrayRead array index type)) :=
  .operand fun _ => .operand fun _ =>
    .assign (Expr.mem_of_operands rfl (by simp [Expr.children])) fun _ => rfl

theorem arrayWrite :
    Reads ins known (do
      let value ← LiftState.operand ins 0
      let array ← LiftState.operand ins 1
      let index ← LiftState.operand ins 2
      return .arrayWrite array index value) :=
  .operand fun _ => .operand fun _ => .operand fun _ =>
    .acts rfl (by simp [Instr.operands]) ⟨rfl, rfl⟩

theorem fieldRead :
    Reads ins known (do
      let object ← LiftState.operand ins 1
      let source ← LiftState.field ins
      LiftState.assign ins (.fieldRead object source)) :=
  .operand fun _ => .field fun _ =>
    .assign (Expr.mem_of_operands rfl (by simp [Expr.children])) fun _ => rfl

theorem fieldWrite :
    Reads ins known (do
      let value ← LiftState.operand ins 0
      let object ← LiftState.operand ins 1
      let target ← LiftState.field ins
      return .fieldWrite object target value) :=
  .operand fun _ => .operand fun _ => .field fun _ =>
    .acts rfl (by simp [Instr.operands]) ⟨rfl, rfl⟩

theorem staticFieldRead :
    Reads ins known (do
      let source ← LiftState.field ins
      LiftState.assign ins (.staticFieldRead source)) :=
  .field fun _ => .assign (Expr.mem_of_operands rfl (by simp [Expr.children])) fun _ => rfl

theorem staticFieldWrite :
    Reads ins known (do
      let value ← LiftState.operand ins 0
      let target ← LiftState.field ins
      return .staticFieldWrite target value) :=
  .operand fun _ => .field fun _ => .acts rfl (by simp [Instr.operands]) ⟨rfl, rfl⟩

theorem constant
    (constant : Constant) :
    Reads ins known (LiftState.assign ins (.const constant)) :=
  .assign (Expr.mem_of_operands rfl (by simp [Expr.children])) fun _ => rfl

end Reads

/-- How an instruction other than a jump is lifted. -/
inductive Lifting (ins : Instruction) : LiftM Instr → Prop where
  | reads {x : LiftM Instr} (h : Reads ins [] x) : Lifting ins x
  | moveResult : Lifting ins (moveResult ins)
  | call (dispatch : Dispatch) : Lifting ins (call ins dispatch)
  | staticCall : Lifting ins (staticCall ins)
  | filledArray : Lifting ins (filledArray ins)

/-- Calls, arrays of operands and moves of results apart, an instruction is made of what it
reads. -/
theorem lifting_liftOther
    (ins : Instruction) :
    Lifting ins (liftOther ins) := by
  unfold liftOther
  generalize ins.opcode = op
  have hoperator : Reads ins [] (match arithmetic? op with
      | some a => binary ins a
      | none => pure .nop) := .arithmetic _
  cases op <;> dsimp only
  all_goals with_reducible first
    | exact .call _
    | exact .staticCall
    | exact .filledArray
    | exact .moveResult
    | refine .reads ?_
      try first
        | exact Reads.cast _
        | exact Reads.fieldRead
        | exact Reads.fieldWrite
        | exact Reads.staticFieldRead
        | exact Reads.staticFieldWrite
        | exact Reads.arrayRead _
        | exact Reads.arrayWrite
        | exact Reads.ifCompare _
        | exact Reads.ifCompareZero _
        | exact Reads.move
        | exact Reads.unary _ _
        | exact Reads.compare _
  all_goals try exact hoperator
  -- what is left is of no family: its operands are read one after another
  all_goals with_reducible
    repeat' first
      | refine Reads.operand fun _ => ?_
      | refine Reads.reg fun _ => ?_
      | refine Reads.type fun _ => ?_
      | refine Reads.intLiteral fun _ => Reads.constant _
      | refine Reads.literal fun _ => Reads.constant _
      | refine Reads.require fun _ => ?_
      | exact Reads.constant _
      | refine Reads.assign (Expr.mem_of_operands rfl ?_) fun _ => rfl
      | refine Reads.assigned List.mem_cons_self (Expr.mem_of_operands ?_ ?_) ?_
      | refine Reads.made ?_ ?_
  all_goals first
    | rfl
    | exact ⟨rfl, rfl⟩
    | simp [Instr.mentions, Instr.target?, Instr.reads, Instr.operands, Expr.children]

end LiftState
end Symbolic
end DalvikDecompiler
