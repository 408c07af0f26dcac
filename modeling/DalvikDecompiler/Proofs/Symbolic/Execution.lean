import DalvikDecompiler.Proofs.Symbolic.Effects

/-!
# Running instructions

**Input.** Instructions on variables, and an interpretation of what they are
made of.

An operator gives a value from the values of its operands and from the heap.
Calls, writes and all other effects leave some heap behind.  What can be seen of
a run are its effects and the tests of its branches, with the values that they
are given.

**Results.**
* `eval_eq`: an expression evaluates its operands from left to right and then
  applies its operator.
* `exec_congr`: an instruction depends on the variables that it reads.
* `exec_of_not_hasEffect`: an assignment without an effect changes its variable
  and nothing else.
-/

namespace DalvikDecompiler
namespace Symbolic

open Bytecode (FieldRef MethodRef)

/-- What gives a value to the values of some operands. -/
inductive Operator where
  | const (constant : Constant)
  | unary (op : UnaryOp) (type : String)
  | binary (op : BinaryOp) (type : String)
  | compare (type : String)
  | cast (type : String)
  | checkCast (type : String)
  | instanceOf (type : String)
  | arrayLength
  | newInstance (type : String)
  | newArray (type : String)
  | filledArray (type : String)
  | fieldRead (field : FieldRef)
  | staticFieldRead (field : FieldRef)
  | arrayRead (type : Option String)
  /-- A call, of a static method if no dispatch is given. -/
  | call (dispatch : Option Dispatch) (method : MethodRef)
  /-- The exception that a handler has been entered with. -/
  | caught
  deriving DecidableEq, Repr

namespace Operator

/-- What applying an operator does. -/
def effect? : Operator → Option Effect
  | .call dispatch method => some (.call dispatch method)
  | _ => none

/-- Whether an operator reads the heap. -/
def isHeapRead : Operator → Bool
  | .fieldRead _ => true
  | .staticFieldRead _ => true
  | .arrayRead _ => true
  | _ => false

end Operator

/-- The operator of an expression that is not a variable. -/
def Expr.operator? : Expr → Option Operator
  | .var _ => none
  | .const constant => some (.const constant)
  | .unary op _ type => some (.unary op type)
  | .binary op _ _ type => some (.binary op type)
  | .compare type _ _ => some (.compare type)
  | .cast type _ => some (.cast type)
  | .checkCast type _ => some (.checkCast type)
  | .instanceOf type _ => some (.instanceOf type)
  | .arrayLength _ => some .arrayLength
  | .newInstance type => some (.newInstance type)
  | .newArray type _ => some (.newArray type)
  | .filledArray type _ => some (.filledArray type)
  | .fieldRead _ field => some (.fieldRead field)
  | .staticFieldRead field => some (.staticFieldRead field)
  | .arrayRead _ _ type => some (.arrayRead type)
  | .staticCall method _ => some (.call none method)
  | .call dispatch method _ _ => some (.call (some dispatch) method)

/-- Something that can be seen of a run, with the values it is given. -/
inductive Event (Value : Type*) where
  | effect (effect : Effect) (values : List Value)
  | compared (relation : Relation) (values : List Value)
  | switched (values : List Value)
  deriving DecidableEq, Repr

/-- The branch that an instruction takes is decided by the values of its operands. -/
def Instr.tests {Value : Type*} (ins : Instr) (values : List Value) : List (Event Value) :=
  match ins with
  | .ifCompare relation _ _ => [.compared relation values]
  | .ifCompareZero relation _ => [.compared relation values]
  | .switch _ => [.switched values]
  | _ => []

/-- An instruction that defines a variable does nothing else itself. -/
theorem Instr.ownEffect?_of_target?
    {ins : Instr}
    (h : ins.target?.isSome = true) :
    ins.ownEffect? = none := by
  cases ins <;> first | rfl | simp [target?] at h

theorem Instr.tests_of_target?
    {Value : Type*}
    {ins : Instr}
    (h : ins.target?.isSome = true)
    (values : List Value) :
    ins.tests values = [] := by
  cases ins <;> first | rfl | simp [target?] at h

/-- A result, the heap that is left behind it, and what has been seen on the way. -/
@[ext]
structure Outcome (Value Heap Result : Type*) where
  result : Result
  heap : Heap
  events : List (Event Value)

namespace Outcome

variable {Value Heap A B C : Type*}

/-- A result that is at hand. -/
def of (result : A) (heap : Heap) : Outcome Value Heap A :=
  ⟨result, heap, []⟩

/-- Go on with a result and the heap behind it. -/
def andThen (o : Outcome Value Heap A) (next : A → Heap → Outcome Value Heap B) :
    Outcome Value Heap B :=
  let o' := next o.result o.heap
  ⟨o'.result, o'.heap, o.events ++ o'.events⟩

@[simp] theorem of_andThen
    (result : A)
    (heap : Heap)
    (next : A → Heap → Outcome Value Heap B) :
    (of result heap).andThen next = next result heap :=
  rfl

@[simp] theorem andThen_of
    (o : Outcome Value Heap A) :
    (o.andThen of) = o := by
  ext
  · rfl
  · rfl
  · simp [andThen, of]

@[simp] theorem andThen_andThen
    (o : Outcome Value Heap A)
    (next : A → Heap → Outcome Value Heap B)
    (last : B → Heap → Outcome Value Heap C) :
    (o.andThen next).andThen last = o.andThen fun a heap => (next a heap).andThen last := by
  ext
  · rfl
  · rfl
  · simp [andThen]

end Outcome

/-- Two runs that are seen alike and leave the same heap, and the same values of all variables but
some. -/
structure SameExcept {Value Heap : Type*} (except : VarId → Prop)
    (o o' : Outcome Value Heap (VarId → Value)) : Prop where
  heap_eq : o'.heap = o.heap
  events_eq : o'.events = o.events
  result_eq : ∀ v, ¬ except v → o'.result v = o.result v

namespace SameExcept

variable {Value Heap : Type*} {o o' o'' : Outcome Value Heap (VarId → Value)}
  {except except' : VarId → Prop}

theorem mono
    (h : SameExcept except o o')
    (hle : ∀ v, except v → except' v) :
    SameExcept except' o o' :=
  ⟨h.heap_eq, h.events_eq, fun v hv => h.result_eq v fun hexcept => hv (hle v hexcept)⟩

theorem trans
    (h : SameExcept except o o')
    (h' : SameExcept except' o' o'') :
    SameExcept (fun v => except v ∨ except' v) o o'' := by
  refine ⟨h'.heap_eq.trans h.heap_eq, h'.events_eq.trans h.events_eq, fun v hv => ?_⟩
  obtain ⟨hfirst, hsecond⟩ := not_or.mp hv
  exact (h'.result_eq v hsecond).trans (h.result_eq v hfirst)

/-- The runs go on with code that leads from both of them to the same. -/
theorem andThen
    {next next' : (VarId → Value) → Heap → Outcome Value Heap (VarId → Value)}
    (h : SameExcept except o o')
    (hnext : SameExcept except' (next o.result o.heap) (next' o'.result o.heap)) :
    SameExcept except' (o.andThen next) (o'.andThen next') := by
  have hheap := h.heap_eq
  have hevents := h.events_eq
  constructor
  · simpa [Outcome.andThen, hheap] using hnext.heap_eq
  · simpa [Outcome.andThen, hheap, hevents] using hnext.events_eq
  · simpa [Outcome.andThen, hheap] using hnext.result_eq

end SameExcept

/-- What operators and effects mean. -/
structure Interpretation (Value Heap : Type*) where
  /-- The value of an operator or a call. -/
  value : Operator → List Value → Heap → Value
  /-- The heap that an effect leaves. -/
  heapAfter : Effect → List Value → Heap → Heap

namespace Interpretation

variable {Value Heap : Type*} (I : Interpretation Value Heap) (env : VarId → Value)

/-- The heap behind an effect, if there is one. -/
def affect : Option Effect → List Value → Heap → Heap
  | none, _, heap => heap
  | some effect, values, heap => I.heapAfter effect values heap

/-- Apply an operator to the values of its operands. -/
def apply (op : Operator) (values : List Value) (heap : Heap) : Outcome Value Heap Value where
  result := I.value op values heap
  heap := I.affect op.effect? values heap
  events := op.effect?.toList.map (Event.effect · values)

mutual

/-- Evaluate an expression. -/
def eval : Expr → Heap → Outcome Value Heap Value
  | .var id, heap => .of (env id) heap
  | .const constant, heap => I.apply (.const constant) [] heap
  | .newInstance type, heap => I.apply (.newInstance type) [] heap
  | .staticFieldRead field, heap => I.apply (.staticFieldRead field) [] heap
  | .unary op operand type, heap =>
      (eval operand heap).andThen fun v => I.apply (.unary op type) [v]
  | .cast type operand, heap => (eval operand heap).andThen fun v => I.apply (.cast type) [v]
  | .checkCast type operand, heap =>
      (eval operand heap).andThen fun v => I.apply (.checkCast type) [v]
  | .instanceOf type operand, heap =>
      (eval operand heap).andThen fun v => I.apply (.instanceOf type) [v]
  | .arrayLength array, heap => (eval array heap).andThen fun v => I.apply .arrayLength [v]
  | .newArray type size, heap => (eval size heap).andThen fun v => I.apply (.newArray type) [v]
  | .fieldRead object field, heap =>
      (eval object heap).andThen fun v => I.apply (.fieldRead field) [v]
  | .binary op left right type, heap =>
      (eval left heap).andThen fun v heap =>
        (eval right heap).andThen fun w => I.apply (.binary op type) [v, w]
  | .compare type left right, heap =>
      (eval left heap).andThen fun v heap =>
        (eval right heap).andThen fun w => I.apply (.compare type) [v, w]
  | .arrayRead array index type, heap =>
      (eval array heap).andThen fun v heap =>
        (eval index heap).andThen fun w => I.apply (.arrayRead type) [v, w]
  | .filledArray type elements, heap =>
      (evalAll elements heap).andThen (I.apply (.filledArray type))
  | .staticCall method args, heap => (evalAll args heap).andThen (I.apply (.call none method))
  | .call dispatch method receiver args, heap =>
      (eval receiver heap).andThen fun v heap =>
        (evalAll args heap).andThen fun vs => I.apply (.call (some dispatch) method) (v :: vs)

/-- Evaluate the expressions of a list, one after another. -/
def evalAll : List Expr → Heap → Outcome Value Heap (List Value)
  | [], heap => .of [] heap
  | e :: rest, heap =>
      (eval e heap).andThen fun v heap => (evalAll rest heap).andThen fun vs => .of (v :: vs)

end

/-- What an instruction does with the values of its operands. -/
def conclude (ins : Instr) (values : List Value) (heap : Heap) :
    Outcome Value Heap (VarId → Value) where
  result :=
    match ins.target? with
    | none => env
    | some v => Function.update env v (values.headD (I.value .caught [] heap))
  heap := I.affect ins.ownEffect? values heap
  events := ins.tests values ++ ins.ownEffect?.toList.map (Event.effect · values)

/-- Execute an instruction: evaluate its operands, and go on with their values. -/
def exec (ins : Instr) (heap : Heap) : Outcome Value Heap (VarId → Value) :=
  (I.evalAll env ins.operands heap).andThen (I.conclude env ins)

variable {I env} {env' : VarId → Value} {e : Expr} {es : List Expr} {ins : Instr} {heap : Heap}

/-- Operands are evaluated first, from left to right. -/
theorem eval_eq
    {op : Operator}
    (h : e.operator? = some op) :
    I.eval env e heap = (I.evalAll env e.children heap).andThen (I.apply op) := by
  cases e <;> simp only [Expr.operator?, Option.some.injEq, reduceCtorEq] at h <;> subst h <;>
    simp [eval, evalAll, Expr.children]

theorem operator?_eq_none_iff :
    e.operator? = none ↔ ∃ v, e = .var v := by
  cases e <;> simp [Expr.operator?]

theorem effect?_eq_none_iff
    {op : Operator}
    (h : e.operator? = some op) :
    op.effect? = none ↔ e.isCall = false := by
  cases e <;> simp only [Expr.operator?, Option.some.injEq, reduceCtorEq] at h <;> subst h <;>
    simp [Operator.effect?, Expr.isCall]

theorem evalAll_congr
    (h : ∀ e, e ∈ es → ∀ heap, I.eval env e heap = I.eval env' e heap)
    (heap : Heap) :
    I.evalAll env es heap = I.evalAll env' es heap := by
  induction es generalizing heap with
  | nil => rfl
  | cons e es ih =>
      have hrest := ih fun c hc => h c (by simp [hc])
      simp only [evalAll, h e (by simp), hrest]

/-- The value of an expression depends on the variables that it reads. -/
theorem eval_congr
    (h : ∀ v, v ∈ e.varsRead → env v = env' v)
    (heap : Heap) :
    I.eval env e heap = I.eval env' e heap := by
  induction e using Expr.children_induction generalizing heap with
  | step e ih =>
      cases hop : e.operator? with
      | none =>
          obtain ⟨v, rfl⟩ := operator?_eq_none_iff.mp hop
          simp [eval, h v (by simp [Expr.varsRead, Expr.subterms, Expr.var?])]
      | some op =>
          have hvar : e.var? = none := by
            cases e <;> first | rfl | simp [Expr.operator?] at hop
          rw [eval_eq hop, eval_eq hop, evalAll_congr fun c hc heap => ih c hc ?_ heap]
          intro v hv
          refine h v ?_
          rw [Expr.varsRead_eq_of_not_var hvar]
          exact List.mem_flatMap.mpr ⟨c, hc, hv⟩

theorem evalAll_of_quiet
    (h : ∀ e, e ∈ es → ∀ heap, ∃ value, I.eval env e heap = .of value heap)
    (heap : Heap) :
    ∃ values, I.evalAll env es heap = .of values heap ∧ values.length = es.length := by
  induction es with
  | nil => exact ⟨[], rfl, rfl⟩
  | cons e es ih =>
      obtain ⟨value, hvalue⟩ := h e (by simp) heap
      obtain ⟨values, hvalues, hlength⟩ := ih fun c hc => h c (by simp [hc])
      exact ⟨value :: values, by simp [evalAll, hvalue, hvalues], by simp [hlength]⟩

/-- Evaluating an expression without an effect gives a value and does nothing else. -/
theorem eval_of_not_hasEffect
    (h : e.hasEffect = false)
    (heap : Heap) :
    ∃ value, I.eval env e heap = .of value heap := by
  induction e using Expr.children_induction generalizing heap with
  | step e ih =>
      cases hop : e.operator? with
      | none =>
          obtain ⟨v, rfl⟩ := operator?_eq_none_iff.mp hop
          exact ⟨env v, rfl⟩
      | some op =>
          rw [Expr.hasEffect_eq, Bool.or_eq_false_iff, List.any_eq_false] at h
          obtain ⟨values, hvalues, -⟩ := evalAll_of_quiet
            (fun c hc => ih c hc (by simpa using h.2 c hc)) heap
          refine ⟨I.value op values heap, ?_⟩
          rw [eval_eq hop, hvalues, Outcome.of_andThen]
          simp [apply, (effect?_eq_none_iff hop).mpr h.1, affect, Outcome.of]

/-- Variables that an instruction does not define keep their values. -/
theorem exec_result_of_ne
    {v : VarId}
    (h : ins.target? ≠ some v)
    (heap : Heap) :
    (I.exec env ins heap).result v = env v := by
  simp only [exec, Outcome.andThen, conclude]
  cases htarget : ins.target? with
  | none => rfl
  | some w =>
      have hne : v ≠ w := fun heq => h (heq ▸ htarget)
      exact Function.update_of_ne hne _ _

/-- What an instruction does depends on the variables that it reads. -/
theorem exec_congr
    {except : VarId → Prop}
    (hreads : ∀ v, v ∈ ins.reads → env' v = env v)
    (hrest : ∀ v, ¬ except v → env' v = env v)
    (heap : Heap) :
    SameExcept (fun v => except v ∧ ins.target? ≠ some v) (I.exec env ins heap)
      (I.exec env' ins heap) := by
  have hoperands : I.evalAll env' ins.operands heap = I.evalAll env ins.operands heap :=
    evalAll_congr
      (fun e he => eval_congr fun v hv => hreads v (List.mem_flatMap.mpr ⟨e, he, hv⟩)) heap
  refine ⟨by simp [exec, Outcome.andThen, conclude, hoperands],
    by simp [exec, Outcome.andThen, conclude, hoperands], fun v hv => ?_⟩
  by_cases htarget : ins.target? = some v
  · simp [exec, Outcome.andThen, conclude, hoperands, htarget]
  · rw [exec_result_of_ne htarget, exec_result_of_ne htarget]
    exact hrest v fun hexcept => hv ⟨hexcept, htarget⟩

/-- An assignment without an effect changes its variable and nothing else. -/
theorem exec_of_not_hasEffect
    (htarget : ins.target?.isSome = true)
    (heffect : ins.hasEffect = false)
    (env : VarId → Value)
    (heap : Heap) :
    SameExcept (fun v => ins.target? = some v) (I.exec env ins heap) (.of env heap) := by
  have hquiet : ∀ e, e ∈ ins.operands → e.hasEffect = false := by
    cases ins <;> simp_all [Instr.target?, Instr.hasEffect, Instr.operands]
  have heval : ∀ e, e ∈ ins.operands → ∀ heap, ∃ value, I.eval env e heap = .of value heap :=
    fun e he => eval_of_not_hasEffect (hquiet e he)
  obtain ⟨values, hvalues, -⟩ := evalAll_of_quiet heval heap
  have hexec : I.exec env ins heap = I.conclude env ins values heap := by
    rw [exec, hvalues, Outcome.of_andThen]
  have hown := Instr.ownEffect?_of_target? htarget
  refine ⟨?_, ?_, fun v hv => (exec_result_of_ne hv heap).symm⟩
  · simp [hexec, conclude, hown, affect, Outcome.of]
  · simp [hexec, conclude, hown, Instr.tests_of_target? htarget, Outcome.of]

end Interpretation
end Symbolic
end DalvikDecompiler
