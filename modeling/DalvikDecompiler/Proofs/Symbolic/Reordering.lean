import DalvikDecompiler.Proofs.Symbolic.Execution

/-!
# Values evaluated at another place

**Input.** An interpretation in which only calls and reads of the heap depend on
the heap.

A value that takes the place of a variable is evaluated behind what stands in
front of the variable.  Two expressions can change places if neither makes a
call, or if one makes calls and the other does neither that nor reads the heap.
An instruction and the definition of a value can change places on the same
terms, if neither defines what the other reads.

**Results.**
* `eval_substitute_of_preservesOrder`: the value may be evaluated first.
* `exec_substitute`: a value that does not depend on the heap and is held by the
  variable may take its place anywhere.
* `exec_swap`: a definition and an instruction that does not block it.
-/

namespace DalvikDecompiler
namespace Symbolic

/-- Whether an operand of an instruction reads the heap. -/
def Instr.readsHeap (ins : Instr) : Bool :=
  ins.operands.any Expr.readsHeap

theorem Expr.readsHeap_eq
    (e : Expr) :
    e.readsHeap = (e.isHeapRead || e.children.any readsHeap) := by
  rw [readsHeap, subterms_eq, List.any_cons, List.any_flatMap]
  rfl

theorem Expr.operator?_substitute
    (id : VarId)
    (value : Expr)
    {e : Expr}
    {op : Operator}
    (h : e.operator? = some op) :
    (substitute id value e).operator? = some op := by
  cases e <;> first | exact h | simp [operator?] at h

theorem Expr.var?_of_operator?
    {e : Expr}
    {op : Operator}
    (h : e.operator? = some op) :
    e.var? = none := by
  cases e <;> first | rfl | simp [operator?] at h

/-- Whether an event is an effect, and not the test of a branch. -/
def Event.isEffect {Value : Type*} : Event Value → Bool
  | .effect .. => true
  | .compared .. => false
  | .switched .. => false

namespace Outcome

variable {Value Heap A B : Type*}

/-- Leave the tests of branches out of what has been seen. -/
def onlyEffects (o : Outcome Value Heap A) : Outcome Value Heap A :=
  { o with events := o.events.filter Event.isEffect }

@[simp] theorem onlyEffects_of
    (result : A)
    (heap : Heap) :
    (of result heap : Outcome Value Heap A).onlyEffects = of result heap :=
  rfl

theorem onlyEffects_andThen
    (o : Outcome Value Heap A)
    (next : A → Heap → Outcome Value Heap B) :
    (o.andThen next).onlyEffects =
      o.onlyEffects.andThen fun a heap => (next a heap).onlyEffects := by
  ext
  · rfl
  · rfl
  · simp [onlyEffects, andThen]

end Outcome

namespace Interpretation

variable {Value Heap : Type*} {I : Interpretation Value Heap} {env : VarId → Value}
  {id : VarId} {value e : Expr} {es : List Expr} {ins : Instr} {y : Value} {heap : Heap}

/-- Only calls and reads of the heap depend on the heap. -/
def Local (I : Interpretation Value Heap) : Prop :=
  ∀ op : Operator, op.effect? = none → op.isHeapRead = false → ∀ values heap heap',
    I.value op values heap = I.value op values heap'

section Still

theorem isHeapRead_of_operator?
    {op : Operator}
    (h : e.operator? = some op) :
    op.isHeapRead = e.isHeapRead := by
  cases e <;> simp only [Expr.operator?, Option.some.injEq, reduceCtorEq] at h <;> subst h <;> rfl

theorem evalAll_of_still
    (h : ∀ e, e ∈ es → ∃ value, ∀ heap, I.eval env e heap = .of value heap) :
    ∃ values, ∀ heap, I.evalAll env es heap = .of values heap := by
  induction es with
  | nil => exact ⟨[], fun _ => rfl⟩
  | cons e es ih =>
      obtain ⟨value, hvalue⟩ := h e (by simp)
      obtain ⟨values, hvalues⟩ := ih fun c hc => h c (by simp [hc])
      exact ⟨value :: values, fun heap => by simp [evalAll, hvalue, hvalues]⟩

/-- An expression that neither makes a call nor reads the heap has the same value everywhere. -/
theorem eval_of_still
    (hI : I.Local)
    (heffect : e.hasEffect = false)
    (hheap : e.readsHeap = false)
    (heap : Heap) :
    ∃ value, ∀ heap', I.eval env e heap' = .of value heap' := by
  induction e using Expr.children_induction with
  | step e ih =>
      cases hop : e.operator? with
      | none =>
          obtain ⟨v, rfl⟩ := operator?_eq_none_iff.mp hop
          exact ⟨env v, fun _ => rfl⟩
      | some op =>
          rw [Expr.hasEffect_eq, Bool.or_eq_false_iff, List.any_eq_false] at heffect
          rw [Expr.readsHeap_eq, Bool.or_eq_false_iff, List.any_eq_false] at hheap
          have hnone := (effect?_eq_none_iff hop).mpr heffect.1
          have hsame := hI op hnone ((isHeapRead_of_operator? hop).trans hheap.1)
          obtain ⟨values, hvalues⟩ : ∃ values, ∀ heap, I.evalAll env e.children heap =
              .of values heap :=
            evalAll_of_still fun c hc =>
              ih c hc (by simpa using heffect.2 c hc) (by simpa using hheap.2 c hc)
          refine ⟨I.value op values heap, fun heap' => ?_⟩
          rw [eval_eq hop, hvalues, Outcome.of_andThen, hsame values heap heap']
          simp [apply, hnone, affect, Outcome.of]

end Still

section Substitution

theorem evalAll_map_congr
    {env' : VarId → Value}
    {f : Expr → Expr}
    (h : ∀ e, e ∈ es → ∀ heap, I.eval env (f e) heap = I.eval env' e heap)
    (heap : Heap) :
    I.evalAll env (es.map f) heap = I.evalAll env' es heap := by
  induction es generalizing heap with
  | nil => rfl
  | cons e es ih =>
      have hrest := ih fun c hc => h c (by simp [hc])
      simp only [List.map_cons, evalAll, h e (by simp), hrest]

theorem eval_update_of_not_mem
    (h : id ∉ e.varsRead)
    (y : Value)
    (heap : Heap) :
    I.eval (Function.update env id y) e heap = I.eval env e heap :=
  eval_congr (fun v hv => Function.update_of_ne (fun heq : v = id => h (heq ▸ hv)) _ _) heap

/-- A value that is the same everywhere may be read for a variable that holds it, however often. -/
theorem eval_substitute
    (h : id ∈ e.varsRead → ∀ heap, I.eval env value heap = .of y heap)
    (heap : Heap) :
    I.eval env (Expr.substitute id value e) heap = I.eval (Function.update env id y) e heap := by
  induction e using Expr.children_induction generalizing heap with
  | step e ih =>
      cases hop : e.operator? with
      | none =>
          obtain ⟨v, rfl⟩ := operator?_eq_none_iff.mp hop
          by_cases hv : v = id
          · subst hv
            have hread : v ∈ (Expr.var v).varsRead := by
              simp [Expr.varsRead, Expr.subterms, Expr.var?]
            simpa [Expr.substitute, eval] using h hread heap
          · simp [Expr.substitute, eval, hv]
      | some op =>
          have hvar := Expr.var?_of_operator? hop
          rw [eval_eq hop, eval_eq (Expr.operator?_substitute id value hop),
            (Expr.children_substitute_of_not_var id value hvar).2]
          rw [evalAll_map_congr fun c hc heap => ih c hc (fun hid => h ?_) heap]
          rw [Expr.varsRead_eq_of_not_var hvar]
          exact List.mem_flatMap.mpr ⟨c, hc, hid⟩

/-- Two expressions can change places unless one must precede the other. -/
theorem eval_swap
    (hI : I.Local)
    {C : Type*}
    (h : value.mustPrecede e = false)
    (next : Value → Value → Heap → Outcome Value Heap C)
    (heap : Heap) :
    ((I.eval env e heap).andThen fun a heap => (I.eval env value heap).andThen fun y => next y a) =
      (I.eval env value heap).andThen fun y heap => (I.eval env e heap).andThen fun a =>
        next y a := by
  unfold Expr.mustPrecede at h
  cases heffect : value.hasEffect with
  | true =>
      simp only [heffect, if_true, Bool.or_eq_false_iff] at h
      obtain ⟨a, ha⟩ : ∃ a, ∀ heap, I.eval env e heap = .of a heap :=
        eval_of_still hI h.1 h.2 heap
      simp [ha]
  | false =>
      cases hheap : value.readsHeap with
      | true =>
          simp only [heffect, hheap, Bool.false_eq_true, if_false, Bool.true_and] at h
          obtain ⟨a, ha⟩ : ∃ a, I.eval env e heap = .of a heap := eval_of_not_hasEffect h heap
          obtain ⟨y, hy⟩ : ∃ y, I.eval env value heap = .of y heap :=
            eval_of_not_hasEffect heffect heap
          simp [ha, hy]
      | false =>
          obtain ⟨y, hy⟩ : ∃ y, ∀ heap, I.eval env value heap = .of y heap :=
            eval_of_still hI heffect hheap heap
          simp [hy]

/-- If what is evaluated in front of the only read of a variable may be evaluated behind a value,
then the value may be evaluated before the expression and held by the variable. -/
def ValueFirst (I : Interpretation Value Heap) (env : VarId → Value) (id : VarId) (value e : Expr) :
    Prop :=
  ∀ earlier heap, e.varsRead.count id ≤ 1 → Expr.evaluatedBefore id e = some earlier →
    (∀ x, x ∈ earlier → value.mustPrecede x = false) →
    I.eval env (Expr.substitute id value e) heap =
      (I.eval env value heap).andThen fun y => I.eval (Function.update env id y) e

/-- Operands in front of the read change places with the value; those behind it stay. -/
theorem evalAll_of_valueFirst
    (hI : I.Local)
    (hes : ∀ e, e ∈ es → ValueFirst I env id value e)
    (hcount : (es.flatMap Expr.varsRead).count id ≤ 1)
    {earlier : List Expr}
    (hbefore : Expr.evaluatedBeforeIn id es = some earlier)
    (hearlier : ∀ x, x ∈ earlier → value.mustPrecede x = false)
    (heap : Heap) :
    I.evalAll env (es.map (Expr.substitute id value)) heap =
      (I.eval env value heap).andThen fun y => I.evalAll (Function.update env id y) es := by
  induction es generalizing earlier heap with
  | nil => simp [Expr.evaluatedBeforeIn] at hbefore
  | cons e es ih =>
      rw [List.flatMap_cons, List.count_append] at hcount
      cases hfirst : Expr.evaluatedBefore id e with
      | some front =>
          obtain rfl : front = earlier := by
            simpa [Expr.evaluatedBeforeIn, hfirst] using hbefore
          have hread : id ∈ e.varsRead := by
            by_contra hnot
            rw [(Expr.evaluatedBefore_eq_none_iff e).mpr hnot] at hfirst
            cases hfirst
          have hunread : ∀ c, c ∈ es → id ∉ c.varsRead := by
            intro c hc hid
            have hpos := List.count_pos_iff.mpr hread
            have hpos' := List.count_pos_iff.mpr (List.mem_flatMap.mpr ⟨c, hc, hid⟩)
            omega
          have hrest : ∀ y heap, I.evalAll env (es.map (Expr.substitute id value)) heap =
              I.evalAll (Function.update env id y) es heap := fun y =>
            evalAll_map_congr fun c hc => eval_substitute fun hid => absurd hid (hunread c hc)
          rw [List.map_cons, evalAll, hes e (by simp) front heap (by omega) hfirst hearlier,
            Outcome.andThen_andThen]
          congr 1
          funext y heap
          simp only [evalAll, hrest y]
      | none =>
          obtain ⟨front, hfront, rfl⟩ : ∃ front, Expr.evaluatedBeforeIn id es = some front ∧
              e :: front = earlier := by
            simpa [Expr.evaluatedBeforeIn, hfirst] using hbefore
          have hunread := (Expr.evaluatedBefore_eq_none_iff e).mp hfirst
          have hrest := ih (fun c hc => hes c (by simp [hc])) (by omega) hfront
            fun x hx => hearlier x (by simp [hx])
          have heval : ∀ y heap, I.eval (Function.update env id y) e heap = I.eval env e heap :=
            fun y => eval_update_of_not_mem hunread y
          have hsame : I.eval env (Expr.substitute id value e) heap = I.eval env e heap :=
            (eval_substitute (fun hid => absurd hid hunread) heap).trans (heval (env id) heap)
          simp only [List.map_cons, evalAll, hsame, heval, hrest, Outcome.andThen_andThen]
          exact eval_swap hI (hearlier e (by simp)) _ heap

theorem valueFirst
    (hI : I.Local)
    (env : VarId → Value)
    (id : VarId)
    (value e : Expr) :
    ValueFirst I env id value e := by
  induction e using Expr.children_induction with
  | step e ih =>
      intro earlier heap hcount hbefore hearlier
      cases hop : e.operator? with
      | none =>
          obtain ⟨v, rfl⟩ := operator?_eq_none_iff.mp hop
          have hv : v = id := by
            by_contra hne
            simp [Expr.evaluatedBefore, hne] at hbefore
          simp [Expr.substitute, eval, hv]
      | some op =>
          have hvar := Expr.var?_of_operator? hop
          rw [Expr.varsRead_eq_of_not_var hvar] at hcount
          rw [Expr.evaluatedBefore_eq_of_not_var hvar] at hbefore
          rw [eval_eq (Expr.operator?_substitute id value hop),
            (Expr.children_substitute_of_not_var id value hvar).2,
            evalAll_of_valueFirst hI ih hcount hbefore hearlier, Outcome.andThen_andThen]
          congr 1
          funext y heap
          rw [eval_eq hop]

end Substitution

section Instructions

variable {definition : Instr}

/-- A substitution changes what an instruction evaluates, and not what it does with the values. -/
theorem conclude_substitute
    (I : Interpretation Value Heap)
    (env : VarId → Value)
    (ins : Instr)
    (id : VarId)
    (value : Expr) :
    I.conclude env (ins.substitute id value) = I.conclude env ins := by
  cases ins <;> rfl

/-- An assignment evaluates its value and puts it into its variable. -/
theorem exec_of_value?
    (htarget : definition.target? = some id)
    (hvalue : definition.value? = some value)
    (env : VarId → Value)
    (heap : Heap) :
    I.exec env definition heap =
      (I.eval env value heap).andThen fun y => .of (Function.update env id y) := by
  have hsome : definition.target?.isSome = true := by simp [htarget]
  have hoperands : definition.operands = [value] := by
    cases definition <;> simp_all [Instr.value?, Instr.operands]
  have hconclude : ∀ y heap, I.conclude env definition [y] heap =
      .of (Function.update env id y) heap := fun y heap => by
    simp [conclude, htarget, Instr.ownEffect?_of_target? hsome, Instr.tests_of_target? hsome,
      affect, Outcome.of]
  simp [exec, hoperands, evalAll, hconclude]

/-- A value that is the same everywhere may be read for the variable that holds it. -/
theorem exec_substitute
    (h : ∀ heap, I.eval env value heap = .of (env id) heap)
    (heap : Heap) :
    I.exec env (ins.substitute id value) heap = I.exec env ins heap := by
  have hoperands : I.evalAll env (ins.operands.map (Expr.substitute id value)) heap =
      I.evalAll env ins.operands heap :=
    evalAll_map_congr (fun e _ heap => by
      rw [eval_substitute fun _ => h, Function.update_eq_self]) heap
  rw [exec, Instr.operands_substitute, hoperands, conclude_substitute, exec]

theorem conclude_result
    (I : Interpretation Value Heap)
    (env : VarId → Value)
    (ins : Instr)
    (values : List Value)
    (heap : Heap)
    (v : VarId) :
    (I.conclude env ins values heap).result v =
      if ins.target? = some v then values.headD (I.value .caught [] heap) else env v := by
  unfold conclude
  cases htarget : ins.target? with
  | none => simp
  | some w => simp [Function.update_apply, eq_comm]

/-- What is concluded does not depend on a variable, which keeps its value. -/
theorem conclude_update
    (h : ins.target? ≠ some id)
    (y : Value)
    (values : List Value)
    (heap : Heap) :
    I.conclude (Function.update env id y) ins values heap =
      (I.conclude env ins values heap).andThen fun env => .of (Function.update env id y) := by
  ext
  · rename_i v
    simp only [conclude_result, Outcome.andThen, Outcome.of]
    by_cases hv : v = id
    · subst hv
      simp [h]
    · simp [hv, conclude_result]
  · rfl
  · simp [conclude, Outcome.andThen, Outcome.of]

/-- An instruction does not depend on a variable that it neither reads nor defines. -/
theorem exec_update
    (hreads : id ∉ ins.reads)
    (h : ins.target? ≠ some id)
    (y : Value)
    (heap : Heap) :
    I.exec (Function.update env id y) ins heap =
      (I.exec env ins heap).andThen fun env => .of (Function.update env id y) := by
  have hoperands : I.evalAll (Function.update env id y) ins.operands heap =
      I.evalAll env ins.operands heap :=
    evalAll_congr (fun e he => eval_update_of_not_mem
      (fun hid => hreads (List.mem_flatMap.mpr ⟨e, he, hid⟩)) y) heap
  rw [exec, exec, hoperands, Outcome.andThen_andThen]
  congr 1
  funext values heap
  exact conclude_update h y values heap

/-- A value in the place of a variable is evaluated first if order is preserved. -/
theorem exec_substitute_of_preservesOrder
    (hI : I.Local)
    (hread : id ∈ ins.reads)
    (hcount : ins.readsOf id ≤ 1)
    (horder : ins.preservesOrder id value = true)
    (env : VarId → Value)
    (heap : Heap) :
    SameExcept (fun v => v = id ∧ ins.target? ≠ some id)
      ((I.eval env value heap).andThen fun y => I.exec (Function.update env id y) ins)
      (I.exec env (ins.substitute id value) heap) := by
  obtain ⟨earlier, hbefore⟩ : ∃ earlier, Expr.evaluatedBeforeIn id ins.operands = some earlier := by
    refine Option.ne_none_iff_exists'.mp fun hnone => ?_
    obtain ⟨e, he, hid⟩ := List.mem_flatMap.mp hread
    exact (Expr.evaluatedBefore_eq_none_iff e).mp
      (Expr.evaluatedBeforeIn_eq_none_iff.mp hnone e he) hid
  have hearlier : ∀ x, x ∈ earlier → value.mustPrecede x = false := by
    simpa [Instr.preservesOrder, hbefore] using horder
  have hoperands := evalAll_of_valueFirst hI (fun e _ => valueFirst hI env id value e) hcount
    hbefore hearlier heap
  rw [exec, Instr.operands_substitute, hoperands, conclude_substitute, Outcome.andThen_andThen]
  have hsame : ∀ y heap, SameExcept (fun v => v = id ∧ ins.target? ≠ some id)
      (I.exec (Function.update env id y) ins heap)
      ((I.evalAll (Function.update env id y) ins.operands heap).andThen (I.conclude env ins)) := by
    intro y heap
    refine ⟨rfl, rfl, fun v hv => ?_⟩
    simp only [exec, Outcome.andThen, conclude_result]
    split
    · rfl
    · rename_i htarget
      have hne : v ≠ id := fun heq => hv ⟨heq, heq ▸ htarget⟩
      exact (Function.update_of_ne hne _ _).symm
  have h := hsame (I.eval env value heap).result (I.eval env value heap).heap
  exact ⟨h.heap_eq, congrArg (_ ++ ·) h.events_eq, h.result_eq⟩

/-- An instruction without an effect concludes without one. -/
theorem conclude_of_quiet
    (h : ins.hasEffect = false)
    (env : VarId → Value)
    (values : List Value)
    (heap : Heap) :
    (I.conclude env ins values heap).onlyEffects =
      .of (I.conclude env ins values heap).result heap := by
  have hown : ins.ownEffect? = none := by
    cases ins <;> simp_all [Instr.hasEffect, Instr.ownEffect?]
  have htests : (ins.tests values : List (Event Value)).filter Event.isEffect = [] := by
    cases ins <;> rfl
  simp [Outcome.onlyEffects, Outcome.of, conclude, hown, htests, affect]

theorem not_hasEffect_of_mem_operands
    (h : ins.hasEffect = false)
    (he : e ∈ ins.operands) :
    e.hasEffect = false := by
  cases ins <;> simp_all [Instr.hasEffect, Instr.operands]
  rcases he with rfl | rfl
  · exact h.1
  · exact h.2

/-- An instruction without an effect leaves the heap, and no effect is seen of it. -/
theorem exec_of_quiet
    (h : ins.hasEffect = false)
    (env : VarId → Value)
    (heap : Heap) :
    ∃ env', (I.exec env ins heap).onlyEffects = .of env' heap := by
  obtain ⟨values, hvalues, -⟩ : ∃ values, I.evalAll env ins.operands heap = .of values heap ∧
      values.length = ins.operands.length :=
    evalAll_of_quiet (fun e he => eval_of_not_hasEffect (not_hasEffect_of_mem_operands h he)) heap
  refine ⟨(I.conclude env ins values heap).result, ?_⟩
  rw [exec, hvalues, Outcome.of_andThen, conclude_of_quiet h]

/-- An instruction without an effect that does not read the heap does the same everywhere. -/
theorem exec_of_still
    (hI : I.Local)
    (heffect : ins.hasEffect = false)
    (hheap : ins.readsHeap = false)
    (env : VarId → Value)
    (heap : Heap) :
    ∃ env', ∀ heap', (I.exec env ins heap').onlyEffects = .of env' heap' := by
  obtain ⟨values, hvalues⟩ : ∃ values, ∀ heap, I.evalAll env ins.operands heap =
      .of values heap :=
    evalAll_of_still fun e he => eval_of_still hI (not_hasEffect_of_mem_operands heffect he)
      (by simpa using List.any_eq_false.mp hheap e he) heap
  refine ⟨(I.conclude env ins values heap).result, fun heap' => ?_⟩
  have hresult : (I.conclude env ins values heap').result =
      (I.conclude env ins values heap).result := by
    funext v
    rw [conclude_result, conclude_result, hI .caught rfl rfl [] heap' heap]
  rw [exec, hvalues, Outcome.of_andThen, conclude_of_quiet heffect, hresult]

/-- A definition changes places with an instruction that does not block its value. -/
theorem exec_swap
    (hI : I.Local)
    (htarget : definition.target? = some id)
    (hvalue : definition.value? = some value)
    (hblocks : ins.blocks value = false)
    (hreads : id ∉ ins.reads)
    (hother : ins.target? ≠ some id)
    (hclear : value.hasEffect = true → ins.readsHeap = false)
    (env : VarId → Value)
    (heap : Heap) :
    ((I.exec env definition heap).andThen fun env => I.exec env ins).onlyEffects =
      ((I.exec env ins heap).andThen fun env => I.exec env definition).onlyEffects := by
  rw [Instr.blocks, Bool.or_eq_false_iff] at hblocks
  -- the operands of the value are the same behind the instruction
  have hkept : ∀ heap', I.eval (I.exec env ins heap).result value heap' = I.eval env value heap' :=
    eval_congr fun v hv => exec_result_of_ne (fun heq => by simp [heq, hv] at hblocks) heap
  have hafter : ∀ heap', I.exec (I.exec env ins heap).result definition heap' =
      (I.eval env value heap').andThen fun y =>
        .of (Function.update (I.exec env ins heap).result id y) := fun heap' => by
    rw [exec_of_value? htarget hvalue, hkept]
  simp only [exec_of_value? htarget hvalue, Outcome.andThen_andThen, Outcome.of_andThen,
    exec_update hreads hother]
  cases heffect : value.hasEffect with
  | true =>
      have hquiet : ins.hasEffect = false := by simpa [heffect] using hblocks.2
      obtain ⟨env', henv'⟩ := exec_of_still hI hquiet (hclear heffect) env heap
      have hresult : (I.exec env ins heap).result = env' := congrArg Outcome.result (henv' heap)
      simp only [Outcome.onlyEffects_andThen, henv', Outcome.of_andThen, ← hresult, hafter]
  | false =>
      obtain ⟨y, hy, hy'⟩ : ∃ y, I.eval env value heap = .of y heap ∧
          I.eval env value (I.exec env ins heap).heap = .of y (I.exec env ins heap).heap := by
        cases hheap : value.readsHeap with
        | true =>
            have hquiet : ins.hasEffect = false := by simpa [hheap] using hblocks.2
            obtain ⟨env', henv'⟩ := exec_of_quiet (I := I) hquiet env heap
            have hleft : (I.exec env ins heap).heap = heap := congrArg Outcome.heap henv'
            obtain ⟨y, hy⟩ : ∃ y, I.eval env value heap = .of y heap :=
              eval_of_not_hasEffect heffect heap
            exact ⟨y, hy, hleft.symm ▸ hy⟩
        | false =>
            obtain ⟨y, hy⟩ : ∃ y, ∀ heap, I.eval env value heap = .of y heap :=
              eval_of_still hI heffect hheap heap
            exact ⟨y, hy heap, hy _⟩
      simp [Outcome.andThen, hafter, hy, hy', Outcome.of]

end Instructions

end Interpretation
end Symbolic
end DalvikDecompiler
