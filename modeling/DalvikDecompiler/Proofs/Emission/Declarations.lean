import DalvikDecompiler.Proofs.Emission.Labels
import DalvikDecompiler.Proofs.Java.Scoping
import DalvikDecompiler.Proofs.Symbolic.Substitution

/-!
# What instructions use and declare

The statement of an instruction names the variables that the instruction reads and, if it defines
one, that variable.  A variable that has not been declared is declared by the first statement that
defines it, and by no other one.

**Results.**
* `locals_expression`, `locals_condition`: an expression names the variables that are read.
* `declares_statement`, `isUndeclared_of_target`: a statement declares the variable that it defines,
  unless this has been declared, and no other one.
* `strays_statement`: a statement uses names in scope, if what it reads is in scope, and what it
  defines as well unless it has not been declared.
-/

namespace DalvikDecompiler

namespace Symbolic.Variables

/-- Whether a variable exists and has been declared. -/
def isDeclared (vars : Variables) (v : VarId) : Bool :=
  (vars.get? v).any Variable.declared

variable {vars : Variables} {v u : VarId}

theorem isDeclared_of_exists
    (hknown : (vars.get? v).isSome = true)
    (h : vars.isUndeclared v = false) :
    vars.isDeclared v = true := by
  obtain ⟨x, hx⟩ := Option.isSome_iff_exists.1 hknown
  simpa [isUndeclared, isDeclared, hx] using h

theorem isUndeclared_eq_false_of_isDeclared
    (h : vars.isDeclared v = true) :
    vars.isUndeclared v = false := by
  cases hfound : vars.get? v with
  | none => simp [isUndeclared, hfound]
  | some x => simpa [isUndeclared, isDeclared, hfound] using h

theorem get?_markDeclared :
    (vars.markDeclared v).get? u =
      (vars.get? u).map fun x => if u = v then { x with declared := true } else x := by
  simp only [markDeclared, modify, get?, Array.getElem?_modify]
  by_cases hsame : v = u
  · subst hsame
    simp
  · simp [hsame, Ne.symm hsame]

theorem isDeclared_markDeclared :
    (vars.markDeclared v).isDeclared u = true ↔
      vars.isDeclared u = true ∨ u = v ∧ (vars.get? u).isSome = true := by
  rw [isDeclared, get?_markDeclared, isDeclared]
  cases vars.get? u with
  | none => simp
  | some x =>
      by_cases hsame : u = v
      · simp [hsame]
      · simp [hsame]

theorem isUndeclared_markDeclared_self :
    (vars.markDeclared v).isUndeclared v = false := by
  rw [isUndeclared, get?_markDeclared]
  cases vars.get? v with
  | none => rfl
  | some x => simp

end Symbolic.Variables

namespace Emission

open Symbolic (VarId Variables Variable Expr Instr)
open Java (Block Expression Statement outside outside_eq_nil boundNames blockStrays elseStrays
  blockMarks)

namespace SameVars

variable {vars vars' : Variables}

theorem name
    (h : SameVars vars vars')
    (v : VarId) :
    vars'.name v = vars.name v := by
  have hwithin (table : Variables) (bound : Nat) (v : VarId) :
      (undeclared table).nameWithin bound v = table.nameWithin bound v := by
    have hkinds (v : VarId) :
        ((undeclared table).get? v).map Variable.kind = (table.get? v).map Variable.kind := by
      simp [undeclared, Variables.get?, Function.comp_def]
    induction bound generalizing v with
    | zero =>
        unfold Variables.nameWithin
        rw [hkinds]
    | succ bound ih =>
        unfold Variables.nameWithin
        simp only [hkinds, ih]
  have hplain (table : Variables) : (undeclared table).name v = table.name v := by
    rw [Variables.name, Variables.name, hwithin]
    simp [undeclared, Variables.size]
  rw [← hplain, h, hplain]

theorem isParam
    (h : SameVars vars vars')
    (v : VarId) :
    vars'.isParam v = vars.isParam v := by
  have hplain (table : Variables) : (undeclared table).isParam v = table.isParam v := by
    simp only [undeclared, Variables.isParam, Variables.get?, Array.getElem?_map, Option.any_map]
    rfl
  rw [← hplain, h, hplain]

theorem isSome_get?
    (h : SameVars vars vars')
    (v : VarId) :
    (vars'.get? v).isSome = (vars.get? v).isSome := by
  have hplain (table : Variables) :
      ((undeclared table).get? v).isSome = (table.get? v).isSome := by
    simp [undeclared, Variables.get?]
  rw [← hplain, h, hplain]

end SameVars

section Uses

variable {vars : Variables} {names : List String}
variable (owner : String)

theorem localsOfAll_subset
    {es : List Expression}
    (h : ∀ e ∈ es, e.locals ⊆ names) :
    Expression.localsOfAll es ⊆ names := by
  induction es with
  | nil => exact List.nil_subset _
  | cons e es ih =>
      exact List.append_subset.2
        ⟨h e List.mem_cons_self, ih fun c hc => h c (List.mem_cons_of_mem e hc)⟩

theorem exists_of_mem_elementExpressions
    {es : List Expr}
    {type : String}
    {e : Expression}
    (h : e ∈ elementExpressions vars owner es type) :
    ∃ c ∈ es, ∃ expected, e = expression vars owner c expected := by
  induction es with
  | nil => cases h
  | cons c es ih =>
      rcases List.mem_cons.1 h with rfl | h
      · exact ⟨c, List.mem_cons_self, _, rfl⟩
      · obtain ⟨c', hc', hsame⟩ := ih h
        exact ⟨c', List.mem_cons_of_mem c hc', hsame⟩

theorem exists_of_mem_argumentExpressions
    {es : List Expr}
    {types : List String}
    {e : Expression}
    (h : e ∈ argumentExpressions vars owner es types) :
    ∃ c ∈ es, ∃ expected, e = expression vars owner c expected := by
  induction es generalizing types with
  | nil => cases h
  | cons c es ih =>
      rcases List.mem_cons.1 h with rfl | h
      · exact ⟨c, List.mem_cons_self, _, rfl⟩
      · obtain ⟨c', hc', hsame⟩ := ih h
        exact ⟨c', List.mem_cons_of_mem c hc', hsame⟩

variable (hsuper : "super" ∈ names)
include hsuper

theorem locals_callExpression
    {dispatch : Symbolic.Dispatch}
    {method : Bytecode.MethodRef}
    {receiver : Expr}
    {object : Expression}
    {args : List Expression}
    (hobject : object.locals ⊆ names)
    (hargs : Expression.localsOfAll args ⊆ names) :
    (callExpression vars owner dispatch method receiver object args).locals ⊆ names := by
  have hplain : (Expression.invocation (.of method.owner method.name method.descriptor) method.name
      (some (if dispatch = .super ∧ isReceiver vars receiver then .localVar "super" else object))
      args).locals ⊆ names := by
    refine List.append_subset.2 ⟨?_, hargs⟩
    rw [Expression.optionalLocals]
    split
    · exact fun name hname => List.mem_singleton.1 hname ▸ hsuper
    · exact hobject
  unfold callExpression
  dsimp only
  split
  · split
    · exact List.append_subset.2 ⟨List.nil_subset _, hargs⟩
    · split
      · exact hargs
      · exact hplain
  · exact hplain

/-- An expression names the variables that are read. -/
theorem locals_expression
    (e : Expr)
    (expected : Option String)
    (hreads : ∀ v ∈ e.varsRead, vars.name v ∈ names) :
    (expression vars owner e expected).locals ⊆ names := by
  induction e using Expr.children_induction generalizing expected with
  | step e ih =>
      have hchild (c : Expr) (hc : c ∈ e.children) (expected : Option String)
          (hplain : e.var? = none) : (expression vars owner c expected).locals ⊆ names := by
        refine ih c hc expected fun v hv => hreads v ?_
        rw [Expr.varsRead_eq_of_not_var hplain]
        exact List.mem_flatMap.2 ⟨c, hc, hv⟩
      cases e with
      | var v =>
          intro name hname
          obtain rfl := List.mem_singleton.1 hname
          exact hreads v (List.mem_singleton.2 rfl)
      | const | newInstance | staticFieldRead => exact List.nil_subset _
      | unary | cast | checkCast | arrayLength | fieldRead =>
          exact hchild _ List.mem_cons_self _ rfl
      | binary | arrayRead =>
          exact List.append_subset.2 ⟨hchild _ List.mem_cons_self _ rfl,
            hchild _ (List.mem_cons_of_mem _ List.mem_cons_self) _ rfl⟩
      | instanceOf =>
          exact List.append_subset.2 ⟨hchild _ List.mem_cons_self _ rfl, List.nil_subset _⟩
      | newArray =>
          refine localsOfAll_subset fun c hc => ?_
          obtain rfl := List.mem_singleton.1 hc
          exact hchild _ List.mem_cons_self _ rfl
      | compare =>
          refine List.append_subset.2 ⟨List.nil_subset _, localsOfAll_subset ?_⟩
          simp only [List.mem_cons, List.not_mem_nil, or_false, forall_eq_or_imp, forall_eq]
          exact ⟨hchild _ List.mem_cons_self _ rfl,
            hchild _ (List.mem_cons_of_mem _ List.mem_cons_self) _ rfl⟩
      | filledArray =>
          refine localsOfAll_subset fun c hc => ?_
          obtain ⟨element, hmem, expected, rfl⟩ := exists_of_mem_elementExpressions owner hc
          exact hchild element hmem expected rfl
      | staticCall =>
          refine List.append_subset.2 ⟨List.nil_subset _, localsOfAll_subset fun c hc => ?_⟩
          obtain ⟨argument, hmem, expected, rfl⟩ := exists_of_mem_argumentExpressions owner hc
          exact hchild argument hmem expected rfl
      | call =>
          refine locals_callExpression owner hsuper (hchild _ List.mem_cons_self _ rfl)
            (localsOfAll_subset fun c hc => ?_)
          obtain ⟨argument, hmem, expected, rfl⟩ := exists_of_mem_argumentExpressions owner hc
          exact hchild argument (List.mem_cons_of_mem _ hmem) expected rfl

theorem locals_condition
    (ins : Instr)
    (negate : Bool)
    (hreads : ∀ v ∈ ins.reads, vars.name v ∈ names) :
    (condition vars owner ins negate).locals ⊆ names := by
  have hoperand (e : Expr) (he : e ∈ ins.operands) (expected : Option String) :
      (expression vars owner e expected).locals ⊆ names :=
    locals_expression owner hsuper e expected fun v hv => hreads v (List.mem_flatMap.2 ⟨e, he, hv⟩)
  have htwo {op : String} {left right : Expression} (hl : left.locals ⊆ names)
      (hr : right.locals ⊆ names) : (Expression.binary op left right).locals ⊆ names :=
    List.append_subset.2 ⟨hl, hr⟩
  unfold condition
  split
  · exact htwo (hoperand _ List.mem_cons_self _)
      (hoperand _ (List.mem_cons_of_mem _ List.mem_cons_self) _)
  · next type left right =>
      have hparts (e : Expr) (he : e ∈ (Expr.compare type left right).children)
          (expected : Option String) : (expression vars owner e expected).locals ⊆ names := by
        refine locals_expression owner hsuper e expected fun v hv => hreads v ?_
        refine List.mem_flatMap.2 ⟨.compare type left right, List.mem_cons_self, ?_⟩
        rw [Expr.varsRead_eq_of_not_var rfl]
        exact List.mem_flatMap.2 ⟨e, he, hv⟩
      exact htwo (hparts _ List.mem_cons_self _)
        (hparts _ (List.mem_cons_of_mem _ List.mem_cons_self) _)
  · next e _ =>
      have hvalue := hoperand e List.mem_cons_self none
      have hzero (relation : Symbolic.Relation) (text type : String) :
          (Expression.binary relation.symbol (expression vars owner e none)
            (literal text type)).locals ⊆ names :=
        htwo hvalue (List.nil_subset _)
      unfold zeroTest
      split
      · split
        · exact hvalue
        · exact hvalue
        · exact hzero ..
      · split <;> exact hzero ..
      · exact hzero ..
  · exact List.nil_subset _

end Uses

section Statements

variable {vars : Variables} {names : List String}
variable {w : Writing} {ins : Instr}

/-- What a piece of code declares: nothing, or one variable of some kind that has not been declared
before. -/
inductive Declares (vars : Variables) (which : VarId → Prop) : List String → Variables → Prop
  | nothing : Declares vars which [] vars
  | one {v : VarId} (hmem : which v) (hnew : vars.isUndeclared v = true) :
      Declares vars which [vars.name v] (vars.markDeclared v)

/-- A statement declares at most the variable that is defined. -/
theorem declares_statement
    (w : Writing)
    (vars : Variables)
    (ins : Instr) :
    Declares vars (fun v => ins.target? = some v) (boundNames (statement w vars ins).1.toList)
      (statement w vars ins).2 := by
  have hassigned (target : VarId) (value : Expr) (ht : ins.target? = some target) :
      Declares vars (fun v => ins.target? = some v)
        (boundNames (some (assignment vars w.method.owner target value).1).toList)
        (assignment vars w.method.owner target value).2 := by
    unfold assignment
    split
    · next hnew => exact .one ht (Bool.and_eq_true_iff.1 hnew).2
    · exact .nothing
  cases ins with
  | move target value =>
      simp only [statement]
      split
      · exact .nothing
      · exact hassigned target value rfl
  | moveResult target value => exact hassigned target value rfl
  | assign target value =>
      cases target with
      | some target => exact hassigned target value rfl
      | none =>
          simp only [statement]
          split <;> exact .nothing
  | moveException v =>
      simp only [statement, exceptionStatement]
      split
      · next hnew => exact .one rfl hnew
      · exact .nothing
  | _ => exact .nothing

/-- What an instruction defines without reading it is declared behind its statement. -/
theorem isUndeclared_of_target
    {v : VarId}
    (htarget : ins.target? = some v)
    (hunread : v ∉ ins.reads)
    (hplain : vars.isParam v = false) :
    (statement w vars ins).2.isUndeclared v = false := by
  have hassigned (value : Expr) :
      (assignment vars w.method.owner v value).2.isUndeclared v = false := by
    unfold assignment
    split
    · exact Variables.isUndeclared_markDeclared_self
    · next hold => simpa [declares, hplain] using hold
  cases ins with
  | move other value =>
      obtain rfl : other = v := by simpa [Instr.target?] using htarget
      have hmoved : value.isVar other = false := by
        refine Bool.eq_false_iff.2 fun hsame => hunread ?_
        obtain rfl : value = .var other := by
          cases value <;> simp_all [Expr.isVar, Expr.var?]
        exact List.mem_singleton.2 rfl
      simpa [statement, hmoved] using hassigned value
  | moveResult other value =>
      obtain rfl : other = v := by simpa [Instr.target?] using htarget
      exact hassigned value
  | assign other value =>
      obtain rfl : other = some v := htarget
      exact hassigned value
  | moveException other =>
      obtain rfl : other = v := by simpa [Instr.target?] using htarget
      simp only [statement, exceptionStatement]
      split
      · exact Variables.isUndeclared_markDeclared_self
      · next hold => simpa using hold
  | _ => simp [Instr.target?] at htarget

theorem varsRead_subset_of_update
    {target : VarId}
    {value right : Expr}
    {op : Symbolic.BinaryOp}
    {type : String}
    (h : update? target value = some (.compound op right type)) :
    right.varsRead ⊆ value.varsRead := by
  have hfolded (op : Symbolic.BinaryOp) (e : Expr) (type : String) :
      (foldNegative op e type).2.varsRead ⊆ e.varsRead := by
    unfold foldNegative
    split
    · next hnegated =>
        unfold negatedLiteral? at hnegated
        split at hnegated
        · split at hnegated <;> simp at hnegated
          subst hnegated
          exact List.nil_subset _
        · split at hnegated <;> simp at hnegated
          subst hnegated
          exact List.nil_subset _
        · simp at hnegated
    · exact List.Subset.refl _
  unfold update? at h
  split at h
  · next op' left right' type' =>
      split at h
      · dsimp only at h
        split at h
        · simp at h
        · obtain ⟨-, rfl, -⟩ := by simpa using h
          have hcompound : (Expr.binary op' left right' type').var? = none := rfl
          rw [Expr.varsRead_eq_of_not_var hcompound]
          intro v hv
          exact List.mem_flatMap.2 ⟨right', List.mem_cons_of_mem _ List.mem_cons_self,
            hfolded op' right' type' hv⟩
      · cases h
  · cases h

variable (hsuper : "super" ∈ names)
include hsuper

theorem strays_assignment
    (owner : String)
    (target : VarId)
    (value : Expr)
    (hreads : ∀ v ∈ value.varsRead, vars.name v ∈ names)
    (hknown : declares vars target = false → vars.name target ∈ names) :
    (assignment vars owner target value).1.strays names = [] := by
  unfold assignment
  split
  · exact outside_eq_nil.2 (locals_expression owner hsuper value _ hreads)
  · next hold =>
      have hname : [vars.name target] ⊆ names := by simpa using hknown (by simpa using hold)
      have hchange (right : Expr) (expected : Option String) (op : Option String)
          (hr : right.varsRead ⊆ value.varsRead) :
          (Expression.assignment (.localVar (vars.name target))
            (expression vars owner right expected) op).locals ⊆ names :=
        List.append_subset.2
          ⟨hname, locals_expression owner hsuper right _ fun v hv => hreads v (hr hv)⟩
      refine outside_eq_nil.2 ?_
      split
      · exact hname
      · next hfound => exact hchange _ _ _ (varsRead_subset_of_update hfound)
      · exact hchange _ _ _ (List.Subset.refl _)

/-- A statement uses what is in scope. -/
theorem strays_statement
    (hreads : ∀ v ∈ ins.reads, vars.name v ∈ names)
    (hknown : ∀ v, ins.target? = some v → declares vars v = false → vars.name v ∈ names) :
    ∀ s ∈ (statement w vars ins).1, s.strays names = [] := by
  have hoperand (e : Expr) (he : e ∈ ins.operands) (expected : Option String) :
      (expression vars w.method.owner e expected).locals ⊆ names :=
    locals_expression _ hsuper e expected fun v hv => hreads v (List.mem_flatMap.2 ⟨e, he, hv⟩)
  have hassigned (target : VarId) (value : Expr) (hv : value ∈ ins.operands)
      (ht : ins.target? = some target) :
      ∀ s ∈ some (assignment vars w.method.owner target value).1, s.strays names = [] := by
    rintro _ ⟨⟩
    exact strays_assignment hsuper _ target value
      (fun v hr => hreads v (List.mem_flatMap.2 ⟨value, hv, hr⟩)) (hknown target ht)
  have hused (e : Expression) (he : e.locals ⊆ names) :
      ∀ s ∈ some (Statement.expression e), s.strays names = [] := by
    rintro _ ⟨⟩
    exact outside_eq_nil.2 he
  cases ins with
  | nop | switch => rintro _ ⟨⟩
  | ret value =>
      rintro _ ⟨⟩
      refine outside_eq_nil.2 ?_
      cases value with
      | none => exact List.nil_subset _
      | some value => exact hoperand value List.mem_cons_self _
  | throw value =>
      rintro _ ⟨⟩
      exact outside_eq_nil.2 (hoperand value List.mem_cons_self _)
  | move target value =>
      simp only [statement]
      split
      · rintro _ ⟨⟩
      · exact hassigned target value List.mem_cons_self rfl
  | moveResult target value => exact hassigned target value List.mem_cons_self rfl
  | assign target value =>
      cases target with
      | some target => exact hassigned target value List.mem_cons_self rfl
      | none =>
          simp only [statement]
          split
          · rintro _ ⟨⟩
          · exact hused _ (hoperand value List.mem_cons_self _)
  | ifCompare | ifCompareZero => exact hused _ (locals_condition _ hsuper _ _ hreads)
  | fillArrayData array width data =>
      refine hused _ (List.append_subset.2 ⟨hoperand array List.mem_cons_self _, ?_⟩)
      refine localsOfAll_subset fun e he => ?_
      obtain ⟨c, -, rfl⟩ := List.mem_map.1 he
      exact List.nil_subset _
  | fieldWrite object field value =>
      exact hused _ (List.append_subset.2 ⟨hoperand object List.mem_cons_self _,
        hoperand value (List.mem_cons_of_mem _ List.mem_cons_self) _⟩)
  | staticFieldWrite field value =>
      exact hused _ (List.append_subset.2
        ⟨List.nil_subset _, hoperand value List.mem_cons_self _⟩)
  | arrayWrite array index value =>
      exact hused _ (List.append_subset.2
        ⟨List.append_subset.2 ⟨hoperand array List.mem_cons_self _,
          hoperand index (List.mem_cons_of_mem _ List.mem_cons_self) _⟩,
        hoperand value (List.mem_cons_of_mem _ (List.mem_cons_of_mem _ List.mem_cons_self)) _⟩)
  | monitorEnter object | monitorExit object =>
      exact hused _ (List.append_subset.2 ⟨hoperand object List.mem_cons_self _, List.nil_subset _⟩)
  | moveException v =>
      simp only [statement, exceptionStatement]
      split
      · rintro _ ⟨⟩
        exact outside_eq_nil.2 (List.nil_subset _)
      · next hold =>
          refine hused _ (List.append_subset.2 ⟨?_, List.nil_subset _⟩)
          have hname := hknown v rfl (by simp [declares, hold])
          simpa [Expression.locals] using hname

end Statements

end Emission
end DalvikDecompiler
