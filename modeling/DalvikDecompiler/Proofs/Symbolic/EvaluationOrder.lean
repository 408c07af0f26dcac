import DalvikDecompiler.Proofs.Symbolic.Reordering

/-!
# Order of evaluation

**Input.** An instruction that reads a variable once, and a value for that
variable.

Evaluating an expression evaluates its operands from left to right and then
makes the call, or the read of the heap, that the expression is itself.  A value
may be evaluated in front of the whole instruction, or in the place of the
variable; then it comes behind the operands in front of the variable, and nothing
else changes places.

**Results.**
* `Expr.mustPrecede_eq_false_iff`: what keeps two expressions in order are their
  calls, and a call of one of them with a read of the other.
* `Instr.preservesOrder_iff`: a value may take the place of the variable exactly
  if no call changes places with a call or a read.
* `Instr.evaluation_ordered`: the same calls are then made in the same order, and
  each read stands between the same two of them.
-/

namespace DalvikDecompiler
namespace Symbolic

open Bytecode (FieldRef MethodRef)

/-- A call or a read of the heap. -/
inductive Access where
  /-- A call, of a static method if no dispatch is given. -/
  | call (dispatch : Option Dispatch) (method : MethodRef)
  | fieldRead (field : FieldRef)
  | staticFieldRead (field : FieldRef)
  | arrayRead (type : Option String)
  deriving DecidableEq, Repr

namespace Access

/-- Whether an access is a call. -/
def isCall : Access → Bool
  | .call .. => true
  | _ => false

/-- The reads that stand behind exactly so many calls. -/
def readsBehind : Nat → List Access → List Access
  | _, [] => []
  | 0, a :: rest => if a.isCall then [] else a :: readsBehind 0 rest
  | calls + 1, a :: rest => readsBehind (if a.isCall then calls else calls + 1) rest

/-- The same calls are made in the same order, and the same reads between any two of them. -/
structure SameCourse (xs ys : List Access) : Prop where
  calls_eq : xs.filter isCall = ys.filter isCall
  reads_perm : ∀ calls, (readsBehind calls xs).Perm (readsBehind calls ys)

variable {xs ys zs : List Access}

theorem SameCourse.refl
    (xs : List Access) :
    SameCourse xs xs :=
  ⟨rfl, fun _ => .refl _⟩

theorem readsBehind_zero_append
    (hreads' : ∀ a, a ∈ xs → a.isCall = false) :
    readsBehind 0 (xs ++ ys) = xs ++ readsBehind 0 ys := by
  induction xs with
  | nil => rfl
  | cons a xs ih =>
      obtain ⟨hread, hreads⟩ := List.forall_mem_cons.mp hreads'
      simp [readsBehind, hread, ih hreads]

theorem readsBehind_succ_append
    (hreads' : ∀ a, a ∈ xs → a.isCall = false)
    (calls : Nat) :
    readsBehind (calls + 1) (xs ++ ys) = readsBehind (calls + 1) ys := by
  induction xs with
  | nil => rfl
  | cons a xs ih =>
      obtain ⟨hread, hreads⟩ := List.forall_mem_cons.mp hreads'
      simp [readsBehind, hread, ih hreads]

/-- Reads may change places. -/
theorem SameCourse.swap
    (hxs : ∀ a, a ∈ xs → a.isCall = false)
    (hys : ∀ a, a ∈ ys → a.isCall = false) :
    SameCourse (xs ++ (ys ++ zs)) (ys ++ (xs ++ zs)) where
  calls_eq := by
    have hnothing : ∀ l : List Access, (∀ a, a ∈ l → a.isCall = false) → l.filter isCall = [] :=
      fun l h => List.filter_eq_nil_iff.mpr fun a ha => by simp [h a ha]
    simp [hnothing xs hxs, hnothing ys hys]
  reads_perm
    | 0 => by
        simp only [readsBehind_zero_append hxs, readsBehind_zero_append hys]
        exact List.perm_append_comm_assoc xs ys _
    | calls + 1 => by
        simp only [readsBehind_succ_append hxs, readsBehind_succ_append hys]
        exact .refl _

end Access

variable {id : VarId} {value : Expr}

namespace Expr

/-- The call or the read of the heap that an expression is itself. -/
def ownAccess? : Expr → Option Access
  | .staticCall method _ => some (.call none method)
  | .call dispatch method _ _ => some (.call (some dispatch) method)
  | .fieldRead _ field => some (.fieldRead field)
  | .staticFieldRead field => some (.staticFieldRead field)
  | .arrayRead _ _ type => some (.arrayRead type)
  | _ => none

/-- The calls and reads of the heap made by evaluating an expression, in order: those of its
operands from left to right, and then its own. -/
def accesses (e : Expr) : List Access :=
  (e.children.attach.flatMap fun ⟨c, _⟩ => c.accesses) ++ e.ownAccess?.toList
termination_by sizeOf e
decreasing_by exact sizeOf_lt_of_mem_children ‹_›

theorem accesses_eq
    (e : Expr) :
    e.accesses = e.children.flatMap accesses ++ e.ownAccess?.toList := by
  rw [accesses]
  conv_rhs => rw [← List.attach_map_subtype_val e.children, List.flatMap_map]

theorem ownAccess?_substitute
    {e : Expr}
    (h : e.var? = none) :
    (substitute id value e).ownAccess? = e.ownAccess? := by
  cases e with
  | var v => simp [var?] at h
  | _ => rfl

theorem accesses_var
    (v : VarId) :
    (var v).accesses = [] := by
  rw [accesses_eq]
  rfl

/-- What is asked of some access of an expression is asked of those of its operands and of its
own. -/
theorem any_accesses
    {p : Access → Bool}
    {own whole : Expr → Bool}
    (hown : ∀ e : Expr, e.ownAccess?.toList.any p = own e)
    (hwhole : ∀ e : Expr, whole e = (own e || e.children.any whole))
    (e : Expr) :
    e.accesses.any p = whole e := by
  induction e using children_induction with
  | step e ih =>
      have hchildren : (e.children.any fun c => c.accesses.any p) = e.children.any whole := by
        rw [Bool.eq_iff_iff, List.any_eq_true, List.any_eq_true]
        exact exists_congr fun c => and_congr_right fun hc => by rw [ih c hc]
      rw [accesses_eq, List.any_append, List.any_flatMap, hown, hwhole, hchildren, Bool.or_comm]

/-- An expression has an effect exactly if it makes a call. -/
theorem any_isCall_accesses
    (e : Expr) :
    e.accesses.any Access.isCall = e.hasEffect :=
  any_accesses (fun e => by cases e <;> rfl) hasEffect_eq e

theorem any_not_isCall_accesses
    (e : Expr) :
    e.accesses.any (!·.isCall) = e.readsHeap :=
  any_accesses (fun e => by cases e <;> rfl) readsHeap_eq e

/-- Two expressions may change places exactly if there is no call that would change places with a
call or a read. -/
theorem mustPrecede_eq_false_iff
    {other : Expr} :
    value.mustPrecede other = false ↔
      ∀ a, a ∈ value.accesses → ∀ x, x ∈ other.accesses → a.isCall = false ∧ x.isCall = false := by
  rw [mustPrecede, ← any_isCall_accesses, ← any_isCall_accesses, ← any_not_isCall_accesses,
    ← any_not_isCall_accesses]
  constructor
  · intro h a ha x hx
    grind
  · intro h
    grind

/-- Where a value stands among the accesses of an expression if it is evaluated in the place of a
variable that is read once: behind what is evaluated in front of the read. -/
def Inserts (id : VarId) (value e : Expr) : Prop :=
  ∀ earlier, e.varsRead.count id ≤ 1 → evaluatedBefore id e = some earlier →
    ∃ behind, e.accesses = earlier.flatMap accesses ++ behind ∧
      (substitute id value e).accesses = earlier.flatMap accesses ++ (value.accesses ++ behind)

theorem flatMap_accesses_substitute
    {es : List Expr}
    (hes : ∀ e, e ∈ es → id ∉ e.varsRead → (substitute id value e).accesses = e.accesses)
    (h : id ∉ es.flatMap varsRead) :
    (es.map (substitute id value)).flatMap accesses = es.flatMap accesses := by
  rw [List.flatMap_map]
  exact List.flatMap_congr fun e he =>
    hes e he fun hid => h (List.mem_flatMap.mpr ⟨e, he, hid⟩)

theorem accesses_substitute_of_not_mem
    {e : Expr}
    (h : id ∉ e.varsRead) :
    (substitute id value e).accesses = e.accesses := by
  induction e using children_induction with
  | step e ih =>
      cases hvar : e.var? with
      | some v =>
          obtain rfl := eq_var_of_var? hvar
          have hne : v ≠ id := by
            rintro rfl
            simp [varsRead, subterms, var?] at h
          simp [substitute, hne]
      | none =>
          rw [varsRead_eq_of_not_var hvar] at h
          rw [accesses_eq, accesses_eq e, (children_substitute_of_not_var id value hvar).2,
            ownAccess?_substitute hvar, flatMap_accesses_substitute ih h]

/-- Operands in front of the read come before the value, and those behind it do not change. -/
theorem exists_flatMap_accesses
    {es earlier : List Expr}
    (hes : ∀ e, e ∈ es → Inserts id value e)
    (hcount : (es.flatMap varsRead).count id ≤ 1)
    (hbefore : evaluatedBeforeIn id es = some earlier) :
    ∃ behind, es.flatMap accesses = earlier.flatMap accesses ++ behind ∧
      (es.map (substitute id value)).flatMap accesses =
        earlier.flatMap accesses ++ (value.accesses ++ behind) := by
  induction es generalizing earlier with
  | nil => simp [evaluatedBeforeIn] at hbefore
  | cons e es ih =>
      rw [List.flatMap_cons, List.count_append] at hcount
      rw [List.map_cons, List.flatMap_cons, List.flatMap_cons]
      cases hfirst : evaluatedBefore id e with
      | some front =>
          obtain rfl : front = earlier := by
            simpa [evaluatedBeforeIn, hfirst] using hbefore
          have hread : id ∈ e.varsRead := by
            by_contra hnot
            rw [(evaluatedBefore_eq_none_iff e).mpr hnot] at hfirst
            cases hfirst
          have hrest : id ∉ es.flatMap varsRead := by
            have hpos := List.count_pos_iff.mpr hread
            exact List.count_eq_zero.mp (by omega)
          have hsame : (es.map (substitute id value)).flatMap accesses = es.flatMap accesses :=
            flatMap_accesses_substitute (fun _ _ => accesses_substitute_of_not_mem) hrest
          obtain ⟨behind, heq, hsubstitute⟩ := hes e (by simp) front (by omega) hfirst
          refine ⟨behind ++ es.flatMap accesses, ?_, ?_⟩
          · rw [heq, List.append_assoc]
          · rw [hsubstitute, hsame]
            simp only [List.append_assoc]
      | none =>
          obtain ⟨front, hfront, rfl⟩ : ∃ front, evaluatedBeforeIn id es = some front ∧
              e :: front = earlier := by
            simpa [evaluatedBeforeIn, hfirst] using hbefore
          have hunread := (evaluatedBefore_eq_none_iff e).mp hfirst
          obtain ⟨behind, heq, hsubstitute⟩ :=
            ih (fun c hc => hes c (by simp [hc])) (by omega) hfront
          refine ⟨behind, ?_, ?_⟩
          · rw [heq, List.flatMap_cons, List.append_assoc]
          · rw [accesses_substitute_of_not_mem hunread, hsubstitute, List.flatMap_cons,
              List.append_assoc]

theorem inserts
    (id : VarId)
    (value e : Expr) :
    Inserts id value e := by
  induction e using children_induction with
  | step e ih =>
      intro earlier hcount hbefore
      cases hvar : e.var? with
      | some v =>
          obtain rfl := eq_var_of_var? hvar
          obtain ⟨rfl, rfl⟩ : v = id ∧ [] = earlier := by
            simpa [evaluatedBefore] using hbefore
          exact ⟨[], by simp [accesses_var], by simp [substitute]⟩
      | none =>
          rw [varsRead_eq_of_not_var hvar] at hcount
          rw [evaluatedBefore_eq_of_not_var hvar] at hbefore
          obtain ⟨behind, heq, hsubstitute⟩ := exists_flatMap_accesses ih hcount hbefore
          refine ⟨behind ++ e.ownAccess?.toList, ?_, ?_⟩
          · rw [accesses_eq, heq, List.append_assoc]
          · rw [accesses_eq, (children_substitute_of_not_var id value hvar).2, hsubstitute,
              ownAccess?_substitute hvar]
            simp only [List.append_assoc]

end Expr

namespace Instr

open Access (SameCourse)

variable {ins : Instr}

/-- The calls and reads of the heap made by evaluating the operands of an instruction. -/
def accesses (ins : Instr) : List Access :=
  ins.operands.flatMap Expr.accesses

/-- A value in the place of a variable is evaluated behind some operands and in front of the others.
-/
theorem accesses_substitute
    (value : Expr)
    (hread : id ∈ ins.reads)
    (hcount : ins.readsOf id ≤ 1) :
    ∃ earlier behind, Expr.evaluatedBeforeIn id ins.operands = some earlier ∧
      ins.accesses = earlier.flatMap Expr.accesses ++ behind ∧
      (ins.substitute id value).accesses =
        earlier.flatMap Expr.accesses ++ (value.accesses ++ behind) := by
  obtain ⟨earlier, hbefore⟩ : ∃ earlier, Expr.evaluatedBeforeIn id ins.operands = some earlier := by
    refine Option.ne_none_iff_exists'.mp fun hnone => ?_
    obtain ⟨e, he, hid⟩ := List.mem_flatMap.mp hread
    exact (Expr.evaluatedBefore_eq_none_iff e).mp
      (Expr.evaluatedBeforeIn_eq_none_iff.mp hnone e he) hid
  obtain ⟨behind, heq, hsubstitute⟩ :=
    Expr.exists_flatMap_accesses (fun e _ => Expr.inserts id value e) hcount hbefore
  exact ⟨earlier, behind, hbefore, heq, by rw [accesses, operands_substitute, hsubstitute]⟩

/-- A value may take the place of a variable exactly if no call changes places with a call or a
read. -/
theorem preservesOrder_iff
    {earlier : List Expr}
    (hbefore : Expr.evaluatedBeforeIn id ins.operands = some earlier) :
    ins.preservesOrder id value = true ↔
      ∀ a, a ∈ value.accesses → ∀ x, x ∈ earlier.flatMap Expr.accesses →
        a.isCall = false ∧ x.isCall = false := by
  simp only [preservesOrder, hbefore, Bool.not_eq_true', List.any_eq_false, Bool.not_eq_true,
    Expr.mustPrecede_eq_false_iff, List.mem_flatMap]
  constructor
  · rintro h a ha x ⟨e, he, hx⟩
    exact h e he a ha x hx
  · intro h e he a ha x hx
    exact h a ha x ⟨e, he, hx⟩

/-- **Order of evaluation.**  A value that takes the place of the only read of a variable comes
behind the accesses in front of the read.  It may do so exactly if only reads change places with
reads; then the same calls are made in the same order as if the value were evaluated first, and each
read stands between the same two calls. -/
theorem evaluation_ordered
    (ins : Instr)
    (id : VarId)
    (value : Expr)
    (honce : ins.readsOf id = 1) :
    ∃ front behind,
      ins.accesses = front ++ behind ∧
      (ins.substitute id value).accesses = front ++ (value.accesses ++ behind) ∧
      (ins.preservesOrder id value = true ↔
        ∀ a, a ∈ value.accesses → ∀ x, x ∈ front → a.isCall = false ∧ x.isCall = false) ∧
      (ins.preservesOrder id value = true →
        SameCourse (value.accesses ++ ins.accesses) (ins.substitute id value).accesses) := by
  have hread : id ∈ ins.reads := List.count_pos_iff.mp (by rw [← readsOf, honce]; exact Nat.one_pos)
  obtain ⟨earlier, behind, hbefore, heq, hsubstitute⟩ :=
    accesses_substitute value hread honce.le
  refine ⟨_, behind, heq, hsubstitute, preservesOrder_iff hbefore, fun horder => ?_⟩
  have hreads := (preservesOrder_iff hbefore).mp horder
  rw [heq, hsubstitute]
  generalize earlier.flatMap Expr.accesses = front at hreads
  cases hvalue : value.accesses with
  | nil => exact .refl _
  | cons a rest =>
      cases front with
      | nil => exact .refl _
      | cons x front =>
          rw [hvalue] at hreads
          refine .swap (fun b hb => ?_) fun y hy => ?_
          · exact (hreads b hb x List.mem_cons_self).1
          · exact (hreads a List.mem_cons_self y hy).2

/-- A field that is read in front of the argument of a call. -/
def fieldThenCall : Instr :=
  .ret (some (.binary .add (.fieldRead (.var 1) ⟨"LP;", "x", "I"⟩)
    (.staticCall ⟨"LP;", "f", "(I)I"⟩ [.var 0]) "I"))

/-- Another field may be read in the place of the argument. -/
theorem evaluation_ordered_fieldThenCall :
    fieldThenCall.readsOf 0 = 1 ∧
      fieldThenCall.preservesOrder 0 (.staticFieldRead ⟨"LP;", "y", "I"⟩) = true ∧
      SameCourse ((Expr.staticFieldRead ⟨"LP;", "y", "I"⟩).accesses ++ fieldThenCall.accesses)
        (fieldThenCall.substitute 0 (.staticFieldRead ⟨"LP;", "y", "I"⟩)).accesses := by
  obtain ⟨_, _, _, _, _, hsame⟩ :=
    evaluation_ordered fieldThenCall 0 (.staticFieldRead ⟨"LP;", "y", "I"⟩) (by decide)
  exact ⟨by decide, by decide, hsame (by decide)⟩

end Instr
end Symbolic
end DalvikDecompiler
