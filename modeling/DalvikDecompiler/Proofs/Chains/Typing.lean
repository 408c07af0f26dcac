import DalvikDecompiler.Chains.Typing
import DalvikDecompiler.Proofs.Chains.Links
import DalvikDecompiler.Proofs.Symbolic.Substitution
import Mathlib

/-!
# Types that inference finds

**Input.** A flow graph, its variables and the result type of its method.

A hint gives a type to a variable without one, and no type is ever taken back or
replaced.  A hint that is of no use stays so when more is known, since the types
that instructions exchange come from known ones.  A sweep that finds nothing has
left the number of types alone, and there are no more types than variables.

Integer constants are ints only when the sweeps have ended.  An int has no
elements, so the hints this makes are those of copies and comparisons: a copy of
such a variable may be left without a type.

**Results.**
* `exists_sweeps`: sweeps end because nothing is found any more.
* `Defaults.suggestInstr_eq_self_iff`: the hints that ints make behind the sweeps.
* `infer_settles`: what inference leaves, and when a second one finds more.
* `copiedConstant_unsettled`: a copy for which a second inference finds a type.
-/

namespace DalvikDecompiler

open Symbolic (VarId Variable Variables Expr Instr)

namespace Symbolic

/-- A variable is the same, or has got its type. -/
def Variable.Learns (e e' : Variable) : Prop :=
  e' = e ∨ e.type = none ∧ ∃ type, e' = { e with type := some type }

namespace Variables

/-- Variables are the same, but that some without a type have got one. -/
structure Learns (vars vars' : Variables) : Prop where
  registers_eq : vars'.registers = vars.registers
  params_eq : vars'.params = vars.params
  temps_eq : vars'.temps = vars.temps
  size_eq : vars'.size = vars.size
  entry : ∀ v e, vars.get? v = some e → ∃ e', vars'.get? v = some e' ∧ e.Learns e'

variable {vars vars' vars'' : Variables} {v : VarId} {type : String}

theorem Learns.refl
    (vars : Variables) :
    vars.Learns vars :=
  ⟨rfl, rfl, rfl, rfl, fun _ e he => ⟨e, he, Or.inl rfl⟩⟩

theorem Learns.trans
    (h : vars.Learns vars')
    (h' : vars'.Learns vars'') :
    vars.Learns vars'' := by
  refine ⟨h'.registers_eq.trans h.registers_eq, h'.params_eq.trans h.params_eq,
    h'.temps_eq.trans h.temps_eq, h'.size_eq.trans h.size_eq, fun v e he => ?_⟩
  obtain ⟨e', he', hlearns⟩ := h.entry v e he
  obtain ⟨e'', he'', hlearns'⟩ := h'.entry v e' he'
  refine ⟨e'', he'', ?_⟩
  rcases hlearns with rfl | ⟨hnone, type, rfl⟩
  · exact hlearns'
  · rcases hlearns' with rfl | ⟨hsome, -⟩
    · exact Or.inr ⟨hnone, type, rfl⟩
    · cases hsome

/-- Types that are known stay. -/
theorem Learns.type?_eq_some
    (h : vars.Learns vars')
    (hknown : vars.type? v = some type) :
    vars'.type? v = some type := by
  obtain ⟨e, he, htype⟩ := Option.bind_eq_some_iff.mp hknown
  obtain ⟨e', he', rfl | ⟨hnone, -⟩⟩ := h.entry v e he
  · exact Option.bind_eq_some_iff.mpr ⟨e', he', htype⟩
  · rw [htype] at hnone
    cases hnone

/-- A variable without a type is one that exists and whose type is not known. -/
theorem isUntyped_iff :
    vars.isUntyped v = true ↔ v < vars.size ∧ vars.type? v = none := by
  rw [isUntyped, Option.any_eq_true, type?, Option.bind_eq_none_iff]
  constructor
  · rintro ⟨e, he, hnone⟩
    refine ⟨(Array.getElem?_eq_some_iff.mp he).1, fun e' he' => ?_⟩
    obtain rfl := Option.some.inj (he.symm.trans he')
    simpa using hnone
  · rintro ⟨hlt, hnone⟩
    have he : vars.get? v = some vars.entries[v] := Array.getElem?_eq_getElem hlt
    exact ⟨_, he, by simp [hnone _ he]⟩

theorem Learns.isUntyped_of
    (h : vars.Learns vars')
    (huntyped : vars'.isUntyped v = true) :
    vars.isUntyped v = true := by
  obtain ⟨hlt, hnone⟩ := isUntyped_iff.mp huntyped
  refine isUntyped_iff.mpr ⟨h.size_eq ▸ hlt, ?_⟩
  cases hknown : vars.type? v with
  | none => rfl
  | some type => exact (h.type?_eq_some hknown).symm.trans hnone

theorem ext_get?
    (hregisters : vars'.registers = vars.registers)
    (hparams : vars'.params = vars.params)
    (htemps : vars'.temps = vars.temps)
    (hget : ∀ v : VarId, vars'.get? v = vars.get? v) :
    vars' = vars := by
  obtain ⟨entries, registers, params, temps⟩ := vars
  obtain ⟨entries', registers', params', temps'⟩ := vars'
  obtain rfl : entries' = entries := Array.ext_getElem? hget
  simp_all

/-- Nothing is unlearned. -/
theorem Learns.antisymm
    (h : vars.Learns vars')
    (h' : vars'.Learns vars) :
    vars' = vars := by
  refine ext_get? h.registers_eq h.params_eq h.temps_eq fun v => ?_
  cases he : vars.get? v with
  | none =>
      have hle : vars'.size ≤ v := h.size_eq.symm ▸ Array.getElem?_eq_none_iff.mp he
      exact Array.getElem?_eq_none_iff.mpr hle
  | some e =>
      obtain ⟨e', he', rfl | ⟨hnone, type, rfl⟩⟩ := h.entry v e he
      · exact he'
      · have hknown : vars.type? v = some type :=
          h'.type?_eq_some (Option.bind_eq_some_iff.mpr ⟨_, he', rfl⟩)
        rw [type?, he, Option.bind_some, hnone] at hknown
        cases hknown

theorem Learns.forall₂
    (h : vars.Learns vars') :
    List.Forall₂ Variable.Learns vars.entries.toList vars'.entries.toList := by
  refine List.forall₂_iff_get.mpr ⟨?_, fun i hi hi' => ?_⟩
  · simpa [size] using h.size_eq.symm
  · obtain ⟨e', he', hlearns⟩ := h.entry i _ (Array.getElem?_eq_getElem (by simpa using hi))
    obtain ⟨_, rfl⟩ := Array.getElem?_eq_some_iff.mp he'
    simpa using hlearns

/-- Variables that learn something have more types, and the number of types tells. -/
theorem Learns.typedCount_le
    (h : vars.Learns vars') :
    vars.typedCount ≤ vars'.typedCount ∧ (vars'.typedCount = vars.typedCount → vars' = vars) := by
  suffices hlist : ∀ entries entries' : List Variable,
      List.Forall₂ Variable.Learns entries entries' →
      entries.countP (fun e => e.type.isSome) ≤ entries'.countP (fun e => e.type.isSome) ∧
        (entries'.countP (fun e => e.type.isSome) = entries.countP (fun e => e.type.isSome) →
          entries' = entries) by
    obtain ⟨hle, heq⟩ := hlist _ _ h.forall₂
    refine ⟨hle, fun hcount => ext_get? h.registers_eq h.params_eq h.temps_eq fun v => ?_⟩
    rw [get?, get?, Array.toList_inj.mp (heq hcount)]
  intro entries entries' hforall
  induction hforall with
  | nil => simp
  | @cons e e' entries entries' hlearns _ ih =>
      obtain ⟨hle, heq⟩ := ih
      rcases hlearns with rfl | ⟨hnone, type, rfl⟩
      · simp only [List.countP_cons]
        exact ⟨by omega, fun hcount => by rw [heq (by omega)]⟩
      · simp only [List.countP_cons, hnone, Option.isSome_some, Option.isSome_none, if_true,
          Bool.false_eq_true, if_false]
        exact ⟨by omega, fun hcount => absurd hcount (by omega)⟩

theorem typedCount_le_size
    (vars : Variables) :
    vars.typedCount ≤ vars.size := by
  simpa [typedCount, size] using List.countP_le_length (p := fun e : Variable => e.type.isSome)
    (l := vars.entries.toList)

theorem get?_modify
    (vars : Variables)
    (v w : VarId)
    (f : Variable → Variable) :
    (vars.modify v f).get? w = if v = w then (vars.get? w).map f else vars.get? w := by
  simp only [get?, modify, Array.getElem?_modify]

/-- A hint gives its type to a variable without one, unless it says that there is no value. -/
theorem suggestType_cases
    (vars : Variables)
    (v : VarId)
    (type : String) :
    (∃ e, vars.get? v = some e ∧ e.type = none ∧ type ≠ "V" ∧
        vars.suggestType v type = vars.modify v fun e => { e with type := some type }) ∨
      (vars.isUntyped v = true → type = "V") ∧ vars.suggestType v type = vars := by
  unfold suggestType
  by_cases hhint : (vars.isUntyped v && type != "V") = true
  · obtain ⟨huntyped, hne⟩ := Bool.and_eq_true_iff.mp hhint
    obtain ⟨e, he, hnone⟩ := (Option.any_eq_true _ _).mp huntyped
    exact Or.inl ⟨e, he, by simpa using hnone, by simpa using hne, if_pos hhint⟩
  · exact Or.inr ⟨fun huntyped => by simpa [huntyped] using hhint, if_neg hhint⟩

theorem suggestType_learns
    (vars : Variables)
    (v : VarId)
    (type : String) :
    vars.Learns (vars.suggestType v type) := by
  rcases vars.suggestType_cases v type with ⟨e, he, hnone, -, heq⟩ | ⟨-, heq⟩
  · rw [heq]
    refine ⟨rfl, rfl, rfl, by simp [modify, size], fun w e' he' => ?_⟩
    rw [get?_modify]
    split
    · rename_i hw
      subst hw
      obtain rfl := Option.some.inj (he.symm.trans he')
      exact ⟨_, by rw [he, Option.map_some], Or.inr ⟨hnone, type, rfl⟩⟩
    · exact ⟨e', he', Or.inl rfl⟩
  · rw [heq]
    exact .refl vars

/-- A variable has a type when a hint for it has been used. -/
theorem isUntyped_suggestType
    (h : (vars.suggestType v type).isUntyped v = true) :
    type = "V" := by
  rcases vars.suggestType_cases v type with ⟨e, he, -, -, heq⟩ | ⟨hvoid, heq⟩
  · rw [heq, isUntyped, get?_modify, if_pos rfl, he] at h
    cases h
  · exact hvoid (heq ▸ h)

theorem isUntyped_suggestType_of_ne
    {w : VarId}
    (hne : v ≠ w) :
    (vars.suggestType v type).isUntyped w = vars.isUntyped w := by
  rcases vars.suggestType_cases v type with ⟨-, -, -, -, heq⟩ | ⟨-, heq⟩
  · rw [heq, isUntyped, get?_modify, if_neg hne, isUntyped]
  · rw [heq]

/-- A hint changes nothing if and only if there is no variable without a type, or it says that there
is no value. -/
theorem suggestType_eq_self_iff :
    vars.suggestType v type = vars ↔ (vars.isUntyped v = true → type = "V") := by
  constructor
  · exact fun hsame huntyped => isUntyped_suggestType (hsame.symm ▸ huntyped)
  · intro hvoid
    rcases vars.suggestType_cases v type with ⟨e, he, hnone, hne, -⟩ | ⟨-, heq⟩
    · exact absurd (hvoid ((Option.any_eq_true _ _).mpr ⟨e, he, by simp [hnone]⟩)) hne
    · exact heq

/-- The types after a hint are those before it and that of the hint. -/
theorem type?_suggestType
    {w : VarId}
    {known : String}
    (h : (vars.suggestType v type).type? w = some known) :
    vars.type? w = some known ∨ vars.type? w = none ∧ known = type := by
  rcases vars.suggestType_cases v type with ⟨e, he, hnone, -, heq⟩ | ⟨-, heq⟩
  · rw [heq, type?, get?_modify] at h
    split at h
    · rename_i hw
      subst hw
      rw [he] at h
      exact Or.inr ⟨by rw [type?, he, Option.bind_some, hnone], (Option.some.inj h).symm⟩
    · exact Or.inl h
  · exact Or.inl (heq ▸ h)

end Variables
end Symbolic

namespace Typing

variable {vars vars' : Variables}

section Learning

/-- Steps that only give types give only types one after another. -/
theorem foldl_learns
    {α : Type}
    {f : Variables → α → Variables}
    (hf : ∀ (vars : Variables) (x : α), vars.Learns (f vars x))
    (xs : List α)
    (vars : Variables) :
    vars.Learns (xs.foldl f vars) := by
  induction xs generalizing vars with
  | nil => exact .refl vars
  | cons x xs ih => exact (hf vars x).trans (ih _)

/-- Steps that only give types leave the variables alone if and only if each of them does. -/
theorem foldl_eq_self_iff
    {α : Type}
    {f : Variables → α → Variables}
    (hf : ∀ (vars : Variables) (x : α), vars.Learns (f vars x))
    {xs : List α} :
    xs.foldl f vars = vars ↔ ∀ x, x ∈ xs → f vars x = vars := by
  induction xs with
  | nil => simp
  | cons x xs ih =>
      rw [List.forall_mem_cons, ← ih, List.foldl_cons]
      constructor
      · intro hsame
        have hback := foldl_learns hf xs (f vars x)
        rw [hsame] at hback
        have hfirst := (hf vars x).antisymm hback
        rw [hfirst] at hsame
        exact ⟨hfirst, hsame⟩
      · rintro ⟨hfirst, hrest⟩
        rw [hfirst, hrest]

theorem suggestFor_learns
    (vars : Variables)
    (e : Expr)
    (type : String) :
    vars.Learns (suggestFor vars e type) := by
  unfold suggestFor
  split
  · exact vars.suggestType_learns _ type
  · exact .refl vars

theorem suggestAll_learns
    (vars : Variables)
    (hints : List (Expr × String)) :
    vars.Learns (suggestAll vars hints) :=
  foldl_learns (fun vars (hint : Expr × String) => suggestFor_learns vars hint.1 hint.2) hints vars

theorem suggestOperands_learns
    (vars : Variables)
    (e : Expr) :
    vars.Learns (suggestOperands vars e) :=
  foldl_learns (fun vars part => suggestAll_learns vars (operandTypes part)) e.subterms vars

theorem suggestAssignment_learns
    (vars : Variables)
    (ins : Instr) :
    vars.Learns (suggestAssignment vars ins) := by
  unfold suggestAssignment
  split
  · split
    · exact vars.suggestType_learns _ _
    · exact suggestFor_learns vars _ _
    · exact .refl vars
  · exact .refl vars

theorem suggestByKind_learns
    (returns : String)
    (catchType : Option String)
    (vars : Variables)
    (ins : Instr) :
    vars.Learns (suggestByKind returns catchType vars ins) := by
  unfold suggestByKind
  split
  · exact vars.suggestType_learns _ _
  · exact suggestFor_learns vars _ _
  · exact suggestAll_learns vars _
  · exact suggestFor_learns vars _ _
  · dsimp only
    split
    · exact (suggestFor_learns vars _ _).trans (suggestFor_learns _ _ _)
    · exact suggestFor_learns vars _ _
  · split
    · exact suggestFor_learns vars _ _
    · exact suggestFor_learns vars _ _
    · exact .refl vars
  · exact suggestFor_learns vars _ _
  · exact .refl vars

theorem suggestInstr_learns
    (returns : String)
    (catchType : Option String)
    (vars : Variables)
    (ins : Instr) :
    vars.Learns (suggestInstr returns catchType vars ins) :=
  ((suggestAssignment_learns vars ins).trans (suggestByKind_learns returns catchType _ ins)).trans
    (foldl_learns suggestOperands_learns ins.operands _)

theorem sweep_learns
    (g : FlowGraph)
    (returns : String)
    (vars : Variables) :
    vars.Learns (sweep g returns vars) :=
  foldl_learns (fun vars _ => foldl_learns (suggestInstr_learns returns _) _ vars) g.order vars

theorem suggestConstant_learns
    (vars : Variables)
    (ins : Instr) :
    vars.Learns (suggestConstant vars ins) := by
  unfold suggestConstant
  split
  · exact vars.suggestType_learns _ "I"
  · exact .refl vars

end Learning

section Settling

/-- Sweeps end because nothing is found any more, before there are as many as variables without a
type. -/
theorem exists_sweeps
    (g : FlowGraph)
    (returns : String)
    {bound : Nat}
    (hbound : vars.size - vars.typedCount < bound) :
    ∃ sweeps, sweeps ≤ vars.size - vars.typedCount ∧
      settle g returns bound vars = (sweep g returns)^[sweeps] vars ∧
      sweep g returns (settle g returns bound vars) = settle g returns bound vars := by
  induction bound generalizing vars with
  | zero => exact absurd hbound (Nat.not_lt_zero _)
  | succ bound ih =>
      have hlearns := sweep_learns g returns vars
      obtain ⟨hle, hsame⟩ := hlearns.typedCount_le
      have htyped := (sweep g returns vars).typedCount_le_size
      rw [settle]
      split
      · rename_i hcount
        rw [hsame hcount]
        exact ⟨0, Nat.zero_le _, rfl, hsame hcount⟩
      · rename_i hcount
        rw [hlearns.size_eq] at htyped
        have hless : (sweep g returns vars).size - (sweep g returns vars).typedCount < bound := by
          rw [hlearns.size_eq]
          omega
        obtain ⟨sweeps, hsweeps, hsettle, hstable⟩ := ih hless
        rw [hlearns.size_eq] at hsweeps
        refine ⟨sweeps + 1, by omega, ?_, hstable⟩
        rw [hsettle, Function.iterate_succ_apply]

theorem settle_learns
    (g : FlowGraph)
    (returns : String)
    (bound : Nat)
    (vars : Variables) :
    vars.Learns (settle g returns bound vars) := by
  induction bound generalizing vars with
  | zero => exact .refl vars
  | succ bound ih =>
      rw [settle]
      split
      · exact sweep_learns g returns vars
      · exact (sweep_learns g returns vars).trans (ih _)

/-- Variables with the integer constants that they hold. -/
def suggestConstants (g : FlowGraph) (vars : Variables) : Variables :=
  g.order.foldl (fun vars id => (g.node id).ins.foldl suggestConstant vars) vars

end Settling

section Heeding

/-- A hint changes nothing if and only if it is for no variable without a type, or says that there
is no value. -/
theorem suggestFor_eq_self_iff
    {e : Expr}
    {type : String} :
    suggestFor vars e type = vars ↔
      ∀ v, e = .var v → vars.isUntyped v = true → type = "V" := by
  cases e with
  | var v =>
      rw [suggestFor, Variables.suggestType_eq_self_iff]
      constructor
      · rintro h w ⟨⟩
        exact h
      · exact fun h => h v rfl
  | _ => simp [suggestFor]

/-- A hint that has been used is of no use when more is known. -/
theorem suggestFor_of_learns
    {e : Expr}
    {type : String}
    (hlearns : vars.Learns vars')
    (h : suggestFor vars e type = vars) :
    suggestFor vars' e type = vars' :=
  suggestFor_eq_self_iff.mpr fun v hv huntyped =>
    suggestFor_eq_self_iff.mp h v hv (hlearns.isUntyped_of huntyped)

theorem suggestAll_eq_self_iff
    {hints : List (Expr × String)} :
    suggestAll vars hints = vars ↔
      ∀ hint, hint ∈ hints → suggestFor vars hint.1 hint.2 = vars :=
  foldl_eq_self_iff fun vars (hint : Expr × String) => suggestFor_learns vars hint.1 hint.2

theorem suggestAll_of_learns
    {hints : List (Expr × String)}
    (hlearns : vars.Learns vars')
    (h : suggestAll vars hints = vars) :
    suggestAll vars' hints = vars' :=
  suggestAll_eq_self_iff.mpr fun hint hhint =>
    suggestFor_of_learns hlearns (suggestAll_eq_self_iff.mp h hint hhint)

theorem suggestOperands_of_learns
    {e : Expr}
    (hlearns : vars.Learns vars')
    (h : suggestOperands vars e = vars) :
    suggestOperands vars' e = vars' := by
  have hsteps : ∀ (vars : Variables) (part : Expr),
      vars.Learns (suggestAll vars (operandTypes part)) := fun vars part =>
    suggestAll_learns vars (operandTypes part)
  exact (foldl_eq_self_iff hsteps).mpr fun part hpart =>
    suggestAll_of_learns hlearns ((foldl_eq_self_iff hsteps).mp h part hpart)

theorem suggestInstr_eq_self_iff
    {returns : String}
    {catchType : Option String}
    {ins : Instr} :
    suggestInstr returns catchType vars ins = vars ↔
      suggestAssignment vars ins = vars ∧ suggestByKind returns catchType vars ins = vars ∧
        ∀ e, e ∈ ins.operands → suggestOperands vars e = vars := by
  have hassignment := suggestAssignment_learns vars ins
  have hkind := suggestByKind_learns returns catchType (suggestAssignment vars ins) ins
  have hoperands := foldl_learns suggestOperands_learns ins.operands
    (suggestByKind returns catchType (suggestAssignment vars ins) ins)
  unfold suggestInstr
  constructor
  · intro hsame
    rw [hsame] at hoperands
    have hfirst := hassignment.antisymm (hkind.trans hoperands)
    rw [hfirst] at hkind hoperands hsame
    have hsecond := hkind.antisymm hoperands
    rw [hsecond] at hsame
    exact ⟨hfirst, hsecond, (foldl_eq_self_iff suggestOperands_learns).mp hsame⟩
  · rintro ⟨hfirst, hsecond, hrest⟩
    rw [hfirst, hsecond]
    exact (foldl_eq_self_iff suggestOperands_learns).mpr hrest

/-- A sweep finds nothing if and only if no instruction has a hint left. -/
theorem sweep_eq_self_iff
    {g : FlowGraph}
    {returns : String} :
    sweep g returns vars = vars ↔ ∀ id, id ∈ g.order → ∀ ins, ins ∈ (g.node id).ins →
      suggestInstr returns (g.node id).catchType vars ins = vars := by
  have hnode : ∀ id, (g.node id).ins.foldl
      (suggestInstr returns (g.node id).catchType) vars = vars ↔
      ∀ ins, ins ∈ (g.node id).ins → suggestInstr returns (g.node id).catchType vars ins = vars :=
    fun id => foldl_eq_self_iff (suggestInstr_learns returns _)
  simp only [← hnode]
  exact foldl_eq_self_iff fun vars _ => foldl_learns (suggestInstr_learns returns _) _ vars

end Heeding

section Constants

theorem suggestConstant_eq_self_iff
    {ins : Instr} :
    suggestConstant vars ins = vars ↔ ∀ v value, ins.target? = some v →
      ins.value? = some (.const (.int value)) → vars.isUntyped v = false := by
  unfold suggestConstant
  split
  · rename_i v value htarget hvalue
    rw [Variables.suggestType_eq_self_iff]
    simp [htarget, hvalue]
  · rename_i hnot
    simp only [true_iff]
    exact fun v value htarget hvalue => absurd hvalue (hnot v value htarget)

/-- Variables without a type have become ints, and nothing else has changed. -/
structure Defaults (vars vars' : Variables) : Prop where
  learns : vars.Learns vars'
  types : ∀ v type, vars'.type? v = some type →
    vars.type? v = some type ∨ vars.type? v = none ∧ type = "I"

theorem Defaults.trans
    {vars'' : Variables}
    (h : Defaults vars vars')
    (h' : Defaults vars' vars'') :
    Defaults vars vars'' := by
  refine ⟨h.learns.trans h'.learns, fun v type htype => ?_⟩
  rcases h'.types v type htype with hknown | ⟨hnone, rfl⟩
  · exact h.types v type hknown
  · refine Or.inr ⟨?_, rfl⟩
    cases hbefore : vars.type? v with
    | none => rfl
    | some known =>
        rw [h.learns.type?_eq_some hbefore] at hnone
        cases hnone

theorem suggestConstants_defaults
    (g : FlowGraph)
    (vars : Variables) :
    Defaults vars (suggestConstants g vars) := by
  have hrefl : ∀ vars, Defaults vars vars := fun vars => ⟨.refl vars, fun _ _ h => Or.inl h⟩
  refine List.foldlRecOn _ _ (hrefl vars) fun between h id _ => ?_
  refine List.foldlRecOn _ _ h fun between h ins _ => h.trans ?_
  refine ⟨suggestConstant_learns between ins, fun v type htype => ?_⟩
  unfold suggestConstant at htype
  split at htype
  · exact Variables.type?_suggestType htype
  · exact Or.inl htype

theorem suggestConstant_of_learns
    {ins : Instr}
    (hlearns : vars.Learns vars')
    (h : suggestConstant vars ins = vars) :
    suggestConstant vars' ins = vars' := by
  refine suggestConstant_eq_self_iff.mpr fun v value htarget hvalue => ?_
  have htyped := suggestConstant_eq_self_iff.mp h v value htarget hvalue
  by_contra huntyped
  rw [hlearns.isUntyped_of (by simpa using huntyped)] at htyped
  cases htyped

theorem suggestConstant_suggestConstant
    (vars : Variables)
    (ins : Instr) :
    suggestConstant (suggestConstant vars ins) ins = suggestConstant vars ins := by
  refine suggestConstant_eq_self_iff.mpr fun v value htarget hvalue => ?_
  have hsuggest : suggestConstant vars ins = vars.suggestType v "I" := by
    simp [suggestConstant, htarget, hvalue]
  rw [hsuggest]
  by_contra huntyped
  exact absurd (Variables.isUntyped_suggestType (by simpa using huntyped)) (by decide)

/-- Constants that have been looked at are of no use again. -/
theorem suggestConstants_suggestConstants
    (g : FlowGraph)
    (vars : Variables) :
    suggestConstants g (suggestConstants g vars) = suggestConstants g vars := by
  have hused : ∀ (code : List Instr) (vars : Variables) (ins : Instr), ins ∈ code →
      suggestConstant (code.foldl suggestConstant vars) ins = code.foldl suggestConstant vars := by
    intro code
    induction code with
    | nil => simp
    | cons first code ih =>
        intro vars ins hins
        rcases List.mem_cons.mp hins with rfl | hins
        · exact suggestConstant_of_learns (foldl_learns suggestConstant_learns code _)
            (suggestConstant_suggestConstant vars ins)
        · exact ih _ ins hins
  have hflat : ∀ vars, suggestConstants g vars =
      (g.order.flatMap fun id => (g.node id).ins).foldl suggestConstant vars := fun vars =>
    List.foldl_flatMap.symm
  rw [hflat, hflat]
  exact (foldl_eq_self_iff suggestConstant_learns).mpr fun ins hins => hused _ vars ins hins

end Constants

section Ties

/-- The expressions that an instruction compares, or the value that it assigns and the variable, so
that the type of either one is a hint for the other one. -/
def sides? : Instr → Option (Expr × Expr)
  | .ifCompare _ left right => some (left, right)
  | ins =>
      match ins.target?, ins.value? with
      | some v, some value => some (value, .var v)
      | _, _ => none

/-- An instruction copies one of two variables to the other one, or compares them. -/
def Ties (ins : Instr) (v w : VarId) : Prop :=
  sides? ins = some (.var v, .var w) ∨ sides? ins = some (.var w, .var v)

/-- Let a known type of one expression be a hint for another one. -/
def exchange (vars : Variables) (left right : Expr) : Variables :=
  match left.knownType vars, right.knownType vars with
  | some type, _ => suggestFor vars right type
  | none, some type => suggestFor vars left type
  | none, none => vars

/-- Copies and comparisons exchange the types of their sides. -/
theorem exchange_of_sides
    {ins : Instr}
    {left right : Expr}
    (returns : String)
    (catchType : Option String)
    (h : sides? ins = some (left, right)) :
    (suggestAssignment vars ins = vars ∧ suggestByKind returns catchType vars ins = vars) ↔
      exchange vars left right = vars := by
  cases ins with
  | ifCompare relation l r =>
      cases h
      exact and_iff_right rfl
  | move v value =>
      cases h
      exact and_iff_left rfl
  | moveResult v value =>
      cases h
      exact and_iff_left rfl
  | assign target value =>
      cases target with
      | none => cases h
      | some v =>
          cases h
          exact and_iff_left rfl
  | _ => cases h

theorem suggestFor_of_knownType
    {e : Expr}
    {type known : String}
    (h : e.knownType vars = some known) :
    suggestFor vars e type = vars := by
  refine suggestFor_eq_self_iff.mpr fun v hv huntyped => ?_
  subst hv
  rw [Expr.knownType, (Variables.isUntyped_iff.mp huntyped).2] at h
  cases h

theorem exchange_eq_self_iff
    {left right : Expr} :
    exchange vars left right = vars ↔
      (∀ type, left.knownType vars = some type → suggestFor vars right type = vars) ∧
        ∀ type, right.knownType vars = some type → suggestFor vars left type = vars := by
  unfold exchange
  cases hleft : left.knownType vars with
  | some type => simp [suggestFor_of_knownType hleft]
  | none =>
      cases hright : right.knownType vars with
      | some type => simp
      | none => simp

theorem Defaults.knownType_eq
    (h : Defaults vars vars')
    (e : Expr) :
    (e.var? = none → e.knownType vars' = e.knownType vars) ∧
      (e.knownType vars').bind Descriptor.element? = (e.knownType vars).bind
        Descriptor.element? := by
  induction e using Expr.children_induction with
  | step e ih =>
      have hother : e.var? = none → e.knownType vars' = e.knownType vars := by
        intro hvar
        cases e with
        | var v => cases hvar
        | const constant => cases constant <;> rfl
        | arrayRead array index type =>
            cases type with
            | some type => rfl
            | none => exact (ih array (by simp [Expr.children])).2
        | _ => rfl
      refine ⟨hother, ?_⟩
      cases hvar : e.var? with
      | none => rw [hother hvar]
      | some v =>
          obtain rfl : e = .var v := by cases e <;> simp_all [Expr.var?]
          change (vars'.type? v).bind _ = (vars.type? v).bind _
          cases hbefore : vars.type? v with
          | some type => rw [h.learns.type?_eq_some hbefore]
          | none =>
              cases hafter : vars'.type? v with
              | none => rfl
              | some type =>
                  -- an int has no elements
                  rcases h.types v type hafter with hknown | ⟨-, rfl⟩
                  · rw [hbefore] at hknown
                    cases hknown
                  · rfl

/-- An expression has the type that it had, or is a variable that has become an int. -/
theorem Defaults.knownType_cases
    (h : Defaults vars vars')
    (e : Expr) :
    e.knownType vars' = e.knownType vars ∨
      ∃ v, e = .var v ∧ vars.isUntyped v = true ∧ vars'.isUntyped v = false ∧
        vars'.type? v = some "I" := by
  cases hvar : e.var? with
  | none => exact Or.inl ((h.knownType_eq e).1 hvar)
  | some v =>
      obtain rfl : e = .var v := by cases e <;> simp_all [Expr.var?]
      change vars'.type? v = vars.type? v ∨ _
      cases hafter : vars'.type? v with
      | none =>
          refine Or.inl ?_
          cases hbefore : vars.type? v with
          | none => rfl
          | some type => exact hafter.symm.trans (h.learns.type?_eq_some hbefore)
      | some type =>
          rcases h.types v type hafter with hknown | ⟨hnone, rfl⟩
          · exact Or.inl hknown.symm
          · obtain ⟨e, he, -⟩ := Option.bind_eq_some_iff.mp hafter
            have hlt : v < vars'.size := (Array.getElem?_eq_some_iff.mp he).1
            refine Or.inr ⟨v, rfl, Variables.isUntyped_iff.mpr ⟨h.learns.size_eq ▸ hlt, hnone⟩, ?_,
              hafter⟩
            by_contra huntyped
            have hnone' := (Variables.isUntyped_iff.mp (by simpa using huntyped)).2
            cases hafter.symm.trans hnone'

/-- The hints that defaulting makes are those of variables that have become ints. -/
theorem Defaults.heeds_iff
    {left right : Expr}
    (h : Defaults vars vars')
    (hbefore : ∀ type, left.knownType vars = some type → suggestFor vars right type = vars) :
    (∀ type, left.knownType vars' = some type → suggestFor vars' right type = vars') ↔
      ∀ v w, left = .var v → right = .var w → vars.isUntyped v = true →
        vars'.isUntyped v = false → vars'.isUntyped w = false := by
  rcases h.knownType_cases left with hsame | ⟨v, rfl, huntyped, htyped, hint⟩
  · rw [hsame]
    refine iff_of_true (fun type htype => suggestFor_of_learns h.learns (hbefore type htype)) ?_
    rintro v w rfl - huntyped htyped
    have hnone : vars'.type? v = none := hsame.trans (Variables.isUntyped_iff.mp huntyped).2
    have hlt : v < vars'.size := h.learns.size_eq.symm ▸ (Variables.isUntyped_iff.mp huntyped).1
    rw [Variables.isUntyped_iff.mpr ⟨hlt, hnone⟩] at htyped
    cases htyped
  · have hknown : (Expr.var v).knownType vars' = some "I" := hint
    rw [hknown]
    constructor
    · rintro hheeds _ w ⟨⟩ rfl - -
      by_contra hnot
      have hvoid := suggestFor_eq_self_iff.mp (hheeds "I" rfl) w rfl (by simpa using hnot)
      exact absurd hvoid (by decide)
    · rintro hties _ ⟨⟩
      refine suggestFor_eq_self_iff.mpr fun w hw huntyped' => ?_
      rw [hties v w rfl hw huntyped htyped] at huntyped'
      cases huntyped'

/-- An instruction without two sides has the hints that it had: an int has no elements. -/
theorem Defaults.suggestByKind_of_sides
    {ins : Instr}
    {returns : String}
    {catchType : Option String}
    (h : Defaults vars vars')
    (hsides : sides? ins = none)
    (hbefore : suggestByKind returns catchType vars ins = vars) :
    suggestByKind returns catchType vars' ins = vars' := by
  cases ins with
  | moveException v => exact suggestFor_of_learns (e := .var v) h.learns hbefore
  | ret value =>
      cases value with
      | none => rfl
      | some value => exact suggestFor_of_learns h.learns hbefore
  | fieldWrite object field value => exact suggestAll_of_learns h.learns hbefore
  | staticFieldWrite field value => exact suggestFor_of_learns h.learns hbefore
  | throw value => exact suggestFor_of_learns h.learns hbefore
  | ifCompare relation left right => cases hsides
  | arrayWrite array index value =>
      have hindex : suggestFor vars index "I" = vars := by
        refine (suggestFor_learns vars index "I").antisymm ?_
        have hlearns : (suggestFor vars index "I").Learns
            (suggestByKind returns catchType vars (.arrayWrite array index value)) := by
          simp only [suggestByKind]
          split
          · exact suggestFor_learns _ _ _
          · exact .refl _
        rwa [hbefore] at hlearns
      have hindex' := suggestFor_of_learns h.learns hindex
      simp only [suggestByKind, hindex, hindex', (h.knownType_eq array).2] at hbefore ⊢
      cases hknown : (array.knownType vars).bind Descriptor.element? with
      | none => rfl
      | some element =>
          simp only [hknown] at hbefore
          exact suggestFor_of_learns h.learns hbefore
  | _ => rfl

/-- Defaulting leaves an instruction hints if and only if it ties a variable that has become an int
to one without a type. -/
theorem Defaults.suggestInstr_eq_self_iff
    {ins : Instr}
    {returns : String}
    {catchType : Option String}
    (h : Defaults vars vars')
    (hbefore : suggestInstr returns catchType vars ins = vars) :
    suggestInstr returns catchType vars' ins = vars' ↔
      ∀ v w, Ties ins v w → vars.isUntyped v = true → vars'.isUntyped v = false →
        vars'.isUntyped w = false := by
  obtain ⟨hassignment, hkind, hoperands⟩ := Typing.suggestInstr_eq_self_iff.mp hbefore
  have hoperands' : ∀ e, e ∈ ins.operands → suggestOperands vars' e = vars' := fun e he =>
    suggestOperands_of_learns h.learns (hoperands e he)
  rw [Typing.suggestInstr_eq_self_iff]
  cases hsides : sides? ins with
  | some sides =>
      obtain ⟨left, right⟩ := sides
      rw [← and_assoc, and_iff_left hoperands', exchange_of_sides returns catchType hsides,
        exchange_eq_self_iff]
      obtain ⟨hleft, hright⟩ := exchange_eq_self_iff.mp
        ((exchange_of_sides returns catchType hsides).mp ⟨hassignment, hkind⟩)
      rw [h.heeds_iff hleft, h.heeds_iff hright]
      simp only [Ties, hsides, Option.some.injEq, Prod.mk.injEq]
      constructor
      · rintro ⟨hforth, hback⟩ v w (⟨rfl, rfl⟩ | ⟨rfl, rfl⟩)
        · exact hforth v w rfl rfl
        · exact hback v w rfl rfl
      · intro hties
        exact ⟨fun v w hv hw => hties v w (Or.inl ⟨hv, hw⟩),
          fun v w hv hw => hties v w (Or.inr ⟨hw, hv⟩)⟩
  | none =>
      have hassignment' : suggestAssignment vars' ins = vars' := by
        unfold suggestAssignment
        split
        · rename_i v value htarget hvalue
          cases ins <;> simp_all [sides?]
        · rfl
      refine iff_of_true ⟨hassignment', h.suggestByKind_of_sides hsides hkind, hoperands'⟩
        fun v w hties => ?_
      simp [Ties, hsides] at hties

end Ties

section Inferring

/-- An instruction of the code assigns an integer constant to a variable. -/
def HoldsConstant (g : FlowGraph) (v : VarId) : Prop :=
  ∃ id, id ∈ g.order ∧ ∃ ins, ins ∈ (g.node id).ins ∧ ∃ value,
    ins.target? = some v ∧ ins.value? = some (.const (.int value))

theorem suggestConstants_eq_self_iff
    {g : FlowGraph} :
    suggestConstants g vars = vars ↔ ∀ v, HoldsConstant g v → vars.isUntyped v = false := by
  have hnode : ∀ id, (g.node id).ins.foldl suggestConstant vars = vars ↔
      ∀ ins, ins ∈ (g.node id).ins → suggestConstant vars ins = vars :=
    fun id => foldl_eq_self_iff suggestConstant_learns
  have hgraph : suggestConstants g vars = vars ↔
      ∀ id, id ∈ g.order → (g.node id).ins.foldl suggestConstant vars = vars :=
    foldl_eq_self_iff fun vars _ => foldl_learns suggestConstant_learns _ vars
  simp only [hgraph, hnode, suggestConstant_eq_self_iff, HoldsConstant]
  constructor
  · rintro hall v ⟨id, hid, ins, hins, value, htarget, hvalue⟩
    exact hall id hid ins hins v value htarget hvalue
  · intro hall id hid ins hins v value htarget hvalue
    exact hall v ⟨id, hid, ins, hins, value, htarget, hvalue⟩

/-- Variables without a type that hold a constant get one, and no others. -/
theorem isUntyped_suggestConstants
    {g : FlowGraph}
    {v : VarId} :
    (suggestConstants g vars).isUntyped v = true ↔
      vars.isUntyped v = true ∧ ¬HoldsConstant g v := by
  constructor
  · intro huntyped
    refine ⟨(suggestConstants_defaults g vars).learns.isUntyped_of huntyped, fun hholds => ?_⟩
    rw [suggestConstants_eq_self_iff.mp (suggestConstants_suggestConstants g vars) v hholds]
      at huntyped
    cases huntyped
  · rintro ⟨huntyped, hnot⟩
    unfold suggestConstants
    refine List.foldlRecOn (motive := fun vars : Variables => vars.isUntyped v = true) _ _ huntyped
      fun between h id hid => ?_
    refine List.foldlRecOn (motive := fun vars : Variables => vars.isUntyped v = true) _ _ h
      fun between h ins hins => ?_
    unfold suggestConstant
    split
    · rename_i w value htarget hvalue
      have hne : w ≠ v := by
        rintro rfl
        exact hnot ⟨id, hid, ins, hins, value, htarget, hvalue⟩
      rwa [Variables.isUntyped_suggestType_of_ne hne]
    · exact h

theorem infer_learns
    (g : FlowGraph)
    (returns : String)
    (vars : Variables) :
    vars.Learns (infer g returns vars) :=
  (settle_learns g returns _ vars).trans (suggestConstants_defaults g _).learns

/-- A second inference changes nothing if and only if a sweep finds nothing. -/
theorem infer_eq_self_iff
    {g : FlowGraph}
    {returns : String}
    (hconstants : suggestConstants g vars = vars) :
    infer g returns vars = vars ↔ sweep g returns vars = vars := by
  have hbound : vars.size - vars.typedCount < vars.size + 1 := by omega
  obtain ⟨sweeps, -, hsettle, hstable⟩ := exists_sweeps g returns hbound
  have hsettled := settle_learns g returns (vars.size + 1) vars
  have hinfer : infer g returns vars =
      suggestConstants g (settle g returns (vars.size + 1) vars) := rfl
  constructor
  · intro hsame
    have hdefaults := (suggestConstants_defaults g (settle g returns (vars.size + 1) vars)).learns
    rw [← hinfer, hsame] at hdefaults
    rwa [hsettled.antisymm hdefaults] at hstable
  · intro hsweep
    rw [hinfer, hsettle, Function.iterate_fixed hsweep, hconstants]

/-- **Inference sweeps until nothing is found, and then makes constants ints.** For every graph,
result type and variables there is a number of sweeps, at most that of the variables, after which a
sweep finds nothing.  From there on variables without a type that hold an integer constant become
ints, and nothing else changes; types that were known at the beginning are the same at the end.  A
second inference changes nothing if and only if, among the variables that the sweeps leave without a
type, no copy and no comparison ties one that holds a constant to one that holds none. -/
theorem infer_settles
    (g : FlowGraph)
    (returns : String)
    (vars : Variables) :
    ∃ settled : Variables,
      (∃ sweeps, sweeps ≤ vars.size ∧ settled = (sweep g returns)^[sweeps] vars) ∧
        sweep g returns settled = settled ∧
        vars.Learns (infer g returns vars) ∧
        (∀ v type, vars.type? v = some type → (infer g returns vars).type? v = some type) ∧
        Defaults settled (infer g returns vars) ∧
        (∀ v, (infer g returns vars).isUntyped v = true ↔
          settled.isUntyped v = true ∧ ¬HoldsConstant g v) ∧
        (infer g returns (infer g returns vars) = infer g returns vars ↔
          ∀ id, id ∈ g.order → ∀ ins, ins ∈ (g.node id).ins → ∀ v w, Ties ins v w →
            settled.isUntyped v = true → settled.isUntyped w = true →
              HoldsConstant g v → HoldsConstant g w) := by
  have hbound : vars.size - vars.typedCount < vars.size + 1 := by omega
  obtain ⟨sweeps, hsweeps, hsettle, hstable⟩ := exists_sweeps g returns hbound
  set settled := settle g returns (vars.size + 1) vars with hsettled
  have hdefaults : Defaults settled (infer g returns vars) := suggestConstants_defaults g settled
  have hlearns := infer_learns g returns vars
  have huntyped : ∀ v, (infer g returns vars).isUntyped v = true ↔
      settled.isUntyped v = true ∧ ¬HoldsConstant g v := fun v => isUntyped_suggestConstants
  refine ⟨settled, ⟨sweeps, by omega, hsettle⟩, hstable, hlearns, fun v type =>
    hlearns.type?_eq_some,
    hdefaults, huntyped, ?_⟩
  have hconstants : suggestConstants g (infer g returns vars) = infer g returns vars :=
    suggestConstants_suggestConstants g settled
  rw [infer_eq_self_iff hconstants, sweep_eq_self_iff]
  refine forall₄_congr fun id hid ins hins => ?_
  rw [hdefaults.suggestInstr_eq_self_iff (sweep_eq_self_iff.mp hstable id hid ins hins)]
  refine forall₄_congr fun v w _ hv => ?_
  have hv' : (infer g returns vars).isUntyped v = false ↔ HoldsConstant g v := by
    rw [← Bool.not_eq_true, huntyped, not_and_not_right]
    exact forall_prop_of_true hv
  have hw' : (infer g returns vars).isUntyped w = false ↔
      (settled.isUntyped w = true → HoldsConstant g w) := by
    rw [← Bool.not_eq_true, huntyped, not_and_not_right]
  rw [hv', hw']
  exact forall_comm

end Inferring

section Unsettled

/-- A constant that is assigned to one variable and copied to another one. -/
def copiedConstant : FlowGraph :=
  { FlowGraph.empty with
    slots := #[FlowGraph.placedSlot .statement
      [(.assign (some 0) (.const (.int 1)), 0), (.move 1 (.var 0), 1), (.ret none, 2)] [] []]
    order := [0]
    locIndex := [(0, 0), (1, 0), (2, 0)] }

/-- Two registers of unknown types. -/
def twoRegisters : Variables :=
  ((Variables.empty.register 0).2.register 1).2

/-- **A copy of a constant stays without a type.** The copy learns nothing in the sweeps, since the
constant becomes an int only behind them; a second inference finds the type. -/
theorem copiedConstant_unsettled :
    let once := infer copiedConstant "V" twoRegisters
    let twice := infer copiedConstant "V" once
    once.type? 0 = some "I" ∧ once.type? 1 = none ∧ twice.type? 1 = some "I" ∧ twice ≠ once := by
  have hbefore : (infer copiedConstant "V" twoRegisters).type? 1 = none := by cbv
  have hafter : (infer copiedConstant "V" (infer copiedConstant "V" twoRegisters)).type? 1 =
      some "I" := by cbv
  refine ⟨by cbv, hbefore, hafter, fun hsame => ?_⟩
  rw [hsame, hbefore] at hafter
  cases hafter

end Unsettled

end Typing
end DalvikDecompiler
