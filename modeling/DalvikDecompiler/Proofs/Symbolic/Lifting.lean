import DalvikDecompiler.Proofs.Allocation
import DalvikDecompiler.Proofs.OrderedSet
import DalvikDecompiler.Proofs.Symbolic.Reading

/-!
# Lifted instructions mention known variables

**Input.** Instructions that are lifted one after another.

A variable is mentioned by a lifted instruction only if it has been made
before: it belongs to a register, is the result of a call or is an argument.
Variables are never taken away, so that what is known stays known.

**Results.**
* `sound_ofMethod`: the arguments of a method are variables that exist.
* `lifts_lift`: lifting mentions known variables only, and adds registers and
  results of calls.
-/

namespace DalvikDecompiler
namespace Symbolic

/-- Variables with some more registers and results of calls behind them. -/
inductive Variables.Extends (base : Variables) : Variables → Prop where
  | refl : base.Extends base
  | register {vars : Variables} (r : UInt16) :
      base.Extends vars → base.Extends (vars.register r).2
  | addTemp {vars : Variables} (type : Option String) :
      base.Extends vars → base.Extends (vars.addTemp type).2

theorem Variables.size_le_register
    (vars : Variables)
    (r : UInt16) :
    vars.size ≤ (vars.register r).2.size := by
  unfold Variables.register
  split
  · exact Nat.le_refl _
  · simp [Variables.size, Variables.push]

namespace Variables.Extends

variable {base vars vars' : Variables}

theorem trans
    (h : base.Extends vars)
    (h' : vars.Extends vars') :
    base.Extends vars' := by
  induction h' with
  | refl => exact h
  | register r _ ih => exact ih.register r
  | addTemp type _ ih => exact ih.addTemp type

theorem params_eq
    (h : base.Extends vars) :
    vars.params = base.params := by
  induction h with
  | refl => rfl
  | @register vars r _ ih =>
      cases hr : vars.registers.lookup r with
      | some v => simpa [Variables.register, hr] using ih
      | none => simpa [Variables.register, hr, Variables.push] using ih
  | addTemp type _ ih => exact ih

end Variables.Extends

namespace LiftState

open Bytecode (Instruction MethodRef)

/-- The variables that a lifter may give out exist. -/
structure Sound (l : LiftState) : Prop where
  registers : ∀ r v, l.vars.registers.lookup r = some v → v < l.vars.size
  pending : ∀ v, l.pending = some v → v < l.vars.size

/-- Computations that mention variables that exist, and add registers and results to them. -/
abbrev Lifts {α : Type} (base : Variables) (known : List VarId) (x : LiftM α)
    (mentions : α → List VarId) : Prop :=
  Allocates (fun l => l.Sound ∧ base.Extends l.vars) (fun l => l.vars.size) known x mentions

section Operands

variable {base : Variables} {known : List VarId}

theorem lifts_require
    {α : Type}
    (operand : Option α)
    (error : LiftError) :
    Lifts base known (require operand error) fun _ => [] := by
  cases operand with
  | some a => exact .pure (by simp)
  | none => exact .throw error

theorem lifts_varOf
    (r : UInt16) :
    Lifts base known (varOf r) fun v => [v] := by
  refine .modifyGet fun l ⟨hl, hextends⟩ _ => ?_
  change (Sound { l with vars := (l.vars.register r).2 } ∧ base.Extends (l.vars.register r).2) ∧
    l.vars.size ≤ (l.vars.register r).2.size ∧
      ∀ v, v ∈ [(l.vars.register r).1] → v < (l.vars.register r).2.size
  cases hr : l.vars.registers.lookup r with
  | some v =>
      have heq : l.vars.register r = (v, l.vars) := by simp [Variables.register, hr]
      simp only [heq, List.mem_singleton, forall_eq]
      exact ⟨⟨hl, hextends⟩, Nat.le_refl _, hl.registers r v hr⟩
  | none =>
      have hnew : (l.vars.register r).1 = l.vars.size := by simp [Variables.register, hr]
      have hsize : (l.vars.register r).2.size = l.vars.size + 1 := by
        simp [Variables.register, hr, Variables.size, Variables.push]
      have hregisters : (l.vars.register r).2.registers =
          OrderedMap.insert r l.vars.size l.vars.registers := by
        simp [Variables.register, hr, Variables.push]
      refine ⟨⟨⟨?_, ?_⟩, hextends.register r⟩, ?_, ?_⟩
      · intro r' v hlookup
        rw [hregisters, OrderedMap.lookup_insert] at hlookup
        rw [hsize]
        split at hlookup
        · obtain rfl := Option.some.inj hlookup
          exact Nat.lt_succ_self _
        · exact Nat.lt_succ_of_lt (hl.registers r' v hlookup)
      · intro v hpending
        rw [hsize]
        exact Nat.lt_succ_of_lt (hl.pending v hpending)
      · rw [hsize]
        exact Nat.le_succ _
      · simp [hsize, hnew]

theorem lifts_newResult
    (type : String) :
    Lifts base known (newResult type) fun v => [v] := by
  refine .modifyGet fun l ⟨hl, hextends⟩ _ => ?_
  change (Sound { vars := (l.vars.addTemp (some type)).2, pending := some l.vars.size } ∧
      base.Extends (l.vars.addTemp (some type)).2) ∧
    l.vars.size ≤ (l.vars.addTemp (some type)).2.size ∧
      ∀ v, v ∈ [l.vars.size] → v < (l.vars.addTemp (some type)).2.size
  have hsize : (l.vars.addTemp (some type)).2.size = l.vars.size + 1 := by
    simp [Variables.addTemp, Variables.size, Variables.push]
  refine ⟨⟨⟨?_, ?_⟩, hextends.addTemp _⟩, ?_, ?_⟩
  · intro r v hlookup
    exact hsize ▸ Nat.lt_succ_of_lt (hl.registers r v hlookup)
  · rintro v ⟨⟩
    exact hsize ▸ Nat.lt_succ_self _
  · exact hsize ▸ Nat.le_succ _
  · simp [hsize]

theorem lifts_reg
    (ins : Instruction)
    (n : Nat) :
    Lifts base known (reg ins n) fun v => [v] :=
  (lifts_require _ _).bind fun r => lifts_varOf r

theorem lifts_assigned
    {target : VarId}
    {value : Expr}
    (htarget : target ∈ known)
    (h : ∀ v, v ∈ value.varsRead → v ∈ known) :
    Lifts base known (Pure.pure (Instr.assign (some target) value)) Instr.mentions := by
  refine .pure fun v hv => ?_
  simp only [Instr.mentions, Instr.target?, Instr.reads, Instr.operands, Option.toList_some,
    List.flatMap_singleton, List.singleton_append, List.mem_cons] at hv
  rcases hv with rfl | hv
  · exact htarget
  · exact h v hv

theorem lifts_arguments
    (ins : Instruction)
    (descriptor : String)
    (registers : List UInt16)
    (types : List String) :
    Lifts base known (arguments ins descriptor registers types) (List.flatMap Expr.varsRead) := by
  induction types generalizing registers known with
  | nil =>
      rw [arguments]
      exact .pure (by simp)
  | cons type types ih =>
      rw [arguments]
      exact (lifts_require _ _).bind fun r => (lifts_varOf r).bind fun argument =>
        (ih _).bind fun rest => .pure (by simp; grind)

theorem lifts_mapM_varOf
    (registers : List UInt16) :
    Lifts base known (registers.mapM varOf) id := by
  induction registers generalizing known with
  | nil => exact .pure (by simp)
  | cons r registers ih =>
      rw [List.mapM_cons]
      exact (lifts_varOf r).bind fun v => ih.bind fun rest => .pure (by simp; grind)

end Operands

section Instructions

variable {base : Variables} {known : List VarId}

theorem lifts_bindCall
    (m : MethodRef)
    {value : Expr}
    (h : ∀ v, v ∈ value.varsRead → v ∈ known) :
    Lifts base known (bindCall m value) Instr.mentions := by
  unfold bindCall
  split
  · exact .pure (by simpa [Instr.mentions, Instr.target?, Instr.reads, Instr.operands] using h)
  · exact (lifts_newResult _).bind fun result =>
      lifts_assigned (by simp) fun v hv => by simp [h v hv]

theorem lifts_staticCall
    (ins : Instruction) :
    Lifts base known (staticCall ins) Instr.mentions :=
  (lifts_require _ _).bind fun m => (lifts_arguments _ _ _ _).bind fun args =>
    lifts_bindCall m (Expr.mem_of_operands rfl (by simp [Expr.children]; grind))

theorem lifts_call
    (ins : Instruction)
    (dispatch : Dispatch) :
    Lifts base known (call ins dispatch) Instr.mentions := by
  unfold call
  refine (lifts_require _ _).bind fun m => (lifts_require _ _).bind fun r =>
    (lifts_varOf r).bind fun receiver => (lifts_arguments _ _ _ _).bind fun args =>
    Allocates.get.bind fun l => ?_
  split
  · exact lifts_assigned (by simp) (Expr.mem_of_operands rfl (by simp [Expr.children]; grind))
  · exact lifts_bindCall m (Expr.mem_of_operands rfl (by simp [Expr.children]; grind))

theorem lifts_moveResult
    (ins : Instruction) :
    Lifts base known (moveResult ins) Instr.mentions := by
  refine .get_bind fun l hl hknown => ?_
  cases hp : l.pending with
  | none =>
      intro a l' hrun
      cases hrun
  | some result =>
      have hrest : Lifts base (result :: known)
          (reg ins 0 >>= fun target => pure (.moveResult target (.var result)))
          Instr.mentions :=
        (lifts_reg ins 0).bind fun target =>
          .pure (by simp [Instr.mentions, Instr.target?, Instr.reads, Instr.operands])
      refine fun a l' => hrest l a l' hl fun v hv => ?_
      rcases List.mem_cons.mp hv with rfl | hv
      · exact hl.1.pending v hp
      · exact hknown v hv

theorem lifts_filledArray
    (ins : Instruction) :
    Lifts base known (filledArray ins) Instr.mentions :=
  (lifts_require _ _).bind fun arrayType => (lifts_mapM_varOf _).bind fun elements =>
    (lifts_newResult _).bind fun result =>
      lifts_assigned (by simp) (Expr.mem_of_operands rfl (by simp [Expr.children]; grind))

/-- An instruction that is read off its operands mentions what has been read. -/
theorem lifts_of_reads
    {ins : Instruction}
    {x : LiftM Instr}
    (h : Reads ins known x) :
    Lifts base known x Instr.mentions := by
  induction h with
  | made hknown _ => exact .pure hknown
  | require _ ih => exact (lifts_require _ _).bind ih
  | reg _ ih => exact (lifts_reg _ _).bind ih

/-- An instruction other than a jump is built from operands that are known. -/
theorem lifts_liftOther
    (ins : Instruction) :
    Lifts base known (liftOther ins) Instr.mentions := by
  have h := lifting_liftOther ins
  generalize liftOther ins = x at h
  cases h with
  | reads h =>
      exact (lifts_of_reads h).weaken (fun _ hn => absurd hn List.not_mem_nil) fun _ _ hn => hn
  | moveResult => exact lifts_moveResult ins
  | call dispatch => exact lifts_call ins dispatch
  | staticCall => exact lifts_staticCall ins
  | filledArray => exact lifts_filledArray ins

/-- Lifting mentions known variables only, and adds registers and results of calls to them. -/
theorem lifts_lift
    (ins : Instruction) :
    Lifts base known (lift ins) fun lifted => lifted.toList.flatMap Instr.mentions := by
  unfold lift
  split
  · exact .pure (by simp)
  · exact (lifts_liftOther ins).map (by simp; grind)

end Instructions

/-- The variables of a method exist from the start. -/
theorem sound_ofMethod
    (m : Bytecode.Method) :
    Sound { vars := .ofMethod m, pending := none } ∧
      ∀ v, v ∈ (Variables.ofMethod m).params → v < (Variables.ofMethod m).size := by
  have hall : (∀ r v, (Variables.ofMethod m).registers.lookup r = some v →
        v < (Variables.ofMethod m).size) ∧
      ∀ v, v ∈ (Variables.ofMethod m).params → v < (Variables.ofMethod m).size := by
    refine List.foldlRecOn
      (motive := fun vars : Variables => (∀ r v, vars.registers.lookup r = some v → v < vars.size) ∧
        ∀ v, v ∈ vars.params → v < vars.size) _ _ (by simp [Variables.empty]) ?_
    rintro vars ⟨hregisters, hparams⟩ ⟨r, type⟩ -
    have hsize : (vars.addArgument m.owner (r, type)).size = vars.size + 1 := by
      simp [Variables.addArgument, Variables.size, Variables.push]
    constructor
    · intro r' v hlookup
      simp only [Variables.addArgument, Variables.push, OrderedMap.lookup_insert] at hlookup
      rw [hsize]
      split at hlookup
      · obtain rfl := Option.some.inj hlookup
        exact Nat.lt_succ_self _
      · exact Nat.lt_succ_of_lt (hregisters r' v hlookup)
    · intro v hv
      simp only [Variables.addArgument, Variables.push, List.mem_append, List.mem_singleton] at hv
      rw [hsize]
      rcases hv with hv | rfl
      · exact Nat.lt_succ_of_lt (hparams v hv)
      · exact Nat.lt_succ_self _
  exact ⟨⟨hall.1, by simp⟩, hall.2⟩

/-- Each argument has a variable of its own. -/
theorem nodup_params_ofMethod
    (m : Bytecode.Method) :
    (Variables.ofMethod m).params.Nodup := by
  have hall : (Variables.ofMethod m).params.Nodup ∧
      ∀ v, v ∈ (Variables.ofMethod m).params → v < (Variables.ofMethod m).size := by
    refine List.foldlRecOn (motive := fun vars : Variables => vars.params.Nodup ∧
      ∀ v, v ∈ vars.params → v < vars.size) _ _ (by simp [Variables.empty]) ?_
    rintro vars ⟨hnodup, hlt⟩ argument -
    have hparams : (vars.addArgument m.owner argument).params = vars.params ++ [vars.size] := rfl
    have hsize : (vars.addArgument m.owner argument).size = vars.size + 1 := by
      simp [Variables.addArgument, Variables.size, Variables.push]
    rw [hparams, hsize]
    constructor
    · refine List.nodup_append.mpr ⟨hnodup, by simp, fun v hv w hw => ?_⟩
      rw [List.mem_singleton.mp hw]
      exact Nat.ne_of_lt (hlt v hv)
    · intro v hv
      rcases List.mem_append.mp hv with hv | hv
      · exact Nat.lt_succ_of_lt (hlt v hv)
      · rw [List.mem_singleton.mp hv]
        exact Nat.lt_succ_self _
  exact hall.1

end LiftState
end Symbolic
end DalvikDecompiler
