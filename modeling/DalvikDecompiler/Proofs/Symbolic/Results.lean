import DalvikDecompiler.Proofs.Symbolic.Lifting

/-!
# Results of lifted instructions

**Input.** Instructions that are lifted one after another.

A call with a result and an array of operands define a variable of their own,
which waits until it is moved.  Any other instruction leaves the waiting result
alone, whatever block it stands in.

**Results.**
* `settles_lift`: what one instruction does to the waiting result.
* `Lifted.moved`: an instruction moves the result of the instruction that was lifted last among
  those with a result.
* `Lifted.results_sorted`: no two instructions have the same result.
-/

namespace DalvikDecompiler

namespace Bytecode
namespace Instruction

/-- Whether an instruction makes a value that the next one may move: a call of a method that is no
constructor and returns something, or an array of operands. -/
def makesResult (ins : Instruction) : Bool :=
  match ins.opcode with
  | .filledNewArray | .filledNewArrayRange => true
  | opcode => opcode.isInvoke && ins.method?.any fun m => m.returnType != "V" && !m.isConstructor

end Instruction
end Bytecode

namespace Symbolic

open Bytecode (Instruction MethodRef)

namespace LiftState

/-- What lifting an instruction does to the variables and to the waiting result. -/
structure Settles (l : LiftState) (lifted : Option Instr) (l' : LiftState) : Prop where
  size_le : l.vars.size ≤ l'.vars.size
  pending_eq : l'.pending = (lifted.bind Instr.result?).or l.pending
  fresh : ∀ r, lifted.bind Instr.result? = some r → l.vars.size ≤ r ∧ r < l'.vars.size
  moved : ∀ value, lifted.bind Instr.moved? = some value →
    ∃ r, l.pending = some r ∧ value = .var r

/-- Computations that leave the waiting result alone, and what holds of what they return. -/
def Calm {α : Type} (x : LiftM α) (post : α → Prop) : Prop :=
  ∀ l a l', x l = .ok a l' → l'.pending = l.pending ∧ l.vars.size ≤ l'.vars.size ∧ post a

theorem run_require
    {α : Type}
    {operand : Option α}
    {error : LiftError}
    {l l' : LiftState}
    {a : α}
    (h : require operand error l = .ok a l') :
    operand = some a ∧ l' = l := by
  cases operand with
  | none => cases h
  | some a' =>
      cases h
      exact ⟨rfl, rfl⟩

namespace Calm

variable {α β : Type} {post : α → Prop} {post' : β → Prop}

theorem pure
    {a : α}
    (h : post a) :
    Calm (Pure.pure a) post := by
  rintro l b l' ⟨⟩
  exact ⟨rfl, Nat.le_refl _, h⟩

theorem bind
    {x : LiftM α}
    {f : α → LiftM β}
    (hx : Calm x post)
    (hf : ∀ a, post a → Calm (f a) post') :
    Calm (x >>= f) post' := by
  intro l b l'' hrun
  obtain ⟨a, l', hxs, hfs⟩ := run_bind hrun
  obtain ⟨hpending, hle, ha⟩ := hx l a l' hxs
  obtain ⟨hpending', hle', hb⟩ := hf a ha l' b l'' hfs
  exact ⟨hpending'.trans hpending, Nat.le_trans hle hle', hb⟩

end Calm

section Operands

theorem calm_require
    {α : Type}
    (operand : Option α)
    (error : LiftError) :
    Calm (require operand error) fun _ => True := by
  intro l a l' hrun
  obtain ⟨-, rfl⟩ := run_require hrun
  exact ⟨rfl, Nat.le_refl _, trivial⟩

theorem calm_varOf
    (r : UInt16) :
    Calm (varOf r) fun _ => True := by
  rintro l v l' ⟨⟩
  exact ⟨rfl, l.vars.size_le_register r, trivial⟩

theorem calm_reg
    (ins : Instruction)
    (n : Nat) :
    Calm (reg ins n) fun _ => True :=
  (calm_require _ _).bind fun r _ => calm_varOf r

theorem calm_arguments
    (ins : Instruction)
    (descriptor : String)
    (registers : List UInt16)
    (types : List String) :
    Calm (arguments ins descriptor registers types) fun _ => True := by
  induction types generalizing registers with
  | nil =>
      rw [arguments]
      exact .pure trivial
  | cons type types ih =>
      rw [arguments]
      exact (calm_require _ _).bind fun r _ => (calm_varOf r).bind fun _ _ =>
        (ih _).bind fun _ _ => .pure trivial

theorem calm_mapM_varOf
    (registers : List UInt16) :
    Calm (registers.mapM varOf) fun _ => True := by
  induction registers with
  | nil => exact .pure trivial
  | cons r registers ih =>
      rw [List.mapM_cons]
      exact (calm_varOf r).bind fun _ _ => ih.bind fun _ _ => .pure trivial

end Operands

section Instructions

variable {l l' : LiftState} {made : Instr}

/-- Most instructions have no result and are built from their operands. -/
theorem calm_of_reads
    {ins : Instruction}
    {known : List VarId}
    {x : LiftM Instr}
    (h : Reads ins known x) :
    Calm x Plain := by
  induction h with
  | made _ hplain => exact .pure hplain
  | require _ ih => exact (calm_require _ _).bind fun a _ => ih a
  | reg _ ih => exact (calm_reg _ _).bind fun v _ => ih v

theorem Calm.settles
    {x : LiftM Instr}
    (hx : Calm x Plain)
    (hrun : x l = .ok made l') :
    l.Settles (some made) l' := by
  obtain ⟨hpending, hle, hresult, hmoved⟩ := hx l made l' hrun
  refine ⟨hle, ?_, fun r hr => ?_, fun value hvalue => ?_⟩
  · rw [hpending, Option.bind_some, hresult, Option.none_or]
  · cases hresult.symm.trans hr
  · cases hmoved.symm.trans hvalue

/-- A new result is a variable that did not exist before, and it waits. -/
theorem run_newResult
    {type : String}
    {r : VarId}
    (h : newResult type l = .ok r l') :
    r = l.vars.size ∧ l'.vars.size = l.vars.size + 1 ∧ l'.pending = some r := by
  cases h
  exact ⟨rfl, by simp [Variables.size, Variables.push], rfl⟩

/-- What is assigned to a new result. -/
theorem settles_newResult
    {type : String}
    {value : Expr}
    {l₀ : LiftState}
    (hcalm : l.pending = l₀.pending ∧ l₀.vars.size ≤ l.vars.size)
    (hmakes : value.makes l.vars.size = true)
    (hrun : (newResult type >>= fun r => pure (Instr.assign (some r) value)) l = .ok made l') :
    l₀.Settles (some made) l' ∧ made.result?.isSome := by
  obtain ⟨r, l₁, hnew, hmade⟩ := run_bind hrun
  obtain ⟨rfl, hsize, hpending⟩ := run_newResult hnew
  cases hmade
  have hresult : (Instr.assign (some l.vars.size) value).result? = some l.vars.size := if_pos hmakes
  refine ⟨⟨?_, ?_, fun r hr => ?_, fun _ hvalue => ?_⟩, ?_⟩
  · exact hsize ▸ Nat.le_succ_of_le hcalm.2
  · rw [hpending, Option.bind_some, hresult, Option.some_or]
  · obtain rfl := Option.some.inj (hresult.symm.trans hr)
    exact ⟨hcalm.2, hsize ▸ Nat.lt_succ_self _⟩
  · cases hvalue
  · rw [hresult, Option.isSome_some]

/-- A call with a result gets a new variable. -/
theorem settles_bindCall
    {m : MethodRef}
    {value : Expr}
    {l₀ : LiftState}
    (hcalm : l.pending = l₀.pending ∧ l₀.vars.size ≤ l.vars.size)
    (hmakes : value.makes l.vars.size = true)
    (hrun : bindCall m value l = .ok made l') :
    l₀.Settles (some made) l' ∧ (m.returnType ≠ "V" → made.result?.isSome) := by
  unfold bindCall at hrun
  split at hrun
  · rename_i hvoid
    cases hrun
    refine ⟨⟨hcalm.2, hcalm.1, fun r hr => ?_, fun _ hvalue => ?_⟩, fun hne => absurd hvoid hne⟩
    · cases hr
    · cases hvalue
  · obtain ⟨hsettles, hsome⟩ := settles_newResult hcalm hmakes hrun
    exact ⟨hsettles, fun _ => hsome⟩

theorem settles_staticCall
    {ins : Instruction}
    (hrun : staticCall ins l = .ok made l') :
    l.Settles (some made) l' ∧
      ∀ m, ins.method? = some m → m.returnType ≠ "V" → made.result?.isSome := by
  unfold staticCall at hrun
  obtain ⟨m, l₁, hmethod, hrest⟩ := run_bind hrun
  obtain ⟨hm, rfl⟩ := run_require hmethod
  obtain ⟨args, l₂, hargs, hrest₁⟩ := run_bind hrest
  obtain ⟨hpending, hle, -⟩ := calm_arguments _ _ _ _ _ _ _ hargs
  obtain ⟨hsettles, hsome⟩ := settles_bindCall ⟨hpending, hle⟩ rfl hrest₁
  refine ⟨hsettles, fun m' hm' => ?_⟩
  obtain rfl := Option.some.inj (hm.symm.trans hm')
  exact hsome

theorem settles_call
    {ins : Instruction}
    {dispatch : Dispatch}
    (hl : l.Sound)
    (hrun : call ins dispatch l = .ok made l') :
    l.Settles (some made) l' ∧
      ∀ m, ins.method? = some m → m.returnType ≠ "V" → m.isConstructor = false →
        made.result?.isSome := by
  unfold call at hrun
  obtain ⟨m, l₁, hmethod, hrest⟩ := run_bind hrun
  obtain ⟨hm, rfl⟩ := run_require hmethod
  obtain ⟨r, l₂, hfirst, hrest₁⟩ := run_bind hrest
  obtain ⟨-, rfl⟩ := run_require hfirst
  obtain ⟨receiver, l₃, hvar, hrest₂⟩ := run_bind hrest₁
  obtain ⟨hpending, hle, -⟩ := calm_varOf _ _ _ _ hvar
  obtain ⟨-, -, hknown⟩ := lifts_varOf r l₂ receiver l₃ ⟨hl, .refl⟩
    (fun n (hn : n ∈ []) => absurd hn List.not_mem_nil) hvar
  obtain ⟨args, l₄, hargs, hrest₃⟩ := run_bind hrest₂
  obtain ⟨hpending', hle', -⟩ := calm_arguments _ _ _ _ _ _ _ hargs
  have hcalm : l₄.pending = l₂.pending ∧ l₂.vars.size ≤ l₄.vars.size :=
    ⟨hpending'.trans hpending, Nat.le_trans hle hle'⟩
  -- The receiver existed before the result, so that they are not the same.
  have hmakes : (Expr.call dispatch m (.var receiver) args).makes l₄.vars.size = true :=
    bne_iff_ne.mpr (Nat.ne_of_gt
      (Nat.lt_of_lt_of_le (hknown receiver (List.mem_singleton_self _)) hle'))
  obtain ⟨l₅, l₆, hget, hrest₄⟩ := run_bind hrest₃
  cases hget
  dsimp only at hrest₄
  split at hrest₄
  · rename_i hconstructor
    cases hrest₄
    have hplain : Plain (.assign (some receiver) (.call dispatch m (.var receiver) args)) :=
      plain_assign (bne_self_eq_false' receiver)
    refine ⟨⟨hcalm.2, ?_, fun r hr => ?_, fun _ hvalue => ?_⟩, fun m' hm' _ hno => ?_⟩
    · rw [Option.bind_some, hplain.1, Option.none_or, hcalm.1]
    · cases hplain.1.symm.trans hr
    · cases hvalue
    · obtain rfl := Option.some.inj (hm.symm.trans hm')
      rw [hno] at hconstructor
      cases hconstructor
  · obtain ⟨hsettles, hsome⟩ := settles_bindCall hcalm hmakes hrest₄
    refine ⟨hsettles, fun m' hm' hvoid _ => ?_⟩
    obtain rfl := Option.some.inj (hm.symm.trans hm')
    exact hsome hvoid

theorem settles_filledArray
    {ins : Instruction}
    (hrun : filledArray ins l = .ok made l') :
    l.Settles (some made) l' ∧ made.result?.isSome := by
  unfold filledArray at hrun
  obtain ⟨arrayType, l₁, htype, hrest⟩ := run_bind hrun
  obtain ⟨-, rfl⟩ := run_require htype
  obtain ⟨elements, l₂, helements, hrest₁⟩ := run_bind hrest
  obtain ⟨hpending, hle, -⟩ := calm_mapM_varOf _ _ _ _ helements
  exact settles_newResult ⟨hpending, hle⟩ rfl hrest₁

/-- A move of a result reads the one that waits. -/
theorem settles_moveResult
    {ins : Instruction}
    (hrun : moveResult ins l = .ok made l') :
    l.Settles (some made) l' ∧ made.moved?.isSome := by
  unfold moveResult at hrun
  obtain ⟨l₁, l₂, hget, hrest⟩ := run_bind hrun
  cases hget
  obtain ⟨result, l₃, hpending, hrest₁⟩ := run_bind hrest
  obtain ⟨hpending, rfl⟩ := run_require hpending
  obtain ⟨target, l₄, hreg, hrest₂⟩ := run_bind hrest₁
  obtain ⟨hcalm, hle, -⟩ := calm_reg _ _ _ _ _ hreg
  cases hrest₂
  refine ⟨⟨hle, ?_, fun r hr => ?_, fun value hvalue => ?_⟩, rfl⟩
  · exact hcalm
  · cases hr
  · obtain rfl := Option.some.inj hvalue
    exact ⟨result, hpending, rfl⟩

/-- Lifting an instruction other than a jump. -/
theorem settles_liftOther
    {ins : Instruction}
    (hl : l.Sound)
    (hrun : liftOther ins l = .ok made l') :
    l.Settles (some made) l' := by
  have h := lifting_liftOther ins
  generalize liftOther ins = x at h hrun
  cases h with
  | reads h => exact (calm_of_reads h).settles hrun
  | moveResult => exact (settles_moveResult hrun).1
  | call dispatch => exact (settles_call hl hrun).1
  | staticCall => exact (settles_staticCall hrun).1
  | filledArray => exact (settles_filledArray hrun).1

/-- A jump is left out, and leaves everything as it is. -/
theorem run_lift
    {ins : Instruction}
    {lifted : Option Instr}
    (hrun : lift ins l = .ok lifted l') :
    (ins.opcode.isGoto = true ∧ lifted = none ∧ l' = l) ∨
      (ins.opcode.isGoto = false ∧ ∃ made, lifted = some made ∧ liftOther ins l = .ok made l') := by
  unfold lift at hrun
  split at hrun
  · rename_i hgoto
    cases hrun
    exact .inl ⟨hgoto, rfl, rfl⟩
  · rename_i hgoto
    rw [← bind_pure_comp] at hrun
    obtain ⟨made, l₁, hother, hmade⟩ := run_bind hrun
    cases hmade
    exact .inr ⟨Bool.eq_false_iff.mpr hgoto, made, rfl, hother⟩

/-- What lifting an instruction does. -/
theorem settles_lift
    {ins : Instruction}
    {lifted : Option Instr}
    (hl : l.Sound)
    (hrun : lift ins l = .ok lifted l') :
    l.Settles lifted l' := by
  rcases run_lift hrun with ⟨-, rfl, rfl⟩ | ⟨-, made, rfl, hother⟩
  · exact ⟨Nat.le_refl _, rfl, fun _ hr => (nomatch hr), fun _ hvalue => (nomatch hvalue)⟩
  · exact settles_liftOther hl hother

/-- Calls that return something and arrays of operands make a result. -/
theorem result_of_makesResult
    {ins : Instruction}
    {lifted : Option Instr}
    (hl : l.Sound)
    (hrun : lift ins l = .ok lifted l')
    (hmakes : ins.makesResult = true) :
    (lifted.bind Instr.result?).isSome := by
  unfold Instruction.makesResult at hmakes
  rcases run_lift hrun with ⟨hgoto, -, -⟩ | ⟨-, made, rfl, hother⟩
  · generalize ins.opcode = op at hgoto hmakes
    cases op <;> first
      | cases hgoto; done
      | cases hmakes
  · have hcall : ∀ dispatch, ins.method?.any (fun m => m.returnType != "V" && !m.isConstructor) →
        call ins dispatch l = .ok made l' → made.result?.isSome := by
      intro dispatch hmethod hcall
      obtain ⟨m, hm, hreturns⟩ := (Option.any_eq_true _ _).mp hmethod
      simp only [Bool.and_eq_true, bne_iff_ne, Bool.not_eq_true'] at hreturns
      exact (settles_call hl hcall).2 m hm hreturns.1 hreturns.2
    have hstatic : ins.method?.any (fun m => m.returnType != "V" && !m.isConstructor) →
        staticCall ins l = .ok made l' → made.result?.isSome := by
      intro hmethod hcall
      obtain ⟨m, hm, hreturns⟩ := (Option.any_eq_true _ _).mp hmethod
      simp only [Bool.and_eq_true, bne_iff_ne, Bool.not_eq_true'] at hreturns
      exact (settles_staticCall hcall).2 m hm hreturns.1
    unfold liftOther at hother
    generalize ins.opcode = op at hother hmakes
    -- few instructions make a result: the others go before their lifting is looked at
    cases op <;> first
      | cases hmakes; done
      | exact hcall _ hmakes hother
      | exact hstatic hmakes hother
      | exact (settles_filledArray hother).2

/-- Moves of results move something. -/
theorem moved_of_isMoveResult
    {ins : Instruction}
    {lifted : Option Instr}
    (hrun : lift ins l = .ok lifted l')
    (hmove : ins.opcode.isMoveResult = true) :
    (lifted.bind Instr.moved?).isSome := by
  rcases run_lift hrun with ⟨hgoto, -, -⟩ | ⟨-, made, rfl, hother⟩
  · generalize ins.opcode = op at hgoto hmove
    cases op <;> first
      | cases hgoto; done
      | cases hmove
  · unfold liftOther at hother
    generalize ins.opcode = op at hother hmove
    cases op <;> first
      | cases hmove; done
      | exact (settles_moveResult hother).2

end Instructions

section Runs

/-- An instruction, and what lifting has made of it. -/
abbrev Pair : Type := Instruction × Option Instr

/-- The result of an instruction, if it has one. -/
def resultOf (pair : Pair) : Option VarId :=
  pair.2.bind Instr.result?

/-- The results of instructions, in the order in which they have been lifted. -/
def results (code : List Pair) : List VarId :=
  code.filterMap resultOf

theorem results_cons
    (pair : Pair)
    (rest : List Pair) :
    results (pair :: rest) = (resultOf pair).toList ++ results rest := by
  cases h : resultOf pair with
  | none => exact List.filterMap_cons_none h
  | some r => exact List.filterMap_cons_some h

/-- Instructions that are lifted one after another, from one state to another one. -/
inductive Lifted : LiftState → List Pair → LiftState → Prop where
  | nil (l : LiftState) : Lifted l [] l
  | cons {l l' l'' : LiftState} {ins : Instruction} {made : Option Instr} {rest : List Pair} :
      lift ins l = .ok made l' → Lifted l' rest l'' → Lifted l ((ins, made) :: rest) l''

namespace Lifted

variable {l l' l'' : LiftState} {code before between after : List Pair}

theorem append
    (h : Lifted l before l')
    (h' : Lifted l' after l'') :
    Lifted l (before ++ after) l'' := by
  induction h with
  | nil l => exact h'
  | cons hrun _ ih => exact .cons hrun (ih h')

theorem split
    (h : Lifted l (before ++ after) l'') :
    ∃ l', Lifted l before l' ∧ Lifted l' after l'' := by
  induction before generalizing l with
  | nil => exact ⟨l, .nil l, h⟩
  | cons pair before ih =>
      cases h with
      | cons hrun hrest =>
          obtain ⟨l', hbefore, hafter⟩ := ih hrest
          exact ⟨l', .cons hrun hbefore, hafter⟩

theorem sound_step
    {ins : Instruction}
    {made : Option Instr}
    (hl : l.Sound)
    (hrun : lift ins l = .ok made l') :
    l'.Sound ∧ l.vars.Extends l'.vars :=
  (lifts_lift ins l made l' ⟨hl, .refl⟩ (fun n (hn : n ∈ []) => absurd hn List.not_mem_nil)
    hrun).1

theorem sound
    (h : Lifted l code l')
    (hl : l.Sound) :
    l'.Sound := by
  induction h with
  | nil l => exact hl
  | cons hrun _ ih => exact ih (sound_step hl hrun).1

/-- A run adds registers and results of calls to the variables. -/
theorem extends_vars
    (h : Lifted l code l')
    (hl : l.Sound) :
    l.vars.Extends l'.vars := by
  induction h with
  | nil l => exact .refl
  | cons hrun _ ih =>
      obtain ⟨hsound, hextends⟩ := sound_step hl hrun
      exact hextends.trans (ih hsound)

/-- The result that waits after a run is the last one of the run. -/
theorem pending_eq
    (h : Lifted l code l')
    (hl : l.Sound) :
    l'.pending = (results code).getLast?.or l.pending := by
  induction h with
  | nil l => rfl
  | @cons l l₁ l₂ ins made rest hrun _ ih =>
      rw [ih (sound_step hl hrun).1, (settles_lift hl hrun).pending_eq, results_cons,
        List.getLast?_append, Option.or_assoc]
      change _ = (results rest).getLast?.or ((made.bind Instr.result?).toList.getLast?.or _)
      cases made.bind Instr.result? <;> rfl

/-- The results of a run are new variables, one after another. -/
theorem results_sorted
    (h : Lifted l code l')
    (hl : l.Sound) :
    (results code).Pairwise (· < ·) ∧ ∀ r, r ∈ results code → l.vars.size ≤ r := by
  induction h with
  | nil l => exact ⟨.nil, fun r hr => absurd hr List.not_mem_nil⟩
  | @cons l l₁ l₂ ins made rest hrun _ ih =>
      obtain ⟨hsorted, hnew⟩ := ih (sound_step hl hrun).1
      have hsettles := settles_lift hl hrun
      have hlater : ∀ r, r ∈ results rest → l.vars.size ≤ r := fun r hr =>
        Nat.le_trans hsettles.size_le (hnew r hr)
      rw [results_cons]
      cases hresult : resultOf (ins, made) with
      | none => exact ⟨hsorted, hlater⟩
      | some r =>
          obtain ⟨hle, hlt⟩ := hsettles.fresh r hresult
          exact ⟨List.pairwise_cons.mpr ⟨fun r' hr' => Nat.lt_of_lt_of_le hlt (hnew r' hr'),
            hsorted⟩, List.forall_mem_cons.mpr ⟨hle, hlater⟩⟩

/-- Every instruction of a run has been lifted in a sound state. -/
theorem exists_run
    {ins : Instruction}
    {made : Option Instr}
    (h : Lifted l code l')
    (hl : l.Sound)
    (hmem : (ins, made) ∈ code) :
    ∃ l₁ l₂, l₁.Sound ∧ lift ins l₁ = .ok made l₂ := by
  obtain ⟨before, after, rfl⟩ := List.append_of_mem hmem
  obtain ⟨l₁, hbefore, hrest⟩ := h.split
  cases hrest with
  | cons hrun _ => exact ⟨l₁, _, hbefore.sound hl, hrun⟩

/-- An instruction moves the result that was made last. -/
theorem moved
    {pair : Pair}
    {value : Expr}
    (h : Lifted l (before ++ pair :: after) l')
    (hl : l.Sound)
    (hmoved : pair.2.bind Instr.moved? = some value) :
    ∃ r, (results before).getLast?.or l.pending = some r ∧ value = .var r := by
  obtain ⟨l₁, hbefore, hrest⟩ := h.split
  cases hrest with
  | cons hrun _ =>
      obtain ⟨r, hpending, hvalue⟩ :=
        (settles_lift (hbefore.sound hl) hrun).moved value hmoved
      exact ⟨r, hbefore.pending_eq hl ▸ hpending, hvalue⟩

/-- An instruction moves a result if and only if no other one has been made in the meantime. -/
theorem moves_iff
    {call move : Pair}
    {r : VarId}
    {value : Expr}
    (h : Lifted l (before ++ call :: (between ++ move :: after)) l')
    (hl : l.Sound)
    (hresult : resultOf call = some r)
    (hmoved : move.2.bind Instr.moved? = some value) :
    value = .var r ↔ ∀ pair, pair ∈ between → resultOf pair = none := by
  obtain ⟨l₁, hbefore, hrest⟩ := h.split
  have hl₁ := hbefore.sound hl
  rw [← List.cons_append] at hrest
  obtain ⟨r', hlast, rfl⟩ := hrest.moved hl₁ hmoved
  obtain ⟨l₂, hbetween, -⟩ := hrest.split
  have hsorted := (hbetween.results_sorted hl₁).1
  rw [results_cons, hresult] at hlast hsorted
  rw [List.getLast?_append, Option.or_assoc] at hlast
  have hnone : (∀ pair, pair ∈ between → resultOf pair = none) ↔ results between = [] :=
    List.filterMap_eq_nil_iff.symm
  rw [hnone, Expr.var.injEq]
  cases hnewest : (results between).getLast? with
  | none =>
      rw [hnewest] at hlast
      exact iff_of_true (Option.some.inj hlast).symm (List.getLast?_eq_none_iff.mp hnewest)
  | some newest =>
      -- A later result is a newer variable, and it is the one that is moved.
      have hmem := List.mem_of_getLast? hnewest
      have hlt : r < newest := List.rel_of_pairwise_cons hsorted hmem
      rw [hnewest] at hlast
      obtain rfl := Option.some.inj hlast
      exact iff_of_false (Nat.ne_of_gt hlt) (List.ne_nil_of_mem hmem)

end Lifted

end Runs

end LiftState
end Symbolic
end DalvikDecompiler
