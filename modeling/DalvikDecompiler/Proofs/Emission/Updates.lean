import DalvikDecompiler.Emission.Statement
import DalvikDecompiler.Proofs.Java.Integers
import Mathlib

/-!
# Assignments with an operator

**Input.** An assignment `x = x op e` of ints or longs to a variable that has been declared.

A negative literal changes sides between `+` and `-`, and adding or subtracting one becomes a step.
Neither changes the bits that come out: adding a word is subtracting its negation.  A literal is
read as the word that was meant, and in the width that was meant.

The type of the variable is not looked at.  An assignment with an operator converts to this type
without being told to, so that a variable narrower than the operation keeps only the low bits of
what was computed.

**Results.**
* `performed?_change`: what is written evaluates the operand and applies the operator.
* `assignment_computes`: the variable gets what was computed, converted to its type.  This is the
  same number if the variable has the type of the operation.
* `assignment_narrows`: for a narrower variable it may be another number.
-/

namespace DalvikDecompiler

open Java (Computation)

namespace Number

/-- The negation, which wraps around. -/
def neg : Number → Number
  | .int bits => .int (-bits)
  | .long bits => .long (-bits)

/-- Whether a number becomes one of a type without losing bits. -/
def Widens (n : Number) (type : String) : Prop :=
  n.type = "I" ∨ n.type = type

/-- The number that a literal stands for where a type is expected. -/
def expected (n : Number) (type : String) : Number :=
  if type = "J" then .long n.asLong else n

end Number

namespace Symbolic

/-- The number that an expression spells, if it is an integer literal. -/
def Expr.integer? : Expr → Option Number
  | .const (.int c) => some (.int c.toBitVec)
  | .const (.wide c) => some (.long c.toBitVec)
  | _ => none

/-- What an operation of a type gives: ints have 32 bits and longs have 64. -/
def BinaryOp.result (op : BinaryOp) (type : String) (a b : Number) : Option Number :=
  if type = "J" then
    (op.apply a.asLong b.asLong).map .long
  else
    (op.apply a.asInt b.asInt).map .int

/-- What expressions mean. -/
abbrev Meaning (World : Type) := Expr → (VarId → Number) → Computation World Number

/-- Variables and integers mean themselves, and an operation of ints or of longs means the usual
arithmetic of its left operand and then its right one. -/
structure Meaning.Usual {World : Type} (meaning : Meaning World) : Prop where
  var : ∀ v env, meaning (.var v) env = pure (env v)
  integer : ∀ e n env, e.integer? = some n → meaning e env = pure n
  binary : ∀ op left right type env, type = "I" ∨ type = "J" →
    meaning (.binary op left right type) env = do
      let a ← meaning left env
      let b ← meaning right env
      (op.result type a b).getM

end Symbolic

namespace Emission

open Symbolic (VarId Variables Constant Expr BinaryOp)
open Java (Expression Locals TypeName IntegerType Returns operate readInteger?)

section Results

variable {op flipped : BinaryOp} {type : String} {a b n : Number}

/-- Java computes in the width of the operation, if this is the width of the left operand and the
right one is not wider. -/
theorem operate_eq_result
    (hleft : a.type = type)
    (hright : b.Widens type) :
    operate op a b = op.result type a b := by
  subst hleft
  cases a with
  | long a => rfl
  | int a =>
      cases b with
      | int b => simp [operate, BinaryOp.result, Number.type, Number.asInt]
      | long b =>
          have hnarrower : ¬("J" = "I" ∨ "J" = "I") := by decide
          exact absurd hright hnarrower

/-- A literal may be written in the type that is expected of it. -/
theorem operate_expected
    (hleft : a.type = type)
    (hright : n.Widens type) :
    operate op a (n.expected (op.rightType type)) = op.result type a n := by
  by_cases hlong : op.rightType type = "J"
  · cases a with
    | long a =>
        subst hleft
        rw [Number.expected, if_pos hlong]
        rfl
    | int a =>
        subst hleft
        have hnarrower : op.rightType "I" = "I" := ite_self _
        exact absurd (hnarrower.symm.trans hlong) (by decide)
  · rw [Number.expected, if_neg hlong]
    exact operate_eq_result hleft hright

/-- The operand may change its sign if addition and subtraction change places. -/
theorem result_neg
    (hopposite : opposite? op = some flipped)
    (hsame : n.type = type) :
    flipped.result type a n.neg = op.result type a n := by
  subst hsame
  cases op <;> cases hopposite <;> cases n <;>
    simp [BinaryOp.result, BinaryOp.apply, Number.type, Number.neg, Number.asInt, Number.asLong,
      sub_eq_add_neg]

/-- An operation gives a number of its type. -/
theorem type_result
    (hintegral : type = "I" ∨ type = "J")
    (hfound : op.result type a b = some n) :
    n.type = type := by
  unfold BinaryOp.result at hfound
  rcases hintegral with rfl | rfl
  · obtain ⟨bits, -, rfl⟩ := Option.map_eq_some_iff.1 hfound
    rfl
  · obtain ⟨bits, -, rfl⟩ := Option.map_eq_some_iff.1 hfound
    rfl

end Results

section Literals

variable {World : Type} {java : Java.Meaning World} {e e' : Expr} {type : String} {n : Number}

theorem literal_int
    (c : Int32) :
    constantLiteral (.int c) (some "I") = (toString c.toInt, "I") := by
  have hplain : Descriptor.isReference "I" = false := by decide
  simp [constantLiteral, intLiteral, hplain]

theorem literal_widened
    (c : Int32) :
    constantLiteral (.int c) (some "J") = (toString c.toInt ++ "L", "J") := by
  simp [constantLiteral, intLiteral]

theorem literal_long
    (c : Int64)
    (hintegral : type = "I" ∨ type = "J") :
    constantLiteral (.wide c) (some type) = (toString c.toInt ++ "L", "J") := by
  rcases hintegral with rfl | rfl <;> simp [constantLiteral]

/-- A literal is read as the number that it stands for. -/
theorem reads_integer
    (hreads : java.ReadsIntegers)
    (vars : Variables)
    (owner : String)
    (locals : Locals)
    (hinteger : e.integer? = some n)
    (hintegral : type = "I" ∨ type = "J") :
    java (expression vars owner e (some type)) locals = pure (n.expected type) := by
  unfold Expr.integer? at hinteger
  split at hinteger
  · next c =>
      obtain rfl := Option.some.inj hinteger
      have hlow := c.le_toInt
      have high := c.toInt_lt
      rw [expression, constant]
      rcases hintegral with rfl | rfl
      · have hbits : BitVec.ofInt 32 c.toInt = c.toBitVec := BitVec.ofInt_toInt
        rw [literal_int]
        exact hreads _ _ _ _ (hbits ▸ Java.readInteger?_int hlow high)
      · rw [literal_widened]
        exact hreads _ _ _ _ (Java.readInteger?_long (by omega) (by omega))
  · next c =>
      obtain rfl := Option.some.inj hinteger
      rw [expression, constant, literal_long c hintegral]
      have hbits : BitVec.ofInt 64 c.toInt = c.toBitVec := BitVec.ofInt_toInt
      have hlong : (Number.long c.toBitVec).expected type = .long c.toBitVec := ite_self _
      rw [hlong]
      exact hreads _ _ _ _ (hbits ▸ Java.readInteger?_long c.le_toInt c.toInt_lt)
  · cases hinteger

/-- The absolute value of a negative literal is its negation. -/
theorem integer?_negatedLiteral?
    (hintegral : type = "I" ∨ type = "J")
    (hfound : negatedLiteral? e type = some e') :
    ∃ n, n.type = type ∧ e.integer? = some n ∧ e'.integer? = some n.neg := by
  unfold negatedLiteral? at hfound
  split at hfound
  · next v =>
      split_ifs at hfound with hsmall
      obtain rfl := Option.some.inj hfound
      have hint : type = "I" := by
        rcases hintegral with rfl | rfl
        · rfl
        · simp [isIntLike] at hsmall
      exact ⟨.int v.toBitVec, hint.symm, rfl, rfl⟩
  · next v =>
      split_ifs at hfound with hsmall
      obtain rfl := Option.some.inj hfound
      have hlong : type = "J" :=
        beq_iff_eq.1 (Bool.and_eq_true_iff.1 (Bool.and_eq_true_iff.1 hsmall).1).1
      exact ⟨.long v.toBitVec, hlong.symm, rfl, rfl⟩
  · cases hfound

/-- Changing a variable by a literal one is a step. -/
theorem result_isOne
    {op : BinaryOp}
    {a : Number}
    (hone : isOne e type = true)
    (hintegral : type = "I" ∨ type = "J") :
    ∃ n, e.integer? = some n ∧ op.result type a n = op.result type a (.int 1) := by
  unfold isOne at hone
  split at hone
  · next v =>
      obtain rfl : v = 1 := by simpa using (Bool.and_eq_true_iff.1 hone).1
      exact ⟨_, rfl, rfl⟩
  · next v =>
      obtain ⟨hunit, hlong⟩ := Bool.and_eq_true_iff.1 hone
      obtain rfl : v = 1 := by simpa using hunit
      obtain rfl : type = "J" := by simpa using hlong
      exact ⟨_, rfl, rfl⟩
  · cases hone

end Literals

section Changes

variable {World : Type} {java : Java.Meaning World} {meaning : Symbolic.Meaning World}
variable {vars : Variables} {owner : String} {op : BinaryOp} {e : Expr} {type : String}
variable {env : VarId → Number} {locals : Locals}

/-- Turning the operation around for a negative literal changes nothing. -/
theorem foldNegative_computes
    (husual : meaning.Usual)
    (hintegral : type = "I" ∨ type = "J")
    (a : Number) :
    (do
      let b ← meaning (foldNegative op e type).2 env
      ((foldNegative op e type).1.result type a b).getM) =
    (do
      let b ← meaning e env
      (op.result type a b).getM) := by
  unfold foldNegative
  split
  · next flipped e' hopposite hfound =>
      obtain ⟨n, hsame, hinteger, hnegated⟩ := integer?_negatedLiteral? hintegral hfound
      rw [husual.integer e n env hinteger, husual.integer e' n.neg env hnegated,
        pure_bind, pure_bind,
        result_neg hopposite hsame]
  · rfl

/-- The least int has no absolute value, so that nothing is turned around. -/
example :
    foldNegative .add (.const (.int Int32.minValue)) "I" = (.add, .const (.int Int32.minValue)) :=
  rfl

/-- What is written for an operand of an operation gives what the operand gives, in the width of the
operation. -/
theorem operand_computes
    (husual : meaning.Usual)
    (hreads : java.ReadsIntegers)
    (hintegral : type = "I" ∨ type = "J")
    {a : Number}
    (hleft : a.type = type)
    (htyped : ∀ n, Returns (meaning e env) n → n.Widens type)
    (hwritten : e.integer? = none →
      java (expression vars owner e (some (op.rightType type))) locals = meaning e env) :
    (do
      let b ← java (expression vars owner e (some (op.rightType type))) locals
      (operate op a b).getM) =
    (do
      let b ← meaning e env
      (op.result type a b).getM) := by
  cases hinteger : e.integer? with
  | none =>
      rw [hwritten hinteger]
      exact Java.bind_congr_of_returns fun b hreturns => by
        rw [operate_eq_result hleft (htyped b hreturns)]
  | some n =>
      have hright : op.rightType type = "I" ∨ op.rightType type = "J" := by
        unfold BinaryOp.rightType
        split
        · exact .inl rfl
        · exact hintegral
      have hitself := husual.integer e n env hinteger
      rw [reads_integer hreads vars owner locals hinteger hright, hitself, pure_bind, pure_bind]
      refine OptionT.ext (funext fun w => ?_)
      rw [operate_expected hleft (htyped n ⟨w, by rw [hitself]; rfl⟩)]

/-- The expression that changes a variable by an operation on itself. -/
def change (vars : Variables) (owner name : String) (op : BinaryOp) (e : Expr) (type : String) :
    Expression :=
  if (opposite? op).isSome && isOne e type then
    .unary (op.symbol ++ op.symbol) (.localVar name) true
  else
    .assignment (.localVar name) (expression vars owner e (some (op.rightType type)))
      (some op.symbol)

/-- An assignment of the form `x = x op e` is always written as a change. -/
theorem assignment_eq_change
    {x : VarId}
    (hdeclared : declares vars x = false) :
    (assignment vars owner x (.binary op (.var x) e type)).1 =
      .expression (change vars owner (vars.name x) (foldNegative op e type).1
        (foldNegative op e type).2 type) := by
  have hitself : (Expr.var x).isVar x = true := by simp [Expr.isVar, Expr.var?]
  rw [assignment, hdeclared, if_neg Bool.false_ne_true, update?, if_pos hitself, change]
  dsimp only
  split_ifs <;> rfl

theorem stepOperator?_of_opposite?
    (hsteps : (opposite? op).isSome = true) :
    Java.stepOperator? (op.symbol ++ op.symbol) = some op := by
  cases op <;> first | rfl | cases hsteps

/-- What is written evaluates the operand and applies the operator. -/
theorem operation?_change
    (husual : meaning.Usual)
    (hreads : java.ReadsIntegers)
    (hintegral : type = "I" ∨ type = "J")
    {name : String}
    (hleft : (locals name).type = type)
    (htyped : ∀ n, Returns (meaning e env) n → n.Widens type)
    (hwritten : e.integer? = none →
      java (expression vars owner e (some (op.rightType type))) locals = meaning e env) :
    ∃ operand, java.operation? locals (change vars owner name op e type) =
      some (name, op, operand) ∧
      (do
        let b ← operand
        (operate op (locals name) b).getM) =
      (do
        let b ← meaning e env
        (op.result type (locals name) b).getM) := by
  unfold change
  split_ifs with hstep
  · obtain ⟨hsteps, hone⟩ := Bool.and_eq_true_iff.1 hstep
    obtain ⟨n, hinteger, hsame⟩ := result_isOne hone hintegral
    refine ⟨pure (.int 1),
      by rw [Java.Meaning.operation?, stepOperator?_of_opposite? hsteps]; rfl, ?_⟩
    rw [husual.integer e n env hinteger, pure_bind, pure_bind, hsame,
      operate_eq_result hleft (.inl rfl)]
  · exact ⟨_, by rw [Java.Meaning.operation?, Java.operator?_symbol]; rfl,
      operand_computes husual hreads hintegral hleft htyped hwritten⟩

/-- What is written changes the variable to the result, converted to the type of the variable. -/
theorem performed?_change
    (husual : meaning.Usual)
    (hreads : java.ReadsIntegers)
    (hintegral : type = "I" ∨ type = "J")
    {name : String}
    (hleft : (locals name).type = type)
    (htyped : ∀ n, Returns (meaning e env) n → n.Widens type)
    (hwritten : e.integer? = none →
      java (expression vars owner e (some (op.rightType type))) locals = meaning e env)
    {scope : String → TypeName}
    {t : IntegerType}
    (hnamed : IntegerType.ofName? (scope name) = some t) :
    java.performed? scope locals (.expression (change vars owner name op e type)) =
      some ((fun n => Function.update locals name (t.convert n)) <$> do
        let b ← meaning e env
        (op.result type (locals name) b).getM) := by
  obtain ⟨operand, hchanges, hcomputes⟩ :=
    operation?_change husual hreads hintegral hleft htyped hwritten
  rw [← hcomputes, Java.Meaning.performed?, hchanges]
  simp only [hnamed, map_eq_pure_bind, bind_assoc, Option.bind_eq_bind, Option.bind_some,
    Option.pure_def]

end Changes

section Assignments

variable {World : Type} {java : Java.Meaning World} {meaning : Symbolic.Meaning World}
variable {vars : Variables} {owner : String} {x : VarId} {op : BinaryOp} {e : Expr} {type : String}
variable {scope : String → TypeName} {env : VarId → Number} {locals : Locals}

/-- An assignment `x = x op e` in ints or in longs, and a state in which it is run. -/
structure Updates (java : Java.Meaning World) (meaning : Symbolic.Meaning World) (vars : Variables)
    (owner : String) (x : VarId) (op : BinaryOp) (e : Expr) (type : String)
    (scope : String → TypeName) (env : VarId → Number) (locals : Locals) : Prop where
  reads : java.ReadsIntegers
  usual : meaning.Usual
  integral : type = "I" ∨ type = "J"
  /-- The variable has been declared, with the type that declarations give it. -/
  declared : declares vars x = false
  inScope : scope (vars.name x) = (declaration vars x).type
  same : locals (vars.name x) = env x
  left : (env x).type = type
  right : ∀ n, Returns (meaning e env) n → n.Widens type
  /-- Any operand but a literal means what is written for it. -/
  written : e.integer? = none →
    java (expression vars owner e (some (op.rightType type))) locals = meaning e env

/-- The assignment gives a number of the type of the operation. -/
theorem Updates.type_of_returns
    (h : Updates java meaning vars owner x op e type scope env locals)
    {n : Number}
    (hreturns : Returns (meaning (.binary op (.var x) e type) env) n) :
    n.type = type := by
  rw [h.usual.binary op _ _ type env h.integral, h.usual.var, pure_bind] at hreturns
  obtain ⟨b, -, hlast⟩ := hreturns.of_bind
  exact type_result h.integral hlast.of_getM

/-- After its sign has been turned, the operand is still written as what it means. -/
theorem Updates.folded
    (h : Updates java meaning vars owner x op e type scope env locals) :
    (∀ n, Returns (meaning (foldNegative op e type).2 env) n → n.Widens type) ∧
      ((foldNegative op e type).2.integer? = none →
        java (expression vars owner (foldNegative op e type).2
          (some ((foldNegative op e type).1.rightType type))) locals =
            meaning (foldNegative op e type).2 env) := by
  unfold foldNegative
  split
  · next flipped e' hopposite hfound =>
      obtain ⟨n, hsame, -, hnegated⟩ := integer?_negatedLiteral? h.integral hfound
      refine ⟨fun m hreturns => ?_, fun hnone => absurd (hnegated.symm.trans hnone) (by simp)⟩
      dsimp only at hreturns
      rw [h.usual.integer e' n.neg env hnegated] at hreturns
      obtain ⟨w, hfound⟩ := hreturns
      obtain rfl := Option.some.inj hfound
      refine .inr ?_
      cases n <;> exact hsame
  · exact ⟨h.right, h.written⟩

/-- A call of a method that counts its calls. -/
def countCall : Computation Nat Number := do
  let calls ← get
  set (calls + 1)
  return .int (.ofNat 32 calls)

/-- This call as an expression. -/
def tickCall : Expr :=
  .staticCall ⟨"LP;", "tick", "()I"⟩ []

/-- Ints, longs and calls of one method that counts them. -/
def countedMeaning : Symbolic.Meaning Nat
  | .var v, env => pure (env v)
  | .const c, _ => (Expr.const c).integer?.getM
  | .binary op left right type, env => do
      let a ← countedMeaning left env
      let b ← countedMeaning right env
      (op.result type a b).getM
  | .staticCall .., _ => countCall
  | _, _ => failure

/-- Variables, literals and calls of one method that counts them. -/
def countedJava : Java.Meaning Nat
  | .literal text _, _ => (readInteger? text).getM
  | .localVar name, locals => pure (locals name)
  | .invocation .., _ => countCall
  | _, _ => failure

theorem usual_countedMeaning :
    countedMeaning.Usual where
  var _ _ := rfl
  integer e n env hinteger := by
    cases e with
    | const c => rw [countedMeaning, hinteger]; rfl
    | _ => cases hinteger
  binary _ _ _ _ _ _ := rfl

theorem readsIntegers_countedJava :
    countedJava.ReadsIntegers := fun _ _ _ _ hread => by
  rw [countedJava, hread]
  rfl

/-- One variable of a type, which has been declared. -/
def singleVariable (type : String) : Variables :=
  Variables.empty.push { kind := .register 0, type := some type, declared := true }

theorem updates_singleVariable
    (declared : String)
    {n : Number}
    (hleft : n.type = "I")
    (hright : ∀ b, Returns (countedMeaning e fun _ => n) b → b.type = "I")
    (hwritten : e.integer? = none →
      countedJava (expression (singleVariable declared) "LP;" e (some (op.rightType "I")))
        (fun _ => n) = countedMeaning e fun _ => n) :
    Updates countedJava countedMeaning (singleVariable declared) "LP;" 0 op e "I"
      (fun _ => (declaration (singleVariable declared) 0).type) (fun _ => n) fun _ => n where
  reads := readsIntegers_countedJava
  usual := usual_countedMeaning
  integral := .inl rfl
  declared := rfl
  inScope := rfl
  same := rfl
  left := hleft
  right b hreturns := .inl (hright b hreturns)
  written := hwritten

/-- **Assignments with an operator.**  What is written for `x = x op e` evaluates the same operands,
and the variable gets the same number converted to its own type.  If it has the type of the
operation, this is the number itself. -/
theorem assignment_computes
    (h : Updates java meaning vars owner x op e type scope env locals)
    {t : IntegerType}
    (hnamed : IntegerType.ofName? (declaration vars x).type = some t) :
    java.performed? scope locals (assignment vars owner x (.binary op (.var x) e type)).1 =
        some ((fun n => Function.update locals (vars.name x) (t.convert n)) <$>
          meaning (.binary op (.var x) e type) env) ∧
      (vars.type? x = some type →
        java.performed? scope locals (assignment vars owner x (.binary op (.var x) e type)).1 =
          some (Function.update locals (vars.name x) <$>
            meaning (.binary op (.var x) e type) env)) := by
  have hconverted : java.performed? scope locals
      (assignment vars owner x (.binary op (.var x) e type)).1 =
        some ((fun n => Function.update locals (vars.name x) (t.convert n)) <$>
          meaning (.binary op (.var x) e type) env) := by
    obtain ⟨htyped, hwritten⟩ := h.folded
    have hleft : (locals (vars.name x)).type = type := h.same ▸ h.left
    rw [assignment_eq_change h.declared,
      performed?_change h.usual h.reads h.integral hleft htyped hwritten (h.inScope ▸ hnamed),
      foldNegative_computes h.usual h.integral, h.same, h.usual.binary op _ _ type env h.integral,
      h.usual.var, pure_bind]
  refine ⟨hconverted, fun hwide => ?_⟩
  rw [hconverted, map_eq_pure_bind, map_eq_pure_bind]
  refine congrArg some (Java.bind_congr_of_returns fun n hreturns => ?_)
  have hdeclared : IntegerType.ofName? (.ofDescriptor type) = some t := by
    rwa [declaration, hwide, Option.getD_some] at hnamed
  rw [IntegerType.convert_of_type hdeclared (h.type_of_returns hreturns)]

/-- A call is made once, and the variable loses as much as it gives. -/
theorem assignment_computes_countedCall :
    countedJava.performed? (fun _ => (declaration (singleVariable "I") 0).type) (fun _ => .int 10)
        (assignment (singleVariable "I") "LP;" 0 (.binary .sub (.var 0) tickCall "I")).1 =
      some (Function.update (fun _ => .int 10) "v0" <$>
        countedMeaning (.binary .sub (.var 0) tickCall "I") fun _ => .int 10) :=
  (assignment_computes
    (updates_singleVariable "I" rfl (fun _ ⟨_, hfound⟩ => Option.some.inj hfound ▸ rfl) fun _ =>
      rfl)
    (t := .int) (by cbv)).2 rfl

/-- Adding 256 to a byte leaves it as it is, but the sum of the ints is another number. -/
theorem assignment_narrows :
    ¬ ∀ (java : Java.Meaning Nat) (meaning : Symbolic.Meaning Nat) (vars : Variables)
        (owner : String) (x : VarId) (op : BinaryOp) (e : Expr) (type : String)
        (scope : String → TypeName) (env : VarId → Number) (locals : Locals),
        Updates java meaning vars owner x op e type scope env locals →
        java.performed? scope locals (assignment vars owner x (.binary op (.var x) e type)).1 =
          some (Function.update locals (vars.name x) <$>
            meaning (.binary op (.var x) e type) env) := by
  intro hall
  have hsame := hall countedJava countedMeaning (singleVariable "B") "LP;" 0 .add
    (.const (.int 256)) "I"
    _ _ _ (updates_singleVariable "B" (n := .int (-56)) rfl
      (fun _ ⟨_, hfound⟩ => Option.some.inj hfound ▸ rfl) nofun)
  have hbyte : (declaration (singleVariable "B") 0).type = ⟨"byte", 0⟩ := by cbv
  rw [hbyte] at hsame
  -- The two runs are compared at the variable: -56 beside 200.
  have hvalues := congrArg (Option.map fun c => (c.run 0).1.map fun locals => locals "v0") hsame
  revert hvalues
  decide

end Assignments

end Emission
end DalvikDecompiler
