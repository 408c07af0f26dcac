import DalvikDecompiler.Proofs.Emission.Course
import DalvikDecompiler.Proofs.Emission.Grouping
import DalvikDecompiler.Proofs.FlowGraph.Words

/-!
# Names in Java code

**Input.** A flow graph and variables without line breaks in any name.

Writing spells names, numbers and quoted texts, and puts fixed words between
them.  So what is written has no line breaks but those of its layout.

**Results.**
* `unbroken_expression`, `unbroken_statement`: the Java forms of values and of
  instructions.
* `writes_walk`: all that is written of a graph.
* `unbroken_emit`: a whole method.
-/

namespace DalvikDecompiler

namespace Java.Expression

variable {left right : Expression} {op text : String}

theorem unbroken_leaf
    {e : Expression}
    (hleaf : e.parts = [])
    (h : ∀ t ∈ e.ownTexts, Text.Unbroken t) :
    e.Unbroken :=
  everywhere_of_leaf hleaf h

theorem unbroken_note
    (h : Text.Unbroken text) :
    (note text).Unbroken :=
  unbroken_leaf rfl (List.forall_mem_singleton.2 h)

theorem unbroken_binary
    (hop : Text.Unbroken op)
    (hleft : left.Unbroken)
    (hright : right.Unbroken) :
    (binary op left right).Unbroken :=
  unbroken_iff.2 ⟨List.forall_mem_singleton.2 hop, by simpa [parts] using ⟨hleft, hright⟩⟩

theorem unbroken_assignment
    {op : Option String}
    (hop : ∀ t ∈ op, Text.Unbroken t)
    (hleft : left.Unbroken)
    (hright : right.Unbroken) :
    (assignment left right op).Unbroken :=
  unbroken_iff.2 ⟨by simpa [ownTexts] using hop, by simpa [parts] using ⟨hleft, hright⟩⟩

theorem unbroken_unary
    (hop : Text.Unbroken op)
    (h : left.Unbroken)
    (after : Bool) :
    (unary op left after).Unbroken :=
  unbroken_iff.2 ⟨List.forall_mem_singleton.2 hop, List.forall_mem_singleton.2 h⟩

theorem unbroken_bare_iff
    {e : Expression} :
    e.bare.Unbroken ↔ e.Unbroken :=
  everywhere_bare_iff (fun _ => nofun) e

theorem unbroken_asOperand
    {e : Expression}
    (h : e.Unbroken) :
    e.asOperand.Unbroken :=
  (everywhere_asOperand_iff (fun _ => nofun) e).2 h

end Java.Expression

namespace Emission

open Symbolic (VarId Variables Constant Expr Instr Relation)
open Java (Expression TypeName)

section Values

variable {vars : Variables} {owner : String} {e : Expr}

theorem unbroken_floatText
    (f : Decimal.BinaryFormat)
    (bits : Nat)
    {owner suffix : String}
    (howner : Text.Unbroken owner)
    (hsuffix : Text.Unbroken suffix) :
    Text.Unbroken (floatText f bits owner suffix) := by
  unfold floatText
  split
  · exact Text.unbroken_append.2 ⟨howner, by decide⟩
  · next negative _ =>
      simp only [Text.unbroken_append, howner]
      cases negative <;> decide
  · exact Text.unbroken_append.2 ⟨Decimal.unbroken_spell f _, hsuffix⟩

theorem unbroken_intLiteral
    (value : Int32)
    (expected : String) :
    Text.Unbroken (intLiteral value expected).1 := by
  have hnumber : Text.Unbroken (toString value.toInt) := Text.unbroken_toString_int _
  unfold intLiteral
  split
  · dsimp only
    split <;> decide
  · split
    · exact unbroken_floatText _ _ (by decide) (by decide)
    · split
      · exact Text.unbroken_append.2 ⟨hnumber, by decide⟩
      · split
        · exact (by decide : Text.Unbroken "null")
        · exact hnumber

theorem unbroken_constantLiteral
    {c : Constant}
    (h : ∀ t ∈ (Expr.const c).ownWords, Text.Unbroken t)
    (expected : Option String) :
    Text.Unbroken (constantLiteral c expected).1 := by
  cases c with
  | string s => exact Text.unbroken_quoted s
  | type t =>
      have hname := TypeName.unbroken_ofDescriptor (h t List.mem_cons_self)
      exact Text.unbroken_append.2 ⟨TypeName.unbroken_spelling.2 hname, by decide⟩
  | int value => exact unbroken_intLiteral _ _
  | wide value =>
      unfold constantLiteral
      dsimp only
      split
      · exact unbroken_floatText _ _ (by decide) (by decide)
      · exact Text.unbroken_append.2 ⟨Text.unbroken_toString_int _, by decide⟩

theorem unbroken_literal
    {text : String}
    (h : Text.Unbroken text)
    (type : String) :
    (literal text type).Unbroken :=
  Expression.unbroken_leaf rfl (List.forall_mem_singleton.2 h)

theorem unbroken_constant
    {c : Constant}
    (h : ∀ t ∈ (Expr.const c).ownWords, Text.Unbroken t)
    (expected : Option String) :
    (constant c expected).Unbroken :=
  unbroken_literal (unbroken_constantLiteral h expected) _

theorem unbroken_localVar
    (vars : Variables)
    (v : VarId) :
    (Expression.localVar (vars.name v)).Unbroken :=
  Expression.unbroken_leaf rfl (List.forall_mem_singleton.2 (vars.unbroken_name v))

theorem unbroken_classExpression
    {type : String}
    (h : Text.Unbroken type) :
    (classExpression type).Unbroken :=
  Expression.unbroken_leaf rfl (List.forall_mem_singleton.2 (TypeName.unbroken_ofDescriptor h))

/-- The names beside the forms of the operands are classes of the expression, or fixed. -/
theorem unbroken_ownNames
    (hown : ∀ t ∈ e.ownWords, Text.Unbroken t) :
    ∀ name ∈ ownNames e, name.Unbroken := by
  have hsuper : (Expression.localVar "super").Unbroken :=
    Expression.unbroken_leaf rfl (by decide)
  have hcomparison (type : String) : Text.Unbroken (comparisonClass type) := by
    unfold comparisonClass
    split
    · decide
    · split <;> decide
  cases e with
  | compare type => exact List.forall_mem_singleton.2 (unbroken_classExpression (hcomparison type))
  | instanceOf type =>
      exact List.forall_mem_singleton.2 (unbroken_classExpression (hown type List.mem_cons_self))
  | staticFieldRead field =>
      exact List.forall_mem_singleton.2
        (unbroken_classExpression (hown field.owner List.mem_cons_self))
  | staticCall method =>
      exact List.forall_mem_singleton.2
        (unbroken_classExpression (hown method.owner List.mem_cons_self))
  | call => exact List.forall_mem_singleton.2 hsuper
  | _ => nofun

/-- The texts beside the parts are names, operators or literals. -/
theorem unbroken_ownTexts
    (h : e.Unbroken)
    (expected : Option String) :
    ∀ t ∈ (expression vars owner e expected).bare.ownTexts, Text.Unbroken t := by
  obtain ⟨hown, hchildren⟩ := Expr.unbroken_iff.1 h
  have hsingle {t : String} (ht : Text.Unbroken t) : ∀ t' ∈ [t], Text.Unbroken t' :=
    List.forall_mem_singleton.2 ht
  have hnamed (type : String) (hmem : type ∈ e.ownWords) :
      Text.Unbroken (TypeName.ofDescriptor type).name :=
    TypeName.unbroken_ofDescriptor (hown type hmem)
  cases e with
  | var v => exact hsingle (vars.unbroken_name v)
  | const c => exact hsingle (unbroken_constantLiteral hown expected)
  | unary op => exact hsingle op.unbroken_symbol
  | binary op => exact hsingle op.unbroken_symbol
  | compare | instanceOf | arrayLength => exact hsingle (by decide)
  | cast type | checkCast type => exact hsingle (hnamed type List.mem_cons_self)
  | newInstance type =>
      have hname := TypeName.unbroken_spelling.2 (hnamed type List.mem_cons_self)
      exact hsingle (Text.unbroken_append.2 ⟨by decide, hname⟩)
  | newArray type =>
      exact hsingle (TypeName.unbroken_ofDescriptor
        (Descriptor.unbroken_elementOrSelf (hown type List.mem_cons_self)))
  | filledArray type => exact hsingle (hnamed type List.mem_cons_self)
  | fieldRead _ field | staticFieldRead field =>
      exact hsingle (hown field.name (by simp [Expr.ownWords, Bytecode.FieldRef.words]))
  | arrayRead => exact fun _ hmem => absurd hmem List.not_mem_nil
  | staticCall method =>
      exact hsingle (hown method.name (by simp [Expr.ownWords, Bytecode.MethodRef.words]))
  | call dispatch method receiver args =>
      have hname := hown method.name (by simp [Expr.ownWords, Bytecode.MethodRef.words])
      unfold expression callExpression
      dsimp only
      split
      · split
        · refine hsingle ?_
          split <;> decide
        · split
          · next type _ =>
              have hmade := (Expr.unbroken_iff.1
                (hchildren (.newInstance type) List.mem_cons_self)).1
              exact hsingle (TypeName.unbroken_ofDescriptor (hmade type List.mem_cons_self))
          · exact hsingle hname
      · exact hsingle hname

/-- **The Java form of a value has no breaks.** -/
theorem unbroken_expression
    (h : e.Unbroken)
    (expected : Option String) :
    (expression vars owner e expected).Unbroken := by
  induction e using Expr.children_induction generalizing expected with
  | step e ih =>
      obtain ⟨hown, hchildren⟩ := Expr.unbroken_iff.1 h
      refine Expression.unbroken_bare_iff.1
        (Expression.unbroken_iff.2 ⟨unbroken_ownTexts h expected, fun part hmem => ?_⟩)
      rcases mem_parts_expression vars owner hmem with ⟨c, hchild, expected, rfl⟩ | hname
      · exact ih c hchild (hchildren c hchild) expected
      · exact unbroken_ownNames hown part hname

theorem unbroken_zeroTest
    {value : Expression}
    (h : value.Unbroken)
    (relation : Relation)
    (type : Option String) :
    (zeroTest relation value type).Unbroken := by
  have hcompared {text type : String} (ht : Text.Unbroken text) :
      (Expression.binary relation.symbol value (literal text type)).Unbroken :=
    Expression.unbroken_binary relation.unbroken_symbol h (unbroken_literal ht type)
  have hzero : Text.Unbroken "0" := by decide
  unfold zeroTest
  split
  · split
    · exact Expression.unbroken_unary (by decide) h false
    · exact h
    · exact hcompared hzero
  · split
    · exact hcompared (by decide)
    · exact hcompared hzero
  · exact hcompared hzero

/-- The Java form of a condition has no breaks. -/
theorem unbroken_condition
    {ins : Instr}
    (h : ins.Unbroken)
    (negate : Bool) :
    (condition vars owner ins negate).Unbroken := by
  have hoperand {e : Expr} (hmem : e ∈ ins.operands) (expected : Option String) :
      (expression vars owner e expected).Unbroken :=
    unbroken_expression (h.operands e hmem) expected
  unfold condition
  split
  · next relation left right =>
      exact Expression.unbroken_binary (relationFor relation negate).unbroken_symbol
        (hoperand (by simp [Instr.operands]) _) (hoperand (by simp [Instr.operands]) _)
  · next relation type left right =>
      have hcompared := (Expr.unbroken_iff.1 (h.operands _ List.mem_cons_self)).2
      exact Expression.unbroken_binary (relationFor relation negate).unbroken_symbol
        (unbroken_expression (hcompared left (by simp [Expr.children])) _)
        (unbroken_expression (hcompared right (by simp [Expr.children])) _)
  · exact unbroken_zeroTest (hoperand (by simp [Instr.operands]) _) _ _
  · exact Expression.unbroken_note (h.dumpText vars)

end Values

/-! ## Statements -/

section Statements

open Java (Statement VarDecl)

variable {vars : Variables} {owner : String} {value : Expr} {ins : Instr}

theorem unbroken_objectDescriptor :
    Text.Unbroken Bytecode.objectDescriptor := by
  decide

theorem unbroken_getD
    {type : Option String}
    {other : String}
    (h : ∀ t ∈ type, Text.Unbroken t)
    (hother : Text.Unbroken other) :
    Text.Unbroken (type.getD other) := by
  cases type with
  | none => exact hother
  | some t => exact h t rfl

theorem unbroken_declaration
    (h : vars.Unbroken)
    (v : VarId) :
    (declaration vars v).Unbroken where
  type := TypeName.unbroken_ofDescriptor (unbroken_getD (h v) unbroken_objectDescriptor)
  name := vars.unbroken_name v

theorem unbroken_foldNegative
    {right : Expr}
    (h : right.Unbroken)
    (op : Symbolic.BinaryOp)
    (type : String) :
    (foldNegative op right type).2.Unbroken := by
  have hnegated : ∀ e ∈ negatedLiteral? right type, e.Unbroken := by
    unfold negatedLiteral?
    split
    · split
      · rintro e ⟨⟩
        exact Expr.unbroken_iff.2 ⟨nofun, nofun⟩
      · nofun
    · split
      · rintro e ⟨⟩
        exact Expr.unbroken_iff.2 ⟨nofun, nofun⟩
      · nofun
    · nofun
  unfold foldNegative
  split
  · next hfound => exact hnegated _ hfound
  · exact h

/-- An update of a variable has no operands but those of the value. -/
theorem unbroken_update
    (h : value.Unbroken)
    {target : VarId}
    {op : Symbolic.BinaryOp}
    {right : Expr}
    {type : String}
    (hfound : update? target value = some (.compound op right type)) :
    right.Unbroken := by
  unfold update? at hfound
  split at hfound
  · next op' left right' type' =>
      have hchildren := (Expr.unbroken_iff.1 h).2
      split at hfound
      · dsimp only at hfound
        split at hfound
        · cases hfound
        · cases hfound
          exact unbroken_foldNegative (hchildren right' (by simp [Expr.children])) op' type'
      · cases hfound
  · cases hfound

theorem unbroken_assignmentOf
    (hv : vars.Unbroken)
    (h : value.Unbroken)
    (target : VarId) :
    (assignment vars owner target value).1.Unbroken ∧
      (assignment vars owner target value).2.Unbroken := by
  have hname := unbroken_localVar vars target
  unfold assignment
  split
  · exact ⟨⟨unbroken_declaration hv target, fun e hsame =>
      Option.some.inj hsame ▸ unbroken_expression h _⟩, hv.markDeclared target⟩
  · refine ⟨?_, hv⟩
    dsimp only
    split
    · next op _ =>
        exact Expression.unbroken_unary
          (Text.unbroken_append.2 ⟨op.unbroken_symbol, op.unbroken_symbol⟩) hname true
    · next op right type hfound =>
        exact Expression.unbroken_assignment
          (fun t hsame => Option.some.inj hsame ▸ op.unbroken_symbol) hname
          (unbroken_expression (unbroken_update h hfound) _)
    · exact Expression.unbroken_assignment nofun hname (unbroken_expression h _)

theorem unbroken_exceptionStatement
    (hv : vars.Unbroken)
    (v : VarId) :
    (exceptionStatement vars v).1.Unbroken ∧ (exceptionStatement vars v).2.Unbroken := by
  have hcaught : (Expression.note "move-exception").Unbroken :=
    Expression.unbroken_note (by decide)
  unfold exceptionStatement
  dsimp only
  split
  · exact ⟨⟨unbroken_declaration hv v, fun e hsame => Option.some.inj hsame ▸ hcaught⟩,
      hv.markDeclared v⟩
  · exact ⟨Expression.unbroken_assignment nofun (unbroken_localVar vars v) hcaught, hv⟩

/-- A statement without breaks, if there is one, and variables without breaks. -/
def Stated (result : Option Statement × Variables) : Prop :=
  (∀ st ∈ result.1, st.Unbroken) ∧ result.2.Unbroken

theorem stated_none
    (hv : vars.Unbroken) :
    Stated (none, vars) :=
  ⟨nofun, hv⟩

theorem stated_some
    {st : Statement}
    (h : st.Unbroken)
    (hv : vars.Unbroken) :
    Stated (some st, vars) :=
  ⟨fun _ hsame => Option.some.inj hsame ▸ h, hv⟩

theorem unbroken_field
    {field : Bytecode.FieldRef}
    {object : Expression}
    (hfield : ∀ t ∈ field.words, Text.Unbroken t)
    (h : object.Unbroken)
    (member : Java.Member) :
    (Expression.fieldAccess (some member) field.name object).Unbroken :=
  Expression.unbroken_iff.2
    ⟨List.forall_mem_singleton.2 (hfield _ (by simp [Bytecode.FieldRef.words])),
      List.forall_mem_singleton.2 h⟩

theorem unbroken_placeholder
    {label : String}
    {arg : Expression}
    (hlabel : Text.Unbroken label)
    (h : arg.Unbroken) :
    (Expression.placeholder label [arg]).Unbroken :=
  Expression.unbroken_iff.2 ⟨List.forall_mem_singleton.2 hlabel, List.forall_mem_singleton.2 h⟩

theorem unbroken_initializer
    (cs : List Constant)
    (hcs : ∀ c ∈ cs, ∀ t ∈ (Expr.const c).ownWords, Text.Unbroken t)
    (expected : Option String) :
    (Expression.arrayInitializer none (cs.map fun c => constant c expected)).Unbroken :=
  Expression.unbroken_iff.2
    ⟨nofun, List.forall_mem_map.2 fun c hmem => unbroken_constant (hcs c hmem) expected⟩

theorem ownWords_dataConstants
    {width : UInt16}
    {data : List UInt8} :
    ∀ c ∈ dataConstants width data, ∀ t ∈ (Expr.const c).ownWords, Text.Unbroken t := by
  refine List.forall_mem_map.2 fun bytes _ => ?_
  unfold constantOfBytes
  dsimp only
  split <;> nofun

/-- **The statement of an instruction has no breaks**, and it brings none among the variables. -/
theorem unbroken_statement
    (w : Writing)
    (hv : vars.Unbroken)
    (h : ins.Unbroken) :
    Stated (statement w vars ins) := by
  have hjava {e : Expr} (hmem : e ∈ ins.operands) (expected : Option String) :
      (expression vars w.method.owner e expected).Unbroken :=
    unbroken_expression (h.operands e hmem) expected
  have hassigned {e : Expr} (hmem : e ∈ ins.operands) (target : VarId) :
      Stated (some (assignment vars w.method.owner target e).1,
        (assignment vars w.method.owner target e).2) := by
    obtain ⟨hmade, hleft⟩ := unbroken_assignmentOf hv (h.operands e hmem) target
    exact stated_some hmade hleft
  have hplain {e : Expression} (he : e.Unbroken) : Stated (some (.expression e), vars) :=
    stated_some he hv
  have hassigns {target value : Expression} (ht : target.Unbroken) (he : value.Unbroken) :
      Stated (some (.expression (.assignment target value none)), vars) :=
    hplain (Expression.unbroken_assignment (fun _ hop => by cases hop) ht he)
  cases ins with
  | nop | switch => exact stated_none hv
  | ret value =>
      refine stated_some (fun e hmade => ?_) hv
      obtain ⟨value, rfl, rfl⟩ := Option.map_eq_some_iff.1 hmade
      exact hjava List.mem_cons_self _
  | throw value => exact stated_some (hjava List.mem_cons_self _) hv
  | move target value =>
      unfold statement
      dsimp only
      split
      · exact stated_none hv
      · exact hassigned List.mem_cons_self target
  | moveResult target value => exact hassigned List.mem_cons_self target
  | assign target value =>
      cases target with
      | some target => exact hassigned List.mem_cons_self target
      | none =>
          unfold statement
          dsimp only
          split
          · exact stated_none hv
          · exact hplain (hjava List.mem_cons_self _)
  | ifCompare | ifCompareZero => exact hplain (unbroken_condition h false)
  | fillArrayData array width data =>
      exact hassigns (hjava List.mem_cons_self _) (unbroken_initializer _ ownWords_dataConstants _)
  | fieldWrite object field value =>
      exact hassigns (unbroken_field h.own (hjava List.mem_cons_self _) _)
        (hjava (by simp [Instr.operands]) _)
  | staticFieldWrite field value =>
      exact hassigns
        (unbroken_field h.own (unbroken_classExpression (h.own _ List.mem_cons_self)) _)
        (hjava List.mem_cons_self _)
  | arrayWrite array index value =>
      have helement : (Expression.arrayAccess (expression vars w.method.owner array none)
          (expression vars w.method.owner index (some "I"))).Unbroken :=
        Expression.unbroken_iff.2 ⟨fun _ hmem => absurd hmem List.not_mem_nil, by
          simpa [Expression.parts] using
            ⟨hjava (e := array) List.mem_cons_self none,
              hjava (e := index) (by simp [Instr.operands]) (some "I")⟩⟩
      exact hassigns helement (hjava (by simp [Instr.operands]) _)
  | monitorEnter object | monitorExit object =>
      exact hplain (unbroken_placeholder (by decide) (hjava List.mem_cons_self _))
  | moveException v =>
      obtain ⟨hmade, hleft⟩ := unbroken_exceptionStatement hv v
      exact stated_some hmade hleft

end Statements

/-! ## Bodies -/

open Java (Block Statement SwitchArm blockUnbroken elseUnbroken armsUnbroken clausesUnbroken)

/-- What is written has a property, and no name among the variables has breaks then. -/
def Writes {α : Type} (m : EmitM α) (post : α → Prop) : Prop :=
  ∀ s, s.vars.Unbroken → Ensures m s fun a s' => s'.vars.Unbroken ∧ post a

namespace Writes

variable {α β : Type}
variable {m : EmitM α} {f : α → EmitM β}
variable {post : α → Prop} {post' : β → Prop}

theorem pure
    {a : α}
    (h : post a) :
    Writes (Pure.pure a) post :=
  fun _ hs => ⟨hs, h⟩

theorem bind
    (h : Writes m post)
    (hf : ∀ a, post a → Writes (f a) post') :
    Writes (m >>= f) post' :=
  fun s hs => (h s hs).bind fun a s' held => hf a held.2 s' held.1

theorem get_bind
    {f : Progress → EmitM β}
    (hf : ∀ s, s.vars.Unbroken → Writes (f s) post') :
    Writes (get >>= f) post' :=
  fun s hs => hf s hs s hs

theorem modify
    {change : Progress → Progress}
    (h : ∀ s, s.vars.Unbroken → (change s).vars.Unbroken) :
    Writes (modify change : EmitM Unit) fun _ => True :=
  fun s hs => ⟨h s hs, trivial⟩

end Writes

section Own

variable (src : Source)

theorem writes_mention
    (types : List String) :
    Writes (Source.mention types) fun _ => True :=
  .modify fun _ hs => hs

theorem writes_markVisited
    (id : NodeId) :
    Writes (Source.markVisited id) fun _ => True :=
  .modify fun _ hs => hs

theorem writes_requireSlot
    (id : NodeId) :
    Writes (src.requireSlot id) fun _ => True :=
  .modify fun _ hs => hs

theorem writes_instruction
    {ins : Instr}
    (h : ins.Unbroken) :
    Writes (src.instruction ins) blockUnbroken := by
  refine .get_bind fun s hs => ?_
  obtain ⟨hwritten, hleft⟩ := unbroken_statement src.writing hs h
  have hblock : blockUnbroken (statement src.writing s.vars ins).1.toList := by
    cases hmade : (statement src.writing s.vars ins).1 with
    | none => trivial
    | some st => exact ⟨hwritten st hmade, trivial⟩
  exact (writes_mention _).bind fun _ _ =>
    Writes.bind (.modify fun _ _ => hleft) fun _ _ => .pure hblock

theorem writes_instructions
    {code : List Instr}
    (h : ∀ ins ∈ code, ins.Unbroken) :
    Writes (src.instructions code) blockUnbroken := by
  induction code with
  | nil => exact .pure trivial
  | cons ins code ih =>
      obtain ⟨hins, hcode⟩ := List.forall_mem_cons.1 h
      exact (writes_instruction src hins).bind fun _ hfirst => (ih hcode).bind fun _ hmore =>
        .pure (Java.blockUnbroken_append.2 ⟨hfirst, hmore⟩)

theorem writes_declareVar
    (v : VarId) :
    Writes (Source.declareVar v) blockUnbroken := by
  refine .get_bind fun s hs => ?_
  dsimp only
  split
  · exact .pure trivial
  · refine (writes_mention _).bind fun _ _ => ?_
    split
    · exact Writes.bind (.modify fun _ _ => hs.markDeclared v) fun _ _ =>
        .pure ⟨⟨unbroken_declaration hs v, nofun⟩, trivial⟩
    · exact .pure trivial

theorem writes_declareVars
    (vs : List VarId) :
    Writes (Source.declareVars vs) blockUnbroken := by
  induction vs with
  | nil => exact .pure trivial
  | cons v vs ih =>
      exact (writes_declareVar v).bind fun _ hfirst => ih.bind fun _ hmore =>
        .pure (Java.blockUnbroken_append.2 ⟨hfirst, hmore⟩)

theorem writes_selectorOf
    {ins : Instr}
    (h : ins.Unbroken) :
    Writes (src.selectorOf ins) Expression.Unbroken := by
  refine .get_bind fun s _ => ?_
  split
  · exact (writes_mention _).bind fun _ _ =>
      .pure (unbroken_expression (h.operands _ List.mem_cons_self) _)
  · exact .pure (Expression.unbroken_note (h.dumpText s.vars))

variable (hg : src.graph.Unbroken)
include hg

theorem unbroken_conditionWithin
    (vars : Variables)
    (depth : Nat)
    (id : NodeId)
    (negate : Bool) :
    (src.conditionWithin vars depth id negate).Unbroken := by
  have hempty : (Expression.note "empty condition").Unbroken :=
    Expression.unbroken_note (by decide)
  induction depth generalizing id negate with
  | zero => exact hempty
  | succ depth ih =>
      unfold Source.conditionWithin
      split
      · refine Expression.unbroken_binary ?_ (Expression.unbroken_asOperand (ih _ _))
          (Expression.unbroken_asOperand (ih _ _))
        split <;> decide
      · split
        · next ins hlast =>
            exact unbroken_condition ((hg.node id).ins ins (List.mem_of_getLast? hlast)) negate
        · exact hempty

theorem writes_conditionOf
    (id : NodeId)
    (negate : Bool) :
    Writes (src.conditionOf id negate) Expression.Unbroken :=
  .get_bind fun s _ => (writes_mention _).bind fun _ _ =>
    .pure (unbroken_conditionWithin src hg s.vars _ id negate)

theorem writes_latchCondition
    (id : NodeId)
    (latch : Option NodeId) :
    Writes (src.latchCondition id latch) Expression.Unbroken := by
  unfold Source.latchCondition
  split
  · exact (writes_markVisited _).bind fun _ _ => writes_conditionOf src hg _ _
  · exact (writes_mention _).bind fun _ _ => .pure (unbroken_literal (by decide) _)

end Own

/-! What is dropped at the end of a loop body brings no breaks in. -/

theorem elseUnbroken_unlessEmpty
    {b : Block}
    (h : blockUnbroken b) :
    elseUnbroken (unlessEmpty b) := by
  cases b with
  | nil => trivial
  | cons => exact h

mutual

theorem unbroken_dropFinalContinue :
    ∀ block : List Statement, blockUnbroken block → blockUnbroken (dropFinalContinue block)
  | [], _ => trivial
  | [s], h => unbroken_dropContinue s h.1
  | s :: t :: rest, h => by
      rw [dropFinalContinue.eq_3 s (t :: rest) (List.cons_ne_nil t rest)]
      exact ⟨h.1, unbroken_dropFinalContinue (t :: rest) h.2⟩

theorem unbroken_dropContinue :
    ∀ s : Statement, s.Unbroken → blockUnbroken (dropContinue s)
  | .jump .continue _, _ => trivial
  | .jump .break _, h => ⟨h, trivial⟩
  | .jump .goto _, h => ⟨h, trivial⟩
  | .ifThen _ thenBlock elseBlock, ⟨hc, ht, he⟩ =>
      ⟨⟨hc, unbroken_dropFinalContinue thenBlock ht, unbroken_dropElseContinue elseBlock he⟩,
        trivial⟩
  | .block _, h => ⟨h, trivial⟩
  | .whileLoop .., h => ⟨h, trivial⟩
  | .doLoop .., h => ⟨h, trivial⟩
  | .switch .., h => ⟨h, trivial⟩
  | .tryCatch .., h => ⟨h, trivial⟩
  | .ret _, h => ⟨h, trivial⟩
  | .throw _, h => ⟨h, trivial⟩
  | .expression _, h => ⟨h, trivial⟩
  | .declaration .., h => ⟨h, trivial⟩
  | .label _, h => ⟨h, trivial⟩

theorem unbroken_dropElseContinue :
    ∀ elseBlock : Option (List Statement), elseUnbroken elseBlock →
      elseUnbroken (dropElseContinue elseBlock)
  | none, _ => trivial
  | some block, h => elseUnbroken_unlessEmpty (unbroken_dropFinalContinue block h)

end

section Walks

variable {src : Source} (hg : src.graph.Unbroken)
variable {visit : Walk} (hv : ∀ ctx id, Writes (visit ctx id) blockUnbroken)
include hg hv

omit hg in
theorem writes_writeNext
    (ctx : Context)
    (next : Option NodeId) :
    Writes (Source.writeNext visit ctx next) blockUnbroken := by
  cases next with
  | none => exact .pure trivial
  | some id => exact hv ctx id

section Loops

variable {head : Context → EmitM Block} (hh : ∀ ctx, Writes (head ctx) blockUnbroken)

theorem writes_preTestLoop
    (ctx : Context)
    (id : NodeId)
    (b : BranchTargets) :
    Writes (src.preTestLoop visit ctx id b) Statement.Unbroken :=
  (writes_conditionOf src hg _ _).bind fun _ hcondition => (hv _ _).bind fun body hwritten =>
    .pure ⟨hcondition, unbroken_dropFinalContinue body hwritten⟩

omit hv in
include hh in
theorem writes_postTestLoop
    (ctx : Context)
    (id : NodeId) :
    Writes (src.postTestLoop head ctx id) Statement.Unbroken := by
  have hlatched : Writes ((src.node id).latch.forM src.requireSlot) fun _ => True := by
    cases (src.node id).latch with
    | none => exact .pure trivial
    | some latch => exact writes_requireSlot src latch
  exact hlatched.bind fun _ _ => (hh _).bind fun body hwritten =>
    (writes_latchCondition src hg _ _).bind fun _ hcondition =>
      .pure ⟨hcondition, unbroken_dropFinalContinue body hwritten⟩

omit hg in
include hh in
theorem writes_endlessLoop
    (ctx : Context)
    (id : NodeId) :
    Writes (src.endlessLoop visit head ctx id) Statement.Unbroken :=
  (hh _).bind fun _ hfirst => .get_bind fun _ _ => (writes_writeNext hv _ _).bind fun _ hlast =>
    (writes_mention _).bind fun _ _ => .pure ⟨unbroken_literal (by decide) _,
      unbroken_dropFinalContinue _ (Java.blockUnbroken_append.2 ⟨hfirst, hlast⟩)⟩

include hh in
theorem writes_writeLoop
    (ctx : Context)
    (id : NodeId)
    (inner : NodeKind)
    (type : LoopTest) :
    Writes (src.writeLoop visit head ctx id inner type) blockUnbroken := by
  unfold Source.writeLoop
  have hrest (loop : Statement) (h : loop.Unbroken) :
      Writes (do
        let rest ← Source.writeNext visit ctx (src.node id).loopFollow
        return loop :: rest) blockUnbroken :=
    (writes_writeNext hv _ _).bind fun _ hrest => .pure ⟨h, hrest⟩
  split
  · exact (writes_preTestLoop hg hv _ _ _).bind hrest
  · exact (writes_postTestLoop hg hh _ _).bind hrest
  · exact (writes_endlessLoop hv hh _ _).bind hrest

end Loops

theorem writes_breakingBranch
    (ctx : Context)
    (id : NodeId)
    (negate : Bool)
    (other : NodeId) :
    Writes (src.breakingBranch visit ctx id negate other) blockUnbroken :=
  (writes_conditionOf src hg _ _).bind fun _ hcondition => (hv _ _).bind fun _ hwritten =>
    .pure ⟨⟨hcondition, ⟨nofun, trivial⟩, elseUnbroken_unlessEmpty hwritten⟩, trivial⟩

theorem writes_continuingBranch
    (ctx : Context)
    (id : NodeId)
    (negate : Bool)
    (other : NodeId) :
    Writes (src.continuingBranch visit ctx id negate other) blockUnbroken :=
  (writes_conditionOf src hg _ _).bind fun _ hcondition => (hv _ _).bind fun _ hrest =>
    .pure ⟨⟨hcondition, ⟨nofun, trivial⟩, trivial⟩, hrest⟩

omit hg hv in
theorem writes_isReversed
    (id follow : NodeId)
    (b : BranchTargets) :
    Writes (src.isReversed id follow b) fun _ => True := by
  refine .get_bind fun s _ => ?_
  split
  · exact .pure trivial
  · exact (writes_requireSlot src _).bind fun _ _ => .pure trivial

theorem writes_joinedBranch
    (ctx : Context)
    (id follow : NodeId)
    (b : BranchTargets) :
    Writes (src.joinedBranch visit ctx id follow b) blockUnbroken := by
  refine (writes_isReversed _ _ _).bind fun reversed _ => ?_
  refine (writes_conditionOf src hg _ _).bind fun _ hcondition =>
    (hv _ _).bind fun _ hthenBlock => ?_
  have hnothing : Writes (pure []) blockUnbroken := .pure trivial
  dsimp only
  split
  · exact hnothing.bind fun _ helseBlock => (hv _ _).bind fun _ hrest =>
      .pure ⟨⟨hcondition, hthenBlock, elseUnbroken_unlessEmpty helseBlock⟩, hrest⟩
  · exact (hv _ _).bind fun _ helseBlock => (hv _ _).bind fun _ hrest =>
      .pure ⟨⟨hcondition, hthenBlock, elseUnbroken_unlessEmpty helseBlock⟩, hrest⟩

theorem writes_openBranch
    (ctx : Context)
    (id : NodeId)
    (b : BranchTargets) :
    Writes (src.openBranch visit ctx id b) blockUnbroken :=
  (writes_conditionOf src hg _ _).bind fun _ hcondition => (hv _ _).bind fun _ hthenBlock =>
    (hv _ _).bind fun _ helseBlock =>
      .pure ⟨⟨hcondition, hthenBlock, elseUnbroken_unlessEmpty helseBlock⟩, trivial⟩

theorem writes_writeBranch
    (ctx : Context)
    (id : NodeId)
    (b : BranchTargets) :
    Writes (src.writeBranch visit ctx id b) blockUnbroken := by
  unfold Source.writeBranch
  dsimp only
  split_ifs
  · exact (writes_conditionOf src hg _ _).bind fun _ hcondition => (hv _ _).bind fun _ hrest =>
      .pure ⟨hcondition, hrest⟩
  · exact writes_breakingBranch hg hv _ _ _ _
  · exact writes_breakingBranch hg hv _ _ _ _
  · exact writes_continuingBranch hg hv _ _ _ _
  · exact writes_continuingBranch hg hv _ _ _ _
  · split
    · exact writes_joinedBranch hg hv _ _ _ _
    · exact writes_openBranch hg hv _ _ _

theorem writes_writeCond
    (ctx : Context)
    (id : NodeId) :
    Writes (src.writeCond visit ctx id) blockUnbroken := by
  unfold Source.writeCond
  split
  · exact .pure trivial
  · exact writes_writeBranch hg hv _ _ _

omit hg in
theorem writes_armBody
    (ctx : Context)
    (target : NodeId) :
    Writes (Source.armBody visit ctx target) blockUnbroken := by
  refine (hv _ _).bind fun body hwritten => .get_bind fun s _ => ?_
  refine Writes.bind (.modify fun _ hs => hs) fun _ _ => ?_
  split
  · exact .pure (Java.blockUnbroken_append.2 ⟨hwritten, nofun, trivial⟩)
  · exact .pure hwritten

omit hg in
theorem writes_writeArms
    (ctx : Context)
    (cases : SwitchTable)
    (targets : List NodeId)
    (fallback : Option NodeId) :
    Writes (Source.writeArms visit ctx cases targets fallback) fun result =>
      armsUnbroken result.1 := by
  induction targets generalizing fallback with
  | nil => exact .pure trivial
  | cons target targets ih =>
      refine .get_bind fun s _ => ?_
      split
      · exact ih _
      · exact Writes.bind (.modify fun _ hs => hs) fun _ _ =>
          (writes_armBody hv _ _).bind fun _ hbody => (ih _).bind fun _ harms =>
            .pure ⟨hbody, harms⟩

omit hg in
theorem writes_defaultArm
    (ctx : Context)
    (target : Option NodeId) :
    Writes (Source.defaultArm visit ctx target) armsUnbroken := by
  cases target with
  | none => exact .pure trivial
  | some target => exact (hv _ _).bind fun _ hbody => .pure ⟨hbody, trivial⟩

theorem writes_writeSwitch
    (ctx : Context)
    (id : NodeId)
    (cases : SwitchTable) :
    Writes (src.writeSwitch visit ctx id cases) blockUnbroken := by
  unfold Source.writeSwitch
  split
  · exact .pure trivial
  · next last hfound =>
      have hcode := (hg.node id).ins
      have hahead := fun ins hmem => hcode ins (List.dropLast_subset _ hmem)
      exact (writes_instructions src hahead).bind fun _ hbefore =>
        (writes_selectorOf src (hcode last (List.mem_of_getLast? hfound))).bind fun _ hselector =>
          (writes_writeArms hv _ _ _ _).bind fun _ harms =>
            Writes.bind (.modify fun _ hs => hs) fun _ _ =>
              (writes_defaultArm hv _ _).bind fun _ hmore => (writes_writeNext hv _ _).bind
                fun _ hrest => .pure (Java.blockUnbroken_append.2
                  ⟨hbefore, ⟨hselector, Java.armsUnbroken_append.2 ⟨harms, hmore⟩⟩, hrest⟩)

theorem writes_writeStraight
    (ctx : Context)
    (id : NodeId) :
    Writes (src.writeStraight visit ctx id) blockUnbroken := by
  refine (writes_instructions src (hg.node id).ins).bind fun own hwritten => ?_
  split
  · split
    · exact .pure (Java.blockUnbroken_append.2 ⟨hwritten, nofun, trivial⟩)
    · refine .get_bind fun s _ => ?_
      split
      · exact Writes.bind (.modify fun _ hs => hs) fun _ _ => .pure hwritten
      · exact (hv _ _).bind fun _ hrest => .pure (Java.blockUnbroken_append.2 ⟨hwritten, hrest⟩)
  · exact .pure hwritten

omit hg hv in
theorem writes_catchDeclaration
    (binding : Option VarId)
    {type : Option String}
    (ht : ∀ t ∈ type, Text.Unbroken t) :
    Writes (Source.catchDeclaration binding type) Java.VarDecl.Unbroken := by
  refine .get_bind fun s hs => ?_
  have hknown : Text.Unbroken (type.getD "Ljava/lang/Throwable;") :=
    unbroken_getD ht (by decide)
  dsimp only
  split
  · next v =>
      have hcaught := unbroken_getD (hs v) hknown
      exact Writes.bind (.modify fun _ hs => hs.markDeclared v) fun _ _ =>
        (writes_mention _).bind fun _ _ =>
          .pure ⟨TypeName.unbroken_ofDescriptor hcaught, s.vars.unbroken_name v⟩
  · exact (writes_mention _).bind fun _ _ =>
      .pure ⟨TypeName.unbroken_ofDescriptor hknown, (by decide : Text.Unbroken "_")⟩

theorem writes_writeHandlers
    (ctx : Context)
    (handlers : List NodeId) :
    Writes (src.writeHandlers visit ctx handlers) clausesUnbroken := by
  induction handlers with
  | nil => exact .pure trivial
  | cons id handlers ih =>
      refine (writes_markVisited _).bind fun _ _ => ?_
      split
      · next start binding type hkind =>
          have hcaught : ∀ t ∈ type, Text.Unbroken t := fun t hmem =>
            (hg.node id).kind t (by rw [show (src.graph.node id).kind = _ from hkind]; exact hmem)
          exact (writes_catchDeclaration _ hcaught).bind fun _ hdecl => (hv _ _).bind fun _ hbody =>
            ih.bind fun _ hmore => .pure ⟨⟨hdecl, hbody⟩, hmore⟩
      · exact ih

theorem writes_writeRegion
    (ctx : Context)
    (start : NodeId)
    (catches : List NodeId)
    (follow : Option NodeId) :
    Writes (src.writeRegion visit ctx start catches follow) blockUnbroken :=
  (hv _ _).bind fun _ hbody => (writes_writeHandlers hg hv _ _).bind fun _ hclauses =>
    (writes_writeNext hv _ _).bind fun _ hrest => .pure ⟨⟨hbody, hclauses⟩, hrest⟩

theorem writes_writeKind
    (id : NodeId)
    (kind : NodeKind)
    (ctx : Context) :
    Writes (src.writeKind visit id kind ctx) blockUnbroken := by
  induction kind generalizing ctx with
  | loop inner type ih => exact writes_writeLoop hg hv ih _ _ _ _
  | conditional | shortCircuit => exact writes_writeCond hg hv _ _
  | switch => exact writes_writeSwitch hg hv _ _ _
  | statement => exact writes_writeStraight hg hv _ _
  | ret | throw => exact writes_instructions src (hg.node id).ins
  | tryBlock => exact writes_writeRegion hg hv _ _ _ _
  | catchBlock => exact hv _ _

omit hg hv in
theorem unbroken_labelOf
    (src : Source)
    (id : NodeId) :
    Text.Unbroken (src.labelOf id) :=
  Text.unbroken_append.2 ⟨by decide, Text.unbroken_toString_nat _⟩

theorem writes_writeNode
    (ctx : Context)
    (id : NodeId) :
    Writes (src.writeNode visit ctx id) blockUnbroken := by
  have hlabel : blockUnbroken
      (if src.labels.contains id then [Statement.label (src.labelOf id)] else []) := by
    split
    · exact ⟨unbroken_labelOf src id, trivial⟩
    · trivial
  exact (writes_markVisited _).bind fun _ _ => (writes_declareVars _).bind fun _ hdeclared =>
    (writes_writeKind hg hv _ _ _).bind fun _ hbody => .pure (Java.blockUnbroken_append.2
      ⟨Java.blockUnbroken_append.2 ⟨hlabel, hdeclared⟩, hbody⟩)

theorem writes_enterNode
    (ctx : Context)
    (id : NodeId) :
    Writes (src.enterNode visit ctx id) blockUnbroken := by
  unfold Source.enterNode
  split
  · exact .pure ⟨nofun, trivial⟩
  · split
    · exact .pure trivial
    · refine (writes_requireSlot src id).bind fun _ _ => .get_bind fun s _ => ?_
      split
      · exact Writes.bind (.modify fun _ hs => hs) fun _ _ =>
          .pure ⟨fun name hsame => Option.some.inj hsame ▸ unbroken_labelOf src id, trivial⟩
      · exact writes_writeNode hg hv _ _

end Walks

/-- **All that is written of a flow graph has no breaks.** -/
theorem writes_walk
    {src : Source}
    (hg : src.graph.Unbroken)
    (depth : Nat)
    (ctx : Context)
    (id : NodeId) :
    Writes (src.walk depth ctx id) blockUnbroken := by
  induction depth generalizing ctx id with
  | zero => exact .pure trivial
  | succ depth ih => exact writes_enterNode hg ih ctx id

/-! ## Methods -/

theorem unbroken_select
    (flags : AccessFlags)
    {table : List (UInt32 × String)}
    (h : ∀ entry ∈ table, Text.Unbroken entry.2) :
    ∀ word ∈ flags.select table, Text.Unbroken word := by
  refine List.foldlRecOn table _ (motive := fun words => ∀ word ∈ words, Text.Unbroken word) nofun
    fun words hknown entry hmem => ?_
  split
  · exact List.forall_mem_append.2 ⟨hknown, List.forall_mem_singleton.2 (h entry hmem)⟩
  · exact hknown

theorem unbroken_methodModifiers
    (flags : AccessFlags) :
    ∀ word ∈ flags.methodModifiers, Text.Unbroken word :=
  unbroken_select flags (by decide)

theorem unbroken_header
    {m : Bytecode.Method}
    (h : m.Unbroken) :
    (header m).Unbroken where
  owner := Descriptor.unbroken_internalName h.owner
  name := h.name
  flags := unbroken_methodModifiers _
  returns := TypeName.unbroken_ofDescriptor (Descriptor.unbroken_returnType h.descriptor)
  params := by
    refine fun decl hmem => ?_
    obtain ⟨⟨register, type⟩, hthere, hmade⟩ := List.mem_filterMap.1 hmem
    obtain ⟨type, rfl, rfl⟩ := Option.map_eq_some_iff.1 hmade
    exact ⟨TypeName.unbroken_ofDescriptor (h.arguments _ hthere type rfl),
      Text.unbroken_append.2 ⟨by decide, Text.unbroken_toString_nat _⟩⟩
  comments := nofun
  body := nofun

/-- **No text in a written method has breaks**, if no name in it has. -/
theorem unbroken_emit
    {w : Writing}
    {g : FlowGraph}
    {vars : Variables}
    (hm : w.method.Unbroken)
    (hg : g.Unbroken)
    (hv : vars.Unbroken)
    (naming : Java.Naming) :
    (emit w g vars naming).method.Unbroken := by
  have hbody (labels : List NodeId) (naming : Java.Naming) :
      blockUnbroken ((Source.body { writing := w, graph := g, labels }).run
        (.start vars naming)).1 :=
    (writes_walk (show Source.graph { writing := w, graph := g, labels } |>.Unbroken from hg) _ _ _
      (.start vars naming) hv).2
  have hsignature := unbroken_header hm
  unfold emit
  dsimp only
  split
  · exact { hsignature with
      comments := nofun
      body := fun _ hsame => Option.some.inj hsame ▸ hbody _ _ }
  · exact { hsignature with
      comments := List.forall_mem_singleton.2 (by decide : Text.Unbroken gotoComment)
      body := fun _ hsame => Option.some.inj hsame ▸ hbody _ _ }

end Emission
end DalvikDecompiler
