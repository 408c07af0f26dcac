import DalvikDecompiler.Decimal
import DalvikDecompiler.Proofs.Allocation
import DalvikDecompiler.Proofs.Descriptor
import DalvikDecompiler.Proofs.Java.Lines
import DalvikDecompiler.Proofs.Symbolic.Effects
import DalvikDecompiler.Symbolic.Lifting

/-!
# Names in instructions

**Input.** Instructions whose types, fields and methods have names without line breaks.

Lifting and rewriting put names together in new expressions and make no others.  The texts of
constants are no names: they are only ever written as quoted literals.

**Results.**
* `Descriptor.unbroken_javaName`, `Decimal.unbroken_spell`: what is spelled out of a text without
  breaks, or of a number, has none.
* `Expr.Unbroken.substitute`: rewriting brings no other names in.
* `says_lift`: neither does lifting, in instructions or as types of variables.
-/

namespace DalvikDecompiler

open Text (OneLine Unbroken oneLine_cons oneLine_append oneLine_replicate unbroken_append
  unbroken_ofList)

/-! ## Spellings -/

namespace Text

theorem unbroken_quoted
    (s : String) :
    Unbroken (quoted s) := by
  have hdigits (n : Nat) : OneLine (hexDigits n) := fun c hmem => by
    obtain ⟨d, hsmall, rfl⟩ := exists_digitChar_of_mem_hexDigits hmem
    interval_cases d <;> rfl
  have hescape (n : Nat) : OneLine (unicodeEscape n) := by
    simp only [unicodeEscape, hexPadded, oneLine_cons, oneLine_append]
    exact ⟨rfl, rfl, oneLine_replicate _ rfl, hdigits n⟩
  have hspelled (c : Char) : OneLine (spellChar '"' c) := by
    unfold spellChar
    split_ifs with hbackslash hfeed hback htab hnull hquote hcontrol
    any_goals decide
    · rw [hquote]
      decide
    · exact hescape _
    · simpa [OneLine, isBreak] using ⟨hfeed, hback⟩
  refine unbroken_ofList.2 ?_
  simp only [quotedChars, List.cons_append, oneLine_cons, oneLine_append]
  refine ⟨rfl, fun d hmem => ?_, by decide⟩
  obtain ⟨c, -, hmem⟩ := List.mem_flatMap.1 hmem
  exact hspelled c d hmem

end Text

namespace Decimal

open Text (oneLine_toDigits)

theorem oneLine_positional
    {digits : List Char}
    (h : OneLine digits)
    (places : Int) :
    OneLine (positional digits places) := by
  have hzeros (n : Nat) : OneLine (List.replicate n '0') := oneLine_replicate n rfl
  unfold positional
  split_ifs
  all_goals simp only [List.cons_append, oneLine_cons, oneLine_append]
  · exact ⟨rfl, rfl, hzeros _, h⟩
  · exact ⟨⟨h, hzeros _⟩, by decide⟩
  · exact ⟨h.of_subset (List.take_subset ..), rfl, h.of_subset (List.drop_subset ..)⟩

theorem oneLine_exponential
    {digits : List Char}
    (h : OneLine digits)
    (places : Int) :
    OneLine (exponential digits places) := by
  unfold exponential
  simp only [oneLine_append, oneLine_cons]
  refine ⟨?_, rfl, Text.unbroken_toString_int _⟩
  split
  · exact h
  · exact h
  · simp only [oneLine_cons] at h ⊢
    exact ⟨h.1, rfl, h.2⟩

theorem oneLine_spell
    (d : Scientific)
    (range : PositionalRange) :
    OneLine (d.spell range) := by
  unfold Scientific.spell
  dsimp only
  split_ifs
  · exact oneLine_positional (oneLine_toDigits _) _
  · exact oneLine_exponential (oneLine_toDigits _) _

theorem unbroken_spell
    (f : BinaryFormat)
    (v : BinaryValue) :
    Unbroken (f.spell v) := by
  unfold BinaryFormat.spell
  split
  · decide
  · split <;> decide
  · next m q =>
      have hmagnitude :
          OneLine (if m = 0 then ['0', '.', '0'] else (shortest f m q).spell .standard) := by
        split
        · decide
        · exact oneLine_spell _ _
      refine unbroken_ofList.2 ?_
      split
      · exact oneLine_cons.2 ⟨rfl, hmagnitude⟩
      · exact hmagnitude

end Decimal

namespace Descriptor

variable {d : String} {cs : List Char}

theorem trimChars_subset
    (cs : List Char) :
    Text.trimChars cs ⊆ cs := by
  intro c hmem
  simp only [Text.trimChars, Text.trimBack, Text.trimFront, List.mem_reverse] at hmem
  exact List.dropWhile_subset _ (List.mem_reverse.1 (List.dropWhile_subset _ hmem))

theorem subset_of_mem_splitTypes
    {part : List Char}
    (hmem : part ∈ splitTypes cs) :
    part ⊆ cs := by
  induction cs using splitTypes.induct with
  | case1 =>
      rw [splitTypes] at hmem
      cases hmem
  | case2 c cs hblank ih =>
      rw [splitTypes, if_pos hblank] at hmem
      exact List.subset_cons_of_subset c (ih hmem)
  | case3 c cs hblank ih =>
      have htaken := takeType_fst_append_snd (c :: cs)
      rw [splitTypes, if_neg hblank] at hmem
      rcases List.mem_cons.1 hmem with rfl | hmem
      · exact fun x hthere => htaken ▸ List.mem_append_left _ hthere
      · exact fun x hthere => htaken ▸ List.mem_append_right _ (ih hmem hthere)

theorem parameterChars_subset
    (cs : List Char) :
    parameterChars cs ⊆ cs := by
  unfold parameterChars
  split
  · exact List.nil_subset _
  · next rest hfound =>
      have hrest_subset : rest ⊆ cs := fun c hmem =>
        List.dropWhile_subset _ (hfound ▸ List.mem_cons_of_mem _ hmem)
      split
      · intro c hmem
        rw [List.mem_reverse] at hmem
        exact hrest_subset (List.mem_reverse.1
          (List.dropWhile_subset _ (List.mem_of_mem_drop hmem)))
      · exact hrest_subset

theorem unbroken_params
    (h : Unbroken d) :
    ∀ t ∈ params d, Unbroken t :=
  List.forall_mem_map.2 fun _ hmem => unbroken_ofList.2 <|
    h.of_subset fun _ hthere => parameterChars_subset _ (subset_of_mem_splitTypes hmem hthere)

theorem unbroken_returnType
    (h : Unbroken d) :
    Unbroken (returnType d) := by
  unfold returnType
  dsimp only
  split
  · refine unbroken_ofList.2 (h.of_subset fun c hmem => ?_)
    exact List.mem_reverse.1
      (List.takeWhile_subset _ (List.mem_reverse.1 (trimChars_subset _ hmem)))
  · decide

theorem unbroken_element?
    (h : Unbroken d) :
    ∀ t ∈ element? d, Unbroken t := by
  unfold element?
  split
  · next rest hfound =>
      rintro t ⟨⟩
      exact unbroken_ofList.2 (oneLine_cons.1 (hfound ▸ h : OneLine ('[' :: rest))).2
  · nofun

theorem unbroken_elementOrSelf
    (h : Unbroken d) :
    Unbroken (elementOrSelf d) := by
  unfold elementOrSelf
  cases hfound : element? d with
  | none => exact h
  | some t => exact unbroken_element? h t hfound

theorem subset_of_className?
    {name : List Char}
    (hfound : className? cs = some name) :
    name ⊆ cs := by
  unfold className? at hfound
  split at hfound
  · split at hfound
    · obtain rfl := Option.some.inj hfound
      exact fun c hmem => List.mem_cons_of_mem _ (List.dropLast_subset _ hmem)
    · cases hfound
  · cases hfound

theorem oneLine_plainName
    (h : OneLine cs) :
    OneLine (plainName cs) := by
  unfold plainName
  split
  · next keyword hfound =>
      unfold keyword? at hfound
      split at hfound <;> cases hfound <;> decide
  · split
    · next name hfound =>
        refine List.forall_mem_map.2 fun c hmem => ?_
        split
        · rfl
        · exact h c (subset_of_className? hfound hmem)
    · exact h

theorem oneLine_javaChars
    (h : OneLine cs) :
    OneLine (javaChars cs) := by
  induction cs using javaChars.induct with
  | case1 cs element hshape ih =>
      rw [javaChars, hshape]
      have hinside : OneLine element := h.of_subset fun c hmem =>
        trimChars_subset cs (hshape ▸ List.mem_cons_of_mem _ hmem)
      exact oneLine_append.2 ⟨ih hinside, by decide⟩
  | case2 cs hplain =>
      rw [javaChars]
      split
      · next element hfound => exact absurd hfound (hplain element)
      · exact oneLine_plainName (h.of_subset (trimChars_subset cs))

/-- The Java name of a type has only characters of its descriptor, dots, brackets and letters. -/
theorem unbroken_javaName
    (h : Unbroken d) :
    Unbroken (javaName d) :=
  unbroken_ofList.2 (oneLine_javaChars h)

theorem unbroken_internalName
    (h : Unbroken d) :
    Unbroken (internalName d) := by
  unfold internalName
  split
  · next name hfound => exact unbroken_ofList.2 (h.of_subset (subset_of_className? hfound))
  · exact h

end Descriptor

theorem Java.TypeName.unbroken_ofDescriptor
    {d : String}
    (h : Unbroken d) :
    Unbroken (Java.TypeName.ofDescriptor d).name :=
  Descriptor.unbroken_javaName (unbroken_ofList.2 (h.of_subset (List.dropWhile_subset _)))

/-! ## Values -/

namespace Bytecode

/-- The names in a reference to a field. -/
def FieldRef.words (field : FieldRef) : List String :=
  [field.owner, field.name, field.descriptor]

/-- The names in a reference to a method. -/
def MethodRef.words (method : MethodRef) : List String :=
  [method.owner, method.name, method.descriptor]

end Bytecode

namespace Symbolic

namespace Variables

/-- No type of a variable has breaks. -/
def Unbroken (vars : Variables) : Prop :=
  ∀ v, ∀ t ∈ vars.type? v, Text.Unbroken t

variable {vars : Variables} {id : VarId}

/-- The name of a variable is made of its numbers. -/
theorem unbroken_name
    (vars : Variables)
    (id : VarId) :
    Text.Unbroken (vars.name id) := by
  have hnumbered {word : String} (h : Text.Unbroken word) (n : Nat) :
      Text.Unbroken (word ++ toString n) :=
    unbroken_append.2 ⟨h, Text.unbroken_toString_nat n⟩
  have hother : Text.Unbroken "var" := by decide
  suffices ∀ bound id, Text.Unbroken (vars.nameWithin bound id) from this _ id
  intro bound
  induction bound with
  | zero =>
      intro id
      unfold nameWithin
      split
      · exact hnumbered (by decide) _
      · exact hnumbered (by decide) _
      · decide
      · exact hnumbered (by decide) _
      · exact hnumbered hother id
      · exact hnumbered hother id
  | succ bound ih =>
      intro id
      unfold nameWithin
      split
      · exact hnumbered (by decide) _
      · exact hnumbered (by decide) _
      · decide
      · exact hnumbered (by decide) _
      · exact hnumbered (unbroken_append.2 ⟨ih _, by decide⟩) _
      · exact hnumbered hother id

theorem unbroken_empty :
    empty.Unbroken :=
  fun _ _ hfound => by cases hfound

theorem Unbroken.push
    {v : Variable}
    (h : vars.Unbroken)
    (hv : ∀ t ∈ v.type, Text.Unbroken t) :
    (vars.push v).Unbroken := by
  intro i t hfound
  rw [type?, get?, Variables.push, Array.getElem?_push] at hfound
  split at hfound
  · exact hv t hfound
  · exact h i t hfound

theorem Unbroken.modify
    {f : Variable → Variable}
    (h : vars.Unbroken)
    (hf : ∀ v, ∀ t ∈ (f v).type, t ∈ v.type ∨ Text.Unbroken t) :
    (vars.modify id f).Unbroken := by
  intro i t hfound
  rw [type?, get?, Variables.modify, Array.getElem?_modify] at hfound
  split at hfound
  · obtain ⟨v, hthere, hfound⟩ := Option.bind_eq_some_iff.1 hfound
    obtain ⟨old, hentry, rfl⟩ := Option.map_eq_some_iff.1 hthere
    rcases hf old t hfound with hkept | hnew
    · exact h i t (Option.bind_eq_some_iff.2 ⟨old, hentry, hkept⟩)
    · exact hnew
  · exact h i t hfound

theorem Unbroken.markDeclared
    (h : vars.Unbroken)
    (id : VarId) :
    (vars.markDeclared id).Unbroken :=
  h.modify fun _ _ hfound => .inl hfound

theorem Unbroken.register
    (h : vars.Unbroken)
    (r : UInt16) :
    (vars.register r).2.Unbroken := by
  unfold Variables.register
  split
  · exact h
  · exact h.push nofun

theorem Unbroken.addTemp
    {type : Option String}
    (h : vars.Unbroken)
    (ht : ∀ t ∈ type, Text.Unbroken t) :
    (vars.addTemp type).2.Unbroken :=
  h.push ht

theorem Unbroken.addSplit
    (h : vars.Unbroken)
    (base : VarId)
    (version : Nat) :
    (vars.addSplit base version).2.Unbroken :=
  h.push (h base)

theorem Unbroken.suggestType
    {type : String}
    (h : vars.Unbroken)
    (ht : Text.Unbroken type)
    (id : VarId) :
    (vars.suggestType id type).Unbroken := by
  unfold Variables.suggestType
  split
  · exact h.modify fun _ t hsame => .inr (Option.some.inj hsame ▸ ht)
  · exact h

end Variables

namespace Expr

/-- The names that an expression has beside those of its operands. -/
def ownWords : Expr → List String
  | .var _ => []
  | .const (.type descriptor) => [descriptor]
  | .const _ => []
  | .unary _ _ type => [type]
  | .binary _ _ _ type => [type]
  | .compare type _ _ => [type]
  | .cast type _ => [type]
  | .checkCast type _ => [type]
  | .instanceOf type _ => [type]
  | .arrayLength _ => []
  | .newInstance type => [type]
  | .newArray type _ => [type]
  | .filledArray type _ => [type]
  | .fieldRead _ field => field.words
  | .staticFieldRead field => field.words
  | .arrayRead _ _ type => type.toList
  | .staticCall method _ => method.words
  | .call _ method _ _ => method.words

/-- No name in an expression has breaks. -/
def Unbroken (e : Expr) : Prop :=
  ∀ part ∈ e.subterms, ∀ t ∈ part.ownWords, Text.Unbroken t

variable {e value : Expr} {vars : Variables}

theorem unbroken_iff :
    e.Unbroken ↔ (∀ t ∈ e.ownWords, Text.Unbroken t) ∧ ∀ c ∈ e.children, c.Unbroken := by
  simp only [Unbroken, subterms_eq e, List.forall_mem_cons, List.mem_flatMap]
  exact and_congr_right fun _ =>
    ⟨fun h c hchild part hmem => h part ⟨c, hchild, hmem⟩,
      fun h part held => held.elim fun c hinside => h c hinside.1 part hinside.2⟩

theorem unbroken_var
    (v : VarId) :
    (Expr.var v).Unbroken :=
  unbroken_iff.2 ⟨nofun, nofun⟩

/-- **Rewriting brings no other names in.** -/
theorem Unbroken.substitute
    (h : e.Unbroken)
    (hv : value.Unbroken)
    (id : VarId) :
    (substitute id value e).Unbroken := by
  induction e using children_induction with
  | step e ih =>
      obtain ⟨hown, hchildren⟩ := unbroken_iff.1 h
      cases hvar : e.var? with
      | some v =>
          obtain rfl := eq_var_of_var? hvar
          rw [Expr.substitute]
          split
          · exact hv
          · exact h
      | none =>
          have hsame : (Expr.substitute id value e).ownWords = e.ownWords := by
            cases e <;> first | rfl | cases hvar
          refine unbroken_iff.2 ⟨hsame ▸ hown, ?_⟩
          rw [(children_substitute_of_not_var id value hvar).2]
          exact List.forall_mem_map.2 fun c hchild => ih c hchild (hchildren c hchild)

theorem unbroken_callType
    {method : Bytecode.MethodRef}
    (h : ∀ t ∈ method.words, Text.Unbroken t) :
    ∀ t ∈ knownType.callType method, Text.Unbroken t := by
  unfold knownType.callType
  split
  · nofun
  · rintro t ⟨⟩
    exact Descriptor.unbroken_returnType (h _ (by simp [Bytecode.MethodRef.words]))

/-- The type that an expression is known to have is named in it, or fixed. -/
theorem Unbroken.knownType
    (h : e.Unbroken)
    (hvars : vars.Unbroken) :
    ∀ t ∈ e.knownType vars, Text.Unbroken t := by
  induction e using children_induction with
  | step e ih =>
      obtain ⟨hown, hchildren⟩ := unbroken_iff.1 h
      have hself {t : String} (hmem : t ∈ e.ownWords) : ∀ t' ∈ some t, Text.Unbroken t' :=
        fun t' hsame => Option.some.inj hsame ▸ hown t hmem
      cases e with
      | var v => exact hvars v
      | const c =>
          cases c with
          | int => nofun
          | _ =>
              rintro t ⟨⟩
              decide
      | compare | arrayLength | instanceOf =>
          rintro t ⟨⟩
          decide
      | fieldRead | staticFieldRead =>
          exact hself (by simp [ownWords, Bytecode.FieldRef.words])
      | staticCall | call => exact unbroken_callType hown
      | arrayRead array index type =>
          cases type with
          | some type => exact hself List.mem_cons_self
          | none =>
              intro t hfound
              obtain ⟨type, hknown, helement⟩ := Option.bind_eq_some_iff.1 hfound
              have harray_unbroken :=
                ih array List.mem_cons_self (hchildren array List.mem_cons_self)
              exact Descriptor.unbroken_element? (harray_unbroken type hknown) t helement
      | _ => exact hself List.mem_cons_self

end Expr

theorem BinaryOp.unbroken_symbol
    (op : BinaryOp) :
    Text.Unbroken op.symbol := by
  cases op <;> decide

theorem UnaryOp.unbroken_symbol
    (op : UnaryOp) :
    Text.Unbroken op.symbol := by
  cases op <;> decide

theorem Relation.unbroken_symbol
    (relation : Relation) :
    Text.Unbroken relation.symbol := by
  cases relation <;> decide

theorem Constant.unbroken_dumpText
    (c : Constant)
    (h : ∀ t ∈ (Expr.const c).ownWords, Text.Unbroken t) :
    Text.Unbroken c.dumpText := by
  cases c with
  | int v => exact Text.unbroken_toString_int _
  | wide v => exact unbroken_append.2 ⟨Text.unbroken_toString_int _, by decide⟩
  | string s => exact Text.unbroken_quoted s
  | type t =>
      exact unbroken_append.2
        ⟨Descriptor.unbroken_javaName (h t List.mem_cons_self), by decide⟩

namespace Expr

variable {e : Expr}

theorem dumpTexts_eq_map
    (vars : Variables)
    (es : List Expr) :
    dumpTexts vars es = es.map (dumpText vars) := by
  induction es with
  | nil => rfl
  | cons e es ih => rw [dumpTexts, ih, List.map_cons]

theorem Unbroken.dumpText
    (h : e.Unbroken)
    (vars : Variables) :
    Text.Unbroken (e.dumpText vars) := by
  induction e using children_induction with
  | step e ih =>
      obtain ⟨hown, hchildren⟩ := unbroken_iff.1 h
      have hchild {c : Expr} (hmem : c ∈ e.children) : Text.Unbroken (c.dumpText vars) :=
        ih c hmem (hchildren c hmem)
      have hlisted (es : List Expr) (hsub : es ⊆ e.children) :
          Text.Unbroken (Text.joinWith ", " (dumpTexts vars es)) := by
        rw [dumpTexts_eq_map]
        exact Text.unbroken_joinWith (by decide)
          (List.forall_mem_map.2 fun c hmem => hchild (hsub hmem))
      have hnamed {t : String} (hmem : t ∈ e.ownWords) : Text.Unbroken (Descriptor.javaName t) :=
        Descriptor.unbroken_javaName (hown t hmem)
      cases e with
      | var v => exact vars.unbroken_name v
      | const c => exact c.unbroken_dumpText hown
      | unary op operand type =>
          exact unbroken_append.2 ⟨op.unbroken_symbol, hchild List.mem_cons_self⟩
      | binary op left right type =>
          simp only [Expr.dumpText, unbroken_append, op.unbroken_symbol,
            hchild (c := left) List.mem_cons_self, hchild (c := right) (by simp [Expr.children])]
          decide
      | compare type left right =>
          simp only [Expr.dumpText, unbroken_append, hown type List.mem_cons_self,
            hchild (c := left) List.mem_cons_self, hchild (c := right) (by simp [Expr.children])]
          decide
      | cast type operand | checkCast type operand | instanceOf type operand =>
          simp only [Expr.dumpText, unbroken_append, hnamed (t := type) List.mem_cons_self,
            hchild (c := operand) List.mem_cons_self]
          decide
      | arrayLength array =>
          simp only [Expr.dumpText, unbroken_append, hchild (c := array) List.mem_cons_self]
          decide
      | newInstance type =>
          simp only [Expr.dumpText, unbroken_append, hnamed (t := type) List.mem_cons_self]
          decide
      | newArray type size =>
          have helement := Descriptor.unbroken_javaName
            (Descriptor.unbroken_elementOrSelf (hown type List.mem_cons_self))
          simp only [Expr.dumpText, unbroken_append, helement,
            hchild (c := size) List.mem_cons_self]
          decide
      | filledArray type elements =>
          simp only [Expr.dumpText, unbroken_append,
            hlisted elements (List.Subset.refl _)]
          decide
      | fieldRead object field =>
          simp only [Expr.dumpText, unbroken_append, hchild (c := object) List.mem_cons_self,
            hown field.name (by simp [ownWords, Bytecode.FieldRef.words])]
          decide
      | staticFieldRead field =>
          simp only [Expr.dumpText, unbroken_append, hnamed (t := field.owner) List.mem_cons_self,
            hown field.name (by simp [ownWords, Bytecode.FieldRef.words])]
          decide
      | arrayRead array index type =>
          simp only [Expr.dumpText, unbroken_append, hchild (c := array) List.mem_cons_self,
            hchild (c := index) (by simp [Expr.children])]
          decide
      | staticCall method args =>
          simp only [Expr.dumpText, unbroken_append, hnamed (t := method.owner) List.mem_cons_self,
            hown method.name (by simp [ownWords, Bytecode.MethodRef.words]),
            hlisted args (List.Subset.refl _)]
          decide
      | call dispatch method receiver args =>
          simp only [Expr.dumpText, unbroken_append, hchild (c := receiver) List.mem_cons_self,
            hown method.name (by simp [ownWords, Bytecode.MethodRef.words]),
            hlisted args (List.subset_cons_self _ _)]
          decide

end Expr

namespace Instr

/-- The names that an instruction has beside those of its operands. -/
def ownWords : Instr → List String
  | .fieldWrite _ field _ => field.words
  | .staticFieldWrite field _ => field.words
  | _ => []

/-- No name in an instruction has breaks. -/
structure Unbroken (ins : Instr) : Prop where
  own : ∀ t ∈ ins.ownWords, Text.Unbroken t
  operands : ∀ e ∈ ins.operands, e.Unbroken

variable {ins : Instr} {value : Expr}

theorem unbroken_assign
    {target : Option VarId}
    (h : value.Unbroken) :
    (Instr.assign target value).Unbroken :=
  ⟨nofun, List.forall_mem_singleton.2 h⟩

theorem Unbroken.substitute
    (h : ins.Unbroken)
    (hv : value.Unbroken)
    (id : VarId) :
    (ins.substitute id value).Unbroken where
  own := by
    have hsame : (ins.substitute id value).ownWords = ins.ownWords := by cases ins <;> rfl
    exact hsame ▸ h.own
  operands := by
    rw [Instr.substitute, operands_mapOperands]
    exact List.forall_mem_map.2 fun e hmem => (h.operands e hmem).substitute hv id

theorem Unbroken.replaceTarget
    (h : ins.Unbroken)
    (id : VarId) :
    (ins.replaceTarget id).Unbroken := by
  cases ins <;> first | exact h | exact ⟨nofun, h.operands⟩

theorem Unbroken.value?
    (h : ins.Unbroken) :
    ∀ e ∈ ins.value?, e.Unbroken := by
  rintro e hfound
  cases ins with
  | move | moveResult | assign => exact h.operands e (Option.mem_toList.2 hfound)
  | _ => cases hfound

theorem Unbroken.dropTarget
    (h : ins.Unbroken) :
    ins.dropTarget.Unbroken := by
  unfold Instr.dropTarget
  split
  · next value hfound => exact ⟨nofun, by simpa [Instr.operands] using h.value? value hfound⟩
  · exact h

theorem Unbroken.dumpText
    (h : ins.Unbroken)
    (vars : Variables) :
    Text.Unbroken (ins.dumpText vars) := by
  have hvalue (e : Expr) (hmem : e ∈ ins.operands) : Text.Unbroken (e.dumpText vars) :=
    (h.operands e hmem).dumpText vars
  have hown := h.own
  have hname := vars.unbroken_name
  clear h
  cases ins with
  | nop => exact (by decide : Text.Unbroken "nop")
  | move target e | moveResult target e =>
      simp only [Instr.dumpText, unbroken_append, hname, hvalue e List.mem_cons_self]
      decide
  | assign target e =>
      cases target with
      | none => exact hvalue e List.mem_cons_self
      | some target =>
          simp only [Instr.dumpText, unbroken_append, hname, hvalue e List.mem_cons_self]
          decide
  | ret e =>
      cases e with
      | none => exact (by decide : Text.Unbroken "return")
      | some e =>
          simp only [Instr.dumpText, unbroken_append, hvalue e List.mem_cons_self]
          decide
  | throw e | switch e | monitorEnter e | monitorExit e =>
      simp only [Instr.dumpText, unbroken_append, hvalue e List.mem_cons_self]
      decide
  | fillArrayData e width data =>
      simp only [Instr.dumpText, unbroken_append, hvalue e List.mem_cons_self,
        Text.unbroken_toString_nat (data.length / max width.toNat 1),
        Text.unbroken_toString_nat width.toNat]
      decide
  | ifCompare relation left right =>
      simp only [Instr.dumpText, unbroken_append, relation.unbroken_symbol,
        hvalue left List.mem_cons_self, hvalue right (by simp [Instr.operands])]
      decide
  | ifCompareZero relation e =>
      simp only [Instr.dumpText, unbroken_append, relation.unbroken_symbol,
        hvalue e List.mem_cons_self]
      decide
  | fieldWrite object field e =>
      simp only [Instr.dumpText, unbroken_append, hvalue object List.mem_cons_self,
        hown field.name (by simp [ownWords, Bytecode.FieldRef.words]),
        hvalue e (by simp [Instr.operands])]
      decide
  | staticFieldWrite field e =>
      simp only [Instr.dumpText, unbroken_append,
        Descriptor.unbroken_javaName (hown field.owner List.mem_cons_self),
        hown field.name (by simp [ownWords, Bytecode.FieldRef.words]), hvalue e List.mem_cons_self]
      decide
  | arrayWrite array index e =>
      simp only [Instr.dumpText, unbroken_append, hvalue array List.mem_cons_self,
        hvalue index (by simp [Instr.operands]), hvalue e (by simp [Instr.operands])]
      decide
  | moveException target =>
      simp only [Instr.dumpText, unbroken_append, hname]
      decide

end Instr

end Symbolic

/-! ## Lifting -/

namespace Bytecode

/-- The names in an operand. -/
def Operand.words : Operand → List String
  | .type descriptor => [descriptor]
  | .field reference => reference.words
  | .method reference => reference.words
  | _ => []

/-- No name in an instruction has breaks. -/
def Instruction.Unbroken (ins : Instruction) : Prop :=
  ∀ operand ∈ ins.operands, ∀ t ∈ operand.words, Text.Unbroken t

namespace Instruction.Unbroken

variable {ins : Instruction}

/-- What is read off the operands is one of them. -/
theorem of_findSome?
    {α : Type}
    {read : Operand → Option α}
    {w : α → List String}
    (h : ins.Unbroken)
    (hsame : ∀ operand a, read operand = some a → operand.words = w a)
    {a : α}
    (hfound : ins.operands.findSome? read = some a) :
    ∀ t ∈ w a, Text.Unbroken t := by
  obtain ⟨operand, hmem, hread⟩ := List.exists_of_findSome?_eq_some hfound
  exact hsame operand a hread ▸ h operand hmem

theorem type?
    (h : ins.Unbroken) :
    ∀ t ∈ ins.type?, Text.Unbroken t := fun t hfound =>
  h.of_findSome? (w := fun t => [t])
    (by rintro (_ | _) _ hread <;> cases hread; rfl) hfound t List.mem_cons_self

theorem field?
    (h : ins.Unbroken)
    {field : FieldRef}
    (hfound : ins.field? = some field) :
    ∀ t ∈ field.words, Text.Unbroken t :=
  h.of_findSome? (by rintro (_ | _) _ hread <;> cases hread; rfl) hfound

theorem method?
    (h : ins.Unbroken)
    {method : MethodRef}
    (hfound : ins.method? = some method) :
    ∀ t ∈ method.words, Text.Unbroken t :=
  h.of_findSome? (by rintro (_ | _) _ hread <;> cases hread; rfl) hfound

end Instruction.Unbroken

/-- No name in a method has breaks. -/
structure Method.Unbroken (m : Method) : Prop where
  owner : Text.Unbroken m.owner
  name : Text.Unbroken m.name
  descriptor : Text.Unbroken m.descriptor
  instructions : ∀ block ∈ m.blocks, ∀ ins ∈ block.instructions, ins.Unbroken
  handlers : ∀ range ∈ m.exceptions.ranges, ∀ handler ∈ range.handlers,
    ∀ t ∈ handler.exceptionType, Text.Unbroken t

namespace Method

variable {m : Method}

theorem unbroken_placeFrom
    {types : List String}
    (h : ∀ t ∈ types, Text.Unbroken t)
    (register : Nat) :
    ∀ argument ∈ placeFrom register types, ∀ t ∈ argument.2, Text.Unbroken t := by
  induction types generalizing register with
  | nil => nofun
  | cons type types ih =>
      obtain ⟨hfirst, hrest⟩ := List.forall_mem_cons.1 h
      exact List.forall_mem_cons.2
        ⟨fun t hsame => Option.some.inj hsame ▸ hfirst, ih hrest _⟩

theorem Unbroken.arguments
    (h : m.Unbroken) :
    ∀ argument ∈ m.argumentRegisters, ∀ t ∈ argument.2, Text.Unbroken t := by
  have hparams := unbroken_placeFrom (Descriptor.unbroken_params h.descriptor)
  unfold argumentRegisters
  dsimp only
  split
  · exact hparams _
  · exact List.forall_mem_cons.2 ⟨nofun, hparams _⟩

end Method

end Bytecode

/-- The arguments of a method have the types of its parameters, or that of its class. -/
theorem Symbolic.Variables.unbroken_ofMethod
    {m : Bytecode.Method}
    (h : m.Unbroken) :
    (ofMethod m).Unbroken := by
  refine List.foldlRecOn m.argumentRegisters _ unbroken_empty fun vars hvars argument hmem => ?_
  have hadded (v : Variable) (hv : ∀ t ∈ v.type, Text.Unbroken t) : (vars.push v).Unbroken :=
    hvars.push hv
  unfold addArgument
  dsimp only
  split
  · next type hfound =>
      exact hadded _ fun t hsame => h.arguments argument hmem t (hfound.trans hsame)
  · exact hadded _ fun t hsame => Option.some.inj hsame ▸ h.owner

namespace Symbolic
namespace LiftState

open Bytecode (Instruction FieldRef MethodRef)

/-- Computations that give variables types without breaks, and what holds of what they return. -/
abbrev Says {α : Type} (x : LiftM α) (post : α → Prop) : Prop :=
  Yields (fun l => l.vars.Unbroken) x post

section Operands

variable {α : Type} {ins : Instruction}

theorem says_require
    (operand : Option α)
    (error : LiftError) :
    Says (require operand error) fun a => operand = some a := by
  cases operand with
  | none => exact .throw error
  | some a => exact .pure rfl

theorem says_varOf
    (r : UInt16) :
    Says (varOf r) fun _ => True :=
  .modifyGet fun _ hl => ⟨hl.register r, trivial⟩

theorem says_newResult
    {type : String}
    (h : Text.Unbroken type) :
    Says (newResult type) fun _ => True :=
  .modifyGet fun _ hl => ⟨hl.addTemp fun _ hsame => Option.some.inj hsame ▸ h, trivial⟩

theorem says_reg
    (ins : Instruction)
    (n : Nat) :
    Says (reg ins n) fun _ => True :=
  (says_require _ _).bind fun r _ => says_varOf r

theorem says_operand
    (ins : Instruction)
    (n : Nat) :
    Says (operand ins n) Expr.Unbroken :=
  (says_reg ins n).map fun v _ => Expr.unbroken_var v

theorem says_literal
    (ins : Instruction) :
    Says (literal ins) fun _ => True :=
  fun l a l' hl hrun => ⟨(says_require _ _ l a l' hl hrun).1, trivial⟩

theorem says_intLiteral
    (ins : Instruction) :
    Says (intLiteral ins) Expr.Unbroken :=
  (says_literal ins).bind fun _ _ => .pure (Expr.unbroken_iff.2 ⟨nofun, nofun⟩)

theorem says_type
    (h : ins.Unbroken) :
    Says (type ins) Text.Unbroken :=
  fun l a l' hl hrun => (says_require _ _ l a l' hl hrun).imp_right fun hfound => h.type? a hfound

theorem says_field
    (h : ins.Unbroken) :
    Says (field ins) fun field => ∀ t ∈ field.words, Text.Unbroken t :=
  fun l a l' hl hrun => (says_require _ _ l a l' hl hrun).imp_right h.field?

theorem says_method
    (h : ins.Unbroken) :
    Says (method ins) fun method => ∀ t ∈ method.words, Text.Unbroken t :=
  fun l a l' hl hrun => (says_require _ _ l a l' hl hrun).imp_right h.method?

theorem says_assign
    {value : Expr}
    (h : value.Unbroken) :
    Says (assign ins value) Instr.Unbroken :=
  (says_reg ins 0).bind fun _ _ => .pure (Instr.unbroken_assign h)

theorem says_arguments
    (ins : Instruction)
    (descriptor : String)
    (registers : List UInt16)
    (types : List String) :
    Says (arguments ins descriptor registers types) fun args => ∀ e ∈ args, e.Unbroken := by
  induction types generalizing registers with
  | nil =>
      rw [arguments]
      exact .pure nofun
  | cons type types ih =>
      rw [arguments]
      exact (says_require _ _).bind fun r _ => (says_varOf r).bind fun v _ => (ih _).bind
        fun rest hrest => .pure (List.forall_mem_cons.2 ⟨Expr.unbroken_var v, hrest⟩)

theorem says_bindCall
    {m : MethodRef}
    {value : Expr}
    (hm : ∀ t ∈ m.words, Text.Unbroken t)
    (h : value.Unbroken) :
    Says (bindCall m value) Instr.Unbroken := by
  unfold bindCall
  split
  · exact .pure (Instr.unbroken_assign h)
  · have hreturns : Text.Unbroken m.returnType :=
      Descriptor.unbroken_returnType (hm _ (by simp [MethodRef.words]))
    exact (says_newResult hreturns).bind fun _ _ => .pure (Instr.unbroken_assign h)

end Operands

section Instructions

variable {ins : Instruction} {words : String}

theorem says_staticCall
    (h : ins.Unbroken) :
    Says (staticCall ins) Instr.Unbroken :=
  (says_method h).bind fun _ hm => (says_arguments _ _ _ _).bind fun _ hargs =>
    says_bindCall hm (Expr.unbroken_iff.2 ⟨hm, hargs⟩)

theorem says_call
    (h : ins.Unbroken)
    (dispatch : Dispatch) :
    Says (call ins dispatch) Instr.Unbroken := by
  refine (says_method h).bind fun m hm => (says_require _ _).bind fun r _ =>
    (says_varOf r).bind fun receiver _ => (says_arguments _ _ _ _).bind fun args hargs =>
      .get_bind fun l _ => ?_
  have hvalue : (Expr.call dispatch m (.var receiver) args).Unbroken :=
    Expr.unbroken_iff.2 ⟨hm, List.forall_mem_cons.2 ⟨Expr.unbroken_var receiver, hargs⟩⟩
  dsimp only
  split
  · exact .pure (Instr.unbroken_assign hvalue)
  · exact says_bindCall hm hvalue

theorem says_moveResult
    (ins : Instruction) :
    Says (moveResult ins) Instr.Unbroken :=
  .get_bind fun _ _ => (says_require _ _).bind fun result _ => (says_reg ins 0).bind fun _ _ =>
    .pure ⟨nofun, List.forall_mem_singleton.2 (Expr.unbroken_var result)⟩

theorem says_filledArray
    (h : ins.Unbroken) :
    Says (filledArray ins) Instr.Unbroken := by
  have hlooked (registers : List UInt16) :
      Says (registers.mapM varOf) fun _ => True := by
    induction registers with
    | nil => exact .pure trivial
    | cons r registers ih =>
        rw [List.mapM_cons]
        exact (says_varOf r).bind fun _ _ => ih.bind fun _ _ => .pure trivial
  refine (says_type h).bind fun type ht => (hlooked _).bind fun elements _ =>
    (says_newResult ht).bind fun _ _ => .pure (Instr.unbroken_assign ?_)
  exact Expr.unbroken_iff.2
    ⟨List.forall_mem_singleton.2 ht, List.forall_mem_map.2 fun v _ => Expr.unbroken_var v⟩

theorem says_binary
    (ins : Instruction)
    (a : Arithmetic)
    (ha : Text.Unbroken a.type) :
    Says (binary ins a) Instr.Unbroken := by
  unfold binary
  have hassigned {left right : Expr} (hl : left.Unbroken) (hr : right.Unbroken) :
      Says (pure (left, right) >>= fun operands : Expr × Expr =>
        assign ins (.binary a.op operands.1 operands.2 a.type)) Instr.Unbroken := by
    rw [pure_bind]
    exact says_assign (Expr.unbroken_iff.2
      ⟨List.forall_mem_singleton.2 ha, by simpa [Expr.children] using ⟨hl, hr⟩⟩)
  cases a.form with
  | threeRegister | twoAddress =>
      exact (says_operand ins _).bind fun _ hl => (says_operand ins _).bind fun _ hr =>
        hassigned hl hr
  | literal =>
      exact (says_operand ins _).bind fun _ hl => (says_intLiteral ins).bind fun _ hr =>
        hassigned hl hr
  | reverseLiteral =>
      exact (says_intLiteral ins).bind fun _ hl => (says_operand ins _).bind fun _ hr =>
        hassigned hl hr

theorem says_cast
    (ht : Text.Unbroken words) :
    Says (cast ins words) Instr.Unbroken :=
  (says_operand ins 1).bind fun _ h =>
    says_assign (Expr.unbroken_iff.2
      ⟨List.forall_mem_singleton.2 ht, List.forall_mem_singleton.2 h⟩)

theorem says_unary
    (op : UnaryOp)
    (ht : Text.Unbroken words) :
    Says (unary ins op words) Instr.Unbroken :=
  (says_operand ins 1).bind fun _ h =>
    says_assign (Expr.unbroken_iff.2
      ⟨List.forall_mem_singleton.2 ht, List.forall_mem_singleton.2 h⟩)

theorem says_compare
    (ht : Text.Unbroken words) :
    Says (compare ins words) Instr.Unbroken :=
  (says_operand ins 1).bind fun _ hl => (says_operand ins 2).bind fun _ hr =>
    says_assign (Expr.unbroken_iff.2
      ⟨List.forall_mem_singleton.2 ht, by simpa [Expr.children] using ⟨hl, hr⟩⟩)

theorem says_move :
    Says (do
      let target ← reg ins 0
      let value ← operand ins 1
      return .move target value) Instr.Unbroken :=
  (says_reg ins 0).bind fun _ _ => (says_operand ins 1).bind fun _ h =>
    .pure ⟨nofun, List.forall_mem_singleton.2 h⟩

theorem says_ifCompare
    (relation : Relation) :
    Says (do
      let left ← operand ins 0
      let right ← operand ins 1
      return .ifCompare relation left right) Instr.Unbroken :=
  (says_operand ins 0).bind fun _ hl => (says_operand ins 1).bind fun _ hr =>
    .pure ⟨nofun, by simpa [Instr.operands] using ⟨hl, hr⟩⟩

theorem says_checkCast
    (h : ins.Unbroken) :
    Says (do
      let value ← reg ins 0
      let target ← type ins
      return .assign (some value) (.checkCast target (.var value))) Instr.Unbroken :=
  (says_reg ins 0).bind fun v _ => (says_type h).bind fun _ ht =>
    .pure (Instr.unbroken_assign (Expr.unbroken_iff.2
      ⟨List.forall_mem_singleton.2 ht, List.forall_mem_singleton.2 (Expr.unbroken_var v)⟩))

theorem says_arrayRead
    {type : Option String}
    (ht : ∀ t ∈ type, Text.Unbroken t) :
    Says (do
      let array ← operand ins 1
      let index ← operand ins 2
      assign ins (.arrayRead array index type)) Instr.Unbroken :=
  (says_operand ins 1).bind fun _ ha => (says_operand ins 2).bind fun _ hi =>
    says_assign (Expr.unbroken_iff.2
      ⟨by simpa [Expr.ownWords] using ht, by simpa [Expr.children] using ⟨ha, hi⟩⟩)

theorem says_arrayWrite :
    Says (do
      let value ← operand ins 0
      let array ← operand ins 1
      let index ← operand ins 2
      return .arrayWrite array index value) Instr.Unbroken :=
  (says_operand ins 0).bind fun _ hv => (says_operand ins 1).bind fun _ ha =>
    (says_operand ins 2).bind fun _ hi =>
      .pure ⟨nofun, by simpa [Instr.operands] using ⟨ha, hi, hv⟩⟩

theorem says_fieldRead
    (h : ins.Unbroken) :
    Says (do
      let object ← operand ins 1
      let source ← field ins
      assign ins (.fieldRead object source)) Instr.Unbroken :=
  (says_operand ins 1).bind fun _ ho => (says_field h).bind fun _ hf =>
    says_assign (Expr.unbroken_iff.2 ⟨hf, List.forall_mem_singleton.2 ho⟩)

theorem says_fieldWrite
    (h : ins.Unbroken) :
    Says (do
      let value ← operand ins 0
      let object ← operand ins 1
      let target ← field ins
      return .fieldWrite object target value) Instr.Unbroken :=
  (says_operand ins 0).bind fun _ hv => (says_operand ins 1).bind fun _ ho =>
    (says_field h).bind fun _ hf => .pure ⟨hf, by simpa [Instr.operands] using ⟨ho, hv⟩⟩

theorem says_staticFieldRead
    (h : ins.Unbroken) :
    Says (do
      let source ← field ins
      assign ins (.staticFieldRead source)) Instr.Unbroken :=
  (says_field h).bind fun _ hf => says_assign (Expr.unbroken_iff.2 ⟨hf, nofun⟩)

theorem says_staticFieldWrite
    (h : ins.Unbroken) :
    Says (do
      let value ← operand ins 0
      let target ← field ins
      return .staticFieldWrite target value) Instr.Unbroken :=
  (says_operand ins 0).bind fun _ hv => (says_field h).bind fun _ hf =>
    .pure ⟨hf, List.forall_mem_singleton.2 hv⟩

theorem says_nop :
    Says (pure .nop) Instr.Unbroken :=
  .pure ⟨nofun, nofun⟩

theorem unbroken_arithmetic
    {op : Opcode}
    {a : Arithmetic}
    (hfound : arithmetic? op = some a) :
    Text.Unbroken a.type := by
  have hfixed : ∀ t ∈ ["D", "F", "I", "J"], Text.Unbroken t := by decide
  refine hfixed _ ?_
  cases op <;> cases hfound <;> simp only [List.mem_cons, true_or, or_true]

theorem unbroken_elementTypeOf
    (op : Opcode) :
    ∀ t ∈ elementTypeOf op, Text.Unbroken t := by
  unfold elementTypeOf
  split
  any_goals
    rintro t ⟨⟩
    decide
  nofun

/-- **Lifting brings no other names in.** -/
theorem says_liftOther
    (h : ins.Unbroken) :
    Says (liftOther ins) Instr.Unbroken := by
  have hfixed : ∀ t ∈ ["B", "C", "D", "F", "I", "J", "S"], Text.Unbroken t := by decide
  simp only [List.forall_mem_cons] at hfixed
  obtain ⟨hbyte, hchar, hdouble, hfloat, hint, hlong, hshort, -⟩ := hfixed
  unfold liftOther
  generalize ins.opcode = op
  cases op <;> dsimp only
  all_goals with_reducible first
    | exact says_call h _
    | exact says_staticCall h
    | exact says_filledArray h
    | exact says_moveResult ins
    | exact says_cast (by assumption)
    | exact says_unary _ (by assumption)
    | exact says_compare (by assumption)
    | exact says_arrayRead (unbroken_elementTypeOf _)
    | exact says_arrayWrite
    | exact says_move
    | exact says_checkCast h
    | exact says_ifCompare _
    | exact says_fieldRead h
    | exact says_fieldWrite h
    | exact says_staticFieldRead h
    | exact says_staticFieldWrite h
    | (split
       · exact says_binary ins _ (unbroken_arithmetic (by assumption))
       · exact says_nop)
    | skip
  -- what is left is of no family: its operands are read one after another
  all_goals with_reducible
    repeat' first
      | refine Yields.bind (says_operand ins _) fun _ _ => ?_
      | refine Yields.bind (says_reg ins _) fun _ _ => ?_
      | refine Yields.bind (says_type h) fun _ _ => ?_
      | refine Yields.bind (says_intLiteral ins) fun _ _ => ?_
      | refine Yields.bind (says_literal ins) fun _ _ => ?_
      | refine Yields.bind (says_require _ _) fun _ _ => ?_
      | exact says_assign (by assumption)
      | refine says_assign (Expr.unbroken_iff.2 ⟨?_, ?_⟩)
      | refine Yields.pure ⟨?_, ?_⟩
  all_goals first
    | exact List.forall_mem_singleton.2 (by assumption)
    | nofun

theorem says_lift
    (h : ins.Unbroken) :
    Says (lift ins) fun made => ∀ i ∈ made, i.Unbroken := by
  unfold lift
  split
  · exact .pure nofun
  · exact (says_liftOther h).map fun _ hi _ hsame => Option.some.inj hsame ▸ hi

end Instructions

end LiftState
end Symbolic

end DalvikDecompiler
