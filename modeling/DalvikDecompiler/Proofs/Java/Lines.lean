import DalvikDecompiler.Java.Source
import DalvikDecompiler.Proofs.Java.Parts
import DalvikDecompiler.Proofs.Text

/-!
# Lines of Java source

The depth of a tree shifts each of its lines to the right by the same width.  As long as no text in
the tree has a line break of its own, the lines of its source are the lines that were made of it,
and the source of a deeper tree can be had from that of the tree.

Main statements: `lines_join`, `render_succ`.
-/

namespace DalvikDecompiler

namespace Text

/-- A line feed or a carriage return. -/
def isBreak (c : Char) : Bool :=
  c == '\n' || c == '\r'

/-- None of some characters breaks a line. -/
def OneLine (cs : List Char) : Prop :=
  ∀ c ∈ cs, isBreak c = false

/-- A text has neither a line feed nor a carriage return. -/
def Unbroken (s : String) : Prop :=
  OneLine s.toList

instance (cs : List Char) : Decidable (OneLine cs) :=
  List.decidableBAll _ cs

instance (s : String) : Decidable (Unbroken s) :=
  inferInstanceAs (Decidable (OneLine s.toList))

section Breaks

variable {s t : String} {texts : List String} {c : Char} {cs ds : List Char}

@[simp] theorem oneLine_cons :
    OneLine (c :: cs) ↔ isBreak c = false ∧ OneLine cs :=
  List.forall_mem_cons

@[simp] theorem oneLine_append :
    OneLine (cs ++ ds) ↔ OneLine cs ∧ OneLine ds :=
  List.forall_mem_append

theorem OneLine.of_subset
    (h : OneLine cs)
    (hsub : ds ⊆ cs) :
    OneLine ds :=
  fun c hmem => h c (hsub hmem)

theorem oneLine_replicate
    (n : Nat)
    (h : isBreak c = false) :
    OneLine (List.replicate n c) :=
  fun _ hmem => List.eq_of_mem_replicate hmem ▸ h

@[simp] theorem unbroken_append :
    Unbroken (s ++ t) ↔ Unbroken s ∧ Unbroken t := by
  rw [Unbroken, String.toList_append, oneLine_append, Unbroken, Unbroken]

theorem unbroken_ofList :
    Unbroken (String.ofList cs) ↔ OneLine cs := by
  rw [Unbroken, String.toList_ofList]

theorem unbroken_join
    (h : ∀ t ∈ texts, Unbroken t) :
    Unbroken (String.join texts) := by
  intro c hmem
  simp only [String.toList_join, List.mem_flatMap] at hmem
  obtain ⟨t, hthere, hmem⟩ := hmem
  exact h t hthere c hmem

theorem unbroken_joinWith
    (hs : Unbroken s)
    (h : ∀ t ∈ texts, Unbroken t) :
    Unbroken (joinWith s texts) := by
  induction texts with
  | nil => exact nofun
  | cons t rest ih =>
      cases rest with
      | nil => exact h t List.mem_cons_self
      | cons next rest =>
          rw [joinWith, unbroken_append, unbroken_append]
          exact ⟨⟨h t List.mem_cons_self, hs⟩, ih fun t hmem => h t (List.mem_cons_of_mem _ hmem)⟩

theorem oneLine_toDigits
    (n : Nat) :
    OneLine (Nat.toDigits 10 n) := fun c hmem => by
  have hdigit := isDigit_of_mem_toDigits hmem
  rw [isBreak, Bool.or_eq_false_iff, beq_eq_false_iff_ne, beq_eq_false_iff_ne]
  constructor <;> rintro rfl <;> cases hdigit

theorem unbroken_toString_nat
    (n : Nat) :
    Unbroken (toString n) := by
  rw [show toString n = String.ofList (Nat.toDigits 10 n) from Nat.repr_eq_ofList_toDigits,
    unbroken_ofList]
  exact oneLine_toDigits n

theorem unbroken_toString_int
    (n : Int) :
    Unbroken (toString n) := by
  cases n with
  | ofNat n => exact unbroken_toString_nat n
  | negSucc n => exact unbroken_append.2 ⟨by decide, unbroken_toString_nat _⟩

end Breaks

section Lines

variable {line rest : List Char}

theorem cutLine_append
    (h : OneLine line) :
    cutLine (line ++ '\n' :: rest) = (line, rest) := by
  have hpasses : ∀ c ∈ line, (c != '\n') = true := fun c hmem => by
    have := h c hmem
    grind [isBreak]
  rw [cutLine, List.takeWhile_append_of_pos hpasses, List.dropWhile_append_of_pos hpasses]
  simp

/-- Lines that end with a line break each are found again. -/
theorem linesWithin_flatMap
    {lines : List (List Char)}
    (h : ∀ line ∈ lines, OneLine line)
    {bound : Nat}
    (henough : lines.length ≤ bound) :
    linesWithin bound (lines.flatMap (· ++ ['\n'])) = lines := by
  induction lines generalizing bound with
  | nil => cases bound <;> rfl
  | cons line lines ih =>
      cases bound with
      | zero => cases henough
      | succ bound =>
          have here := h line List.mem_cons_self
          have hbare : (line.getLast? == some '\r') = false := by
            refine beq_false_of_ne fun hlast => ?_
            cases here _ (List.mem_of_getLast? hlast)
          have hnonempty : line ++ '\n' :: lines.flatMap (· ++ ['\n']) ≠ [] := by simp
          rw [List.flatMap_cons, List.append_assoc, List.singleton_append, linesWithin.eq_3 _ _
            fun hempty => hnonempty hempty, cutLine_append here]
          simp only [hbare, Bool.and_false, Bool.false_eq_true, if_false, List.cons.injEq, true_and]
          exact ih (fun line hmem => h line (List.mem_cons_of_mem _ hmem))
            (Nat.le_of_succ_le_succ henough)

/-- **Lines without breaks are the lines of the text that is made of them.** -/
theorem lines_join
    {texts : List String}
    (h : ∀ t ∈ texts, Unbroken t) :
    lines (String.join (texts.map (· ++ "\n"))) = texts := by
  have htoList : (String.join (texts.map (· ++ "\n"))).toList =
      (texts.map String.toList).flatMap (· ++ ['\n']) := by
    simp [List.flatMap_map]
  have hunbroken : ∀ line ∈ texts.map String.toList, OneLine line :=
    List.forall_mem_map.2 h
  have henough : (texts.map String.toList).length ≤
    (String.join (texts.map (· ++ "\n"))).length := by
    rw [← String.length_toList, htoList]
    clear htoList hunbroken h
    induction texts with
    | nil => exact Nat.le_refl 0
    | cons t texts ih => simp at ih ⊢; omega
  rw [lines, htoList, linesWithin_flatMap hunbroken henough, List.map_map]
  simp

end Lines

end Text

namespace Java

namespace SourceLine

/-- The line one step further in. -/
def deeper (line : SourceLine) : SourceLine :=
  { line with depth := line.depth + 1 }

theorem unbroken_indent
    (depth : Nat) :
    Text.Unbroken (indent depth) :=
  Text.unbroken_ofList.2 (Text.oneLine_replicate _ rfl)

theorem indent_succ
    (depth : Nat) :
    indent (depth + 1) = "    " ++ indent depth := by
  apply String.toList_injective
  simp [indent, Nat.mul_succ, Nat.add_comm _ 4, List.replicate_add]

/-- **The lines one step further in are the lines of the text with four blanks in front of
each.** -/
theorem renderAll_map_deeper
    {lines : List SourceLine}
    (h : ∀ line ∈ lines, Text.Unbroken line.text) :
    renderAll (lines.map deeper) =
      String.join ((Text.lines (renderAll lines)).map fun l => "    " ++ l ++ "\n") := by
  have hrendered : renderAll lines =
      String.join ((lines.map fun line => indent line.depth ++ line.text).map (· ++ "\n")) := by
    rw [renderAll, List.map_map]
    rfl
  have hunbroken : ∀ t ∈ lines.map fun line => indent line.depth ++ line.text, Text.Unbroken t :=
    List.forall_mem_map.2 fun line hthere =>
      Text.unbroken_append.2 ⟨unbroken_indent _, h line hthere⟩
  rw [hrendered, Text.lines_join hunbroken, renderAll, List.map_map, List.map_map]
  refine congrArg String.join (List.map_congr_left fun line _ => ?_)
  simp only [Function.comp_apply, render, deeper, indent_succ, String.append_assoc]

end SourceLine

namespace Expression

/-- The texts that an expression has beside those of its parts. -/
def ownTexts : Expression → List String
  | .assignment _ _ op => op.toList
  | .binary op _ _ => [op]
  | .unary op _ _ => [op]
  | .invocation _ name _ _ => [name]
  | .creation _ type _ => [type.name]
  | .fieldAccess _ name _ => [name]
  | .arrayAccess .. => []
  | .cast type _ => [type.name]
  | .literal value _ => [value]
  | .localVar name => [name]
  | .typeName type => [type.name]
  | .arrayInitializer type _ => type.toList.map TypeName.name
  | .arrayCreation type _ => [type.name]
  | .parenthesis _ => []
  | .placeholder label _ => [label]

/-- No text in an expression has breaks. -/
def Unbroken : Expression → Prop :=
  Everywhere fun e => ∀ t ∈ e.ownTexts, Text.Unbroken t

theorem unbroken_iff
    {e : Expression} :
    e.Unbroken ↔ (∀ t ∈ e.ownTexts, Text.Unbroken t) ∧ ∀ part ∈ e.parts, part.Unbroken :=
  everywhere_iff

theorem renderAll_eq_map
    (es : List Expression) :
    renderAll es = es.map render := by
  induction es with
  | nil => rfl
  | cons e es ih => rw [renderAll, ih, List.map_cons]

end Expression

theorem unbroken_brackets
    (dims : UInt64) :
    Text.Unbroken (brackets dims) :=
  Text.unbroken_ofList.2 fun c hmem => by
    obtain ⟨pair, hthere, hmem⟩ := List.mem_flatten.1 hmem
    obtain rfl := List.eq_of_mem_replicate hthere
    exact (by decide : Text.OneLine ['[', ']']) c hmem

@[simp] theorem TypeName.unbroken_spelling
    {type : TypeName} :
    Text.Unbroken type.spelling ↔ Text.Unbroken type.name := by
  simp [spelling, unbroken_brackets]

theorem Expression.unbroken_render
    {e : Expression}
    (h : e.Unbroken) :
    Text.Unbroken e.render := by
  induction e using parts_induction with
  | step e ih =>
      obtain ⟨hown, hparts⟩ := unbroken_iff.1 h
      have hpart {x : Expression} (hmem : x ∈ e.parts) : Text.Unbroken x.render :=
        ih x hmem (hparts x hmem)
      have heach {es : List Expression} (hsub : es ⊆ e.parts) :
          ∀ t ∈ renderAll es, Text.Unbroken t := by
        rw [renderAll_eq_map]
        exact List.forall_mem_map.2 fun x hthere => hpart (hsub hthere)
      have hlisted (es : List Expression) (hsub : es ⊆ e.parts) :
          Text.Unbroken (Text.joinWith ", " (renderAll es)) :=
        Text.unbroken_joinWith (by decide) (heach hsub)
      have hsub {xs ys : List Expression} : ys ⊆ xs ++ ys := List.subset_append_right ..
      cases e with
      | assignment target value op =>
          have hop : Text.Unbroken (op.getD "") := by
            cases op with
            | none => decide
            | some op => exact hown op List.mem_cons_self
          simp only [render, Text.unbroken_append, hpart List.mem_cons_self,
            hpart (x := value) (by simp [Expression.parts]), hop]
          decide
      | binary op left right =>
          simp only [render, Text.unbroken_append, hown op List.mem_cons_self,
            hpart (x := left) List.mem_cons_self, hpart (x := right) (by simp [Expression.parts])]
          decide
      | unary op operand after =>
          have hop := hown op List.mem_cons_self
          have hoperand := hpart (x := operand) List.mem_cons_self
          unfold render unaryText
          repeat' split
          all_goals
            simp only [Text.unbroken_append, hop, hoperand]
            decide
      | invocation member name receiver args =>
          have hobject : Text.Unbroken (renderReceiver receiver) := by
            cases receiver with
            | none => decide
            | some receiver =>
                simp only [renderReceiver, Text.unbroken_append,
                  hpart (x := receiver) List.mem_cons_self]
                decide
          simp only [render, Text.unbroken_append, hown name List.mem_cons_self, hobject,
            hlisted args hsub]
          decide
      | creation member type args =>
          simp only [render, Text.unbroken_append, TypeName.unbroken_spelling,
            hown type.name List.mem_cons_self, hlisted args (List.Subset.refl _)]
          decide
      | fieldAccess member name object =>
          simp only [render, Text.unbroken_append, hown name List.mem_cons_self,
            hpart (x := object) List.mem_cons_self]
          decide
      | arrayAccess array index =>
          simp only [render, Text.unbroken_append, hpart (x := array) List.mem_cons_self,
            hpart (x := index) (by simp [Expression.parts])]
          decide
      | cast type operand =>
          simp only [render, Text.unbroken_append, TypeName.unbroken_spelling,
            hown type.name List.mem_cons_self, hpart (x := operand) List.mem_cons_self]
          decide
      | literal value type => exact hown value List.mem_cons_self
      | localVar name => exact hown name List.mem_cons_self
      | typeName type => exact TypeName.unbroken_spelling.2 (hown type.name List.mem_cons_self)
      | arrayInitializer type elements =>
          have hitems := hlisted elements (List.Subset.refl _)
          cases type with
          | none =>
              simp only [render, Text.unbroken_append, hitems]
              decide
          | some type =>
              simp only [render, Text.unbroken_append, TypeName.unbroken_spelling,
                hown type.name List.mem_cons_self, hitems]
              decide
      | arrayCreation type sizes =>
          have hsized : Text.Unbroken
              (String.join ((renderAll sizes).map fun s => "[" ++ s ++ "]")) :=
            Text.unbroken_join <| List.forall_mem_map.2 fun s hmem => by
              simp only [Text.unbroken_append, heach (List.Subset.refl _) s hmem]
              decide
          simp only [render, Text.unbroken_append, hown type.name List.mem_cons_self, hsized,
            unbroken_brackets]
          decide
      | parenthesis inner =>
          simp only [render, Text.unbroken_append, hpart (x := inner) List.mem_cons_self]
          decide
      | placeholder label args =>
          cases args with
          | nil => exact hown label List.mem_cons_self
          | cons arg args =>
              have hargs := hlisted (arg :: args) (List.Subset.refl _)
              rw [renderAll] at hargs
              simp only [render, Text.unbroken_append, hown label List.mem_cons_self, hargs]
              decide

theorem Expression.unbroken_renderInParens
    {e : Expression}
    (h : e.Unbroken) :
    Text.Unbroken e.renderInParens := by
  cases e with
  | parenthesis inner => exact unbroken_render ((unbroken_iff.1 h).2 inner List.mem_cons_self)
  | _ => exact unbroken_render h

/-- No text in the declaration of a variable has breaks. -/
structure VarDecl.Unbroken (decl : VarDecl) : Prop where
  type : Text.Unbroken decl.type.name
  name : Text.Unbroken decl.name

theorem VarDecl.Unbroken.render
    {decl : VarDecl}
    (h : decl.Unbroken) :
    Text.Unbroken decl.render := by
  simp only [VarDecl.render, Text.unbroken_append, TypeName.unbroken_spelling, h.type, h.name]
  decide

mutual

/-- No text in a statement has breaks. -/
def Statement.Unbroken : Statement → Prop
  | .block body => blockUnbroken body
  | .ifThen condition thenBlock elseBlock =>
      condition.Unbroken ∧ blockUnbroken thenBlock ∧ elseUnbroken elseBlock
  | .whileLoop condition body => condition.Unbroken ∧ blockUnbroken body
  | .doLoop condition body => condition.Unbroken ∧ blockUnbroken body
  | .switch selector arms => selector.Unbroken ∧ armsUnbroken arms
  | .tryCatch body clauses => blockUnbroken body ∧ clausesUnbroken clauses
  | .ret value => ∀ e ∈ value, e.Unbroken
  | .throw value => value.Unbroken
  | .expression value => value.Unbroken
  | .declaration decl init => decl.Unbroken ∧ ∀ e ∈ init, e.Unbroken
  | .jump _ label => ∀ name ∈ label, Text.Unbroken name
  | .label name => Text.Unbroken name

/-- No text in a block has breaks. -/
def blockUnbroken : List Statement → Prop
  | [] => True
  | s :: rest => s.Unbroken ∧ blockUnbroken rest

/-- No text in an else branch has breaks. -/
def elseUnbroken : Option (List Statement) → Prop
  | none => True
  | some body => blockUnbroken body

/-- No text in the arms of a switch has breaks. -/
def armsUnbroken : List SwitchArm → Prop
  | [] => True
  | .mk _ _ body :: rest => blockUnbroken body ∧ armsUnbroken rest

/-- No text in handlers has breaks. -/
def clausesUnbroken : List CatchClause → Prop
  | [] => True
  | .mk decl body :: rest => (decl.Unbroken ∧ blockUnbroken body) ∧ clausesUnbroken rest

end

@[simp] theorem blockUnbroken_append
    {body body' : Block} :
    blockUnbroken (body ++ body') ↔ blockUnbroken body ∧ blockUnbroken body' := by
  induction body with
  | nil => simp [blockUnbroken]
  | cons s body ih => simp [blockUnbroken, ih, and_assoc]

@[simp] theorem armsUnbroken_append
    {arms arms' : List SwitchArm} :
    armsUnbroken (arms ++ arms') ↔ armsUnbroken arms ∧ armsUnbroken arms' := by
  induction arms with
  | nil => simp [armsUnbroken]
  | cons arm arms ih =>
      obtain ⟨keys, isDefault, body⟩ := arm
      simp [armsUnbroken, ih, and_assoc]

/-- Lines without breaks, which a greater depth only moves in. -/
structure Indents (lines : Nat → List SourceLine) : Prop where
  succ : ∀ depth, lines (depth + 1) = (lines depth).map SourceLine.deeper
  unbroken : ∀ depth, ∀ line ∈ lines depth, Text.Unbroken line.text

namespace Indents

variable {lines lines' : Nat → List SourceLine} {text : String}

theorem nil :
    Indents fun _ => [] :=
  ⟨fun _ => rfl, nofun⟩

theorem cons
    (ht : Text.Unbroken text)
    (h : Indents lines) :
    Indents fun depth => ⟨depth, text⟩ :: lines depth where
  succ depth := by rw [List.map_cons, ← h.succ]; rfl
  unbroken depth := List.forall_mem_cons.2 ⟨ht, h.unbroken depth⟩

theorem append
    (h : Indents lines)
    (h' : Indents lines') :
    Indents fun depth => lines depth ++ lines' depth where
  succ depth := by rw [List.map_append, h.succ, h'.succ]
  unbroken depth := List.forall_mem_append.2 ⟨h.unbroken depth, h'.unbroken depth⟩

theorem inner
    (h : Indents lines) :
    Indents fun depth => lines (depth + 1) where
  succ depth := h.succ (depth + 1)
  unbroken depth := h.unbroken (depth + 1)

theorem single
    (ht : Text.Unbroken text) :
    Indents fun depth => [⟨depth, text⟩] :=
  nil.cons ht

theorem all
    {α : Type}
    {xs : List α}
    {text : α → String}
    (h : ∀ x ∈ xs, Text.Unbroken (text x)) :
    Indents fun depth => xs.map fun x => ⟨depth, text x⟩ where
  succ depth := by rw [List.map_map]; rfl
  unbroken depth := List.forall_mem_map.2 h

end Indents

theorem unbroken_closing :
    Text.Unbroken "\x7d" := by decide

theorem unbroken_between
    {front back s : String}
    (hf : Text.Unbroken front)
    (hb : Text.Unbroken back)
    (h : Text.Unbroken s) :
    Text.Unbroken (front ++ s ++ back) :=
  Text.unbroken_append.2 ⟨Text.unbroken_append.2 ⟨hf, h⟩, hb⟩

mutual

theorem Statement.indents :
    ∀ s : Statement, s.Unbroken → Indents (s.lines ·)
  | .block body, h =>
      .cons (by decide) ((Block.indents body h).inner.append (.single unbroken_closing))
  | .ifThen condition thenBlock elseBlock, ⟨hc, ht, he⟩ =>
      .cons (unbroken_between (by decide) (by decide) (Expression.unbroken_renderInParens hc))
        (((Block.indents thenBlock ht).inner.append (elseIndents elseBlock he)).append
          (.single unbroken_closing))
  | .whileLoop condition body, ⟨hc, hb⟩ =>
      .cons (unbroken_between (by decide) (by decide) (Expression.unbroken_renderInParens hc))
        ((Block.indents body hb).inner.append (.single unbroken_closing))
  | .doLoop condition body, ⟨hc, hb⟩ =>
      .cons (by decide)
        ((Block.indents body hb).inner.append
          (.single (unbroken_between (by decide) (by decide)
            (Expression.unbroken_renderInParens hc))))
  | .switch selector arms, ⟨hs, ha⟩ =>
      .cons (unbroken_between (by decide) (by decide) (Expression.unbroken_renderInParens hs))
        ((armsIndents arms ha).inner.append (.single unbroken_closing))
  | .tryCatch body clauses, ⟨hb, hc⟩ =>
      .cons (by decide)
        (((Block.indents body hb).inner.append (clausesIndents clauses hc)).append
          (.single unbroken_closing))
  | .ret none, _ => .single (by decide)
  | .ret (some value), h =>
      .single (unbroken_between (by decide) (by decide)
        (Expression.unbroken_render (h value rfl)))
  | .throw value, h =>
      .single (unbroken_between (by decide) (by decide) (Expression.unbroken_render h))
  | .expression value, h =>
      .single (Text.unbroken_append.2 ⟨Expression.unbroken_render h, by decide⟩)
  | .declaration decl none, ⟨hd, _⟩ =>
      .single (Text.unbroken_append.2 ⟨hd.render, by decide⟩)
  | .declaration decl (some init), ⟨hd, hi⟩ => by
      refine .single ?_
      simp only [Text.unbroken_append, hd.render,
        Expression.unbroken_render (hi init rfl)]
      decide
  | .jump kind none, _ => .single (by cases kind <;> decide)
  | .jump kind (some label), h => by
      refine .single ?_
      simp only [Text.unbroken_append, h label rfl]
      cases kind <;> decide
  | .label name, h => .single (Text.unbroken_append.2 ⟨h, by decide⟩)

theorem Block.indents :
    ∀ body : Block, blockUnbroken body → Indents (Block.lines · body)
  | [], _ => .nil
  | s :: rest, ⟨hs, hrest⟩ => (Statement.indents s hs).append (Block.indents rest hrest)

theorem elseIndents :
    ∀ body : Option Block, elseUnbroken body → Indents (elseLines · body)
  | none, _ => .nil
  | some body, h => .cons (by decide) (Block.indents body h).inner

theorem armsIndents :
    ∀ arms : List SwitchArm, armsUnbroken arms → Indents (armsLines · arms)
  | [], _ => .nil
  | .mk keys isDefault body :: rest, ⟨hb, hrest⟩ => by
      have tests : Indents fun depth =>
          keys.map fun key => (⟨depth, "case " ++ toString key.toInt ++ ":"⟩ : SourceLine) :=
        .all fun key _ =>
          unbroken_between (by decide) (by decide) (Text.unbroken_toString_int _)
      have default : Indents fun depth =>
          if isDefault then [(⟨depth, "default:"⟩ : SourceLine)] else [] := by
        cases isDefault with
        | true => exact .single (by decide)
        | false => exact .nil
      exact ((tests.append default).append (Block.indents body hb).inner).append
        (armsIndents rest hrest)

theorem clausesIndents :
    ∀ clauses : List CatchClause, clausesUnbroken clauses →
      Indents (clausesLines · clauses)
  | [], _ => .nil
  | .mk decl body :: rest, ⟨⟨hd, hb⟩, hrest⟩ =>
      .append (.cons (unbroken_between (by decide) (by decide) hd.render)
        (Block.indents body hb).inner) (clausesIndents rest hrest)

end

namespace Method

/-- No text in a method has breaks. -/
structure Unbroken (m : Method) : Prop where
  owner : Text.Unbroken m.member.owner
  name : Text.Unbroken m.member.name
  flags : ∀ flag ∈ m.flags, Text.Unbroken flag
  returns : Text.Unbroken m.returns.name
  params : ∀ decl ∈ m.params, decl.Unbroken
  comments : ∀ comment ∈ m.comments, Text.Unbroken comment
  body : ∀ body ∈ m.body, blockUnbroken body

variable {m : Method}

theorem unbroken_signature
    (h : m.Unbroken) :
    Text.Unbroken m.signature := by
  have hsimple : Text.Unbroken (simpleName m.member.owner) :=
    Text.unbroken_ofList.2 fun c hmem =>
      h.owner c (List.mem_reverse.1 ((List.takeWhile_subset _) (List.mem_reverse.1 hmem)))
  have hparams : Text.Unbroken (Text.joinWith ", " (m.params.map VarDecl.render)) :=
    Text.unbroken_joinWith (by decide)
      (List.forall_mem_map.2 fun decl hmem => (h.params decl hmem).render)
  have hlisted : Text.Unbroken ("(" ++ Text.joinWith ", " (m.params.map VarDecl.render) ++ ")") :=
    unbroken_between (by decide) (by decide) hparams
  unfold signature
  split
  · decide
  · refine Text.unbroken_joinWith (by decide) (List.forall_mem_append.2 ⟨h.flags, ?_⟩)
    split
    · simpa using ⟨hsimple, by simpa using hlisted⟩
    · simpa using ⟨h.returns, h.name, by simpa using hlisted⟩

theorem indents
    (h : m.Unbroken) :
    Indents m.lines := by
  have hcomments : Indents fun depth =>
      m.comments.map fun comment => (⟨depth, "// " ++ comment⟩ : SourceLine) :=
    .all fun comment hmem => Text.unbroken_append.2 ⟨by decide, h.comments comment hmem⟩
  have hsignature := unbroken_signature h
  refine hcomments.append ?_
  cases hfound : m.body with
  | none => exact .single (Text.unbroken_append.2 ⟨hsignature, by decide⟩)
  | some body =>
      exact .cons (Text.unbroken_append.2 ⟨hsignature, by decide⟩)
        ((Block.indents body (h.body body hfound)).inner.append (.single unbroken_closing))

/-- **The source of a method one step further in** is its source with four blanks in front of each
line. -/
theorem render_succ
    (h : m.Unbroken)
    (depth : Nat) :
    m.render (depth + 1) =
      String.join ((Text.lines (m.render depth)).map fun l => "    " ++ l ++ "\n") := by
  rw [render, indents h |>.succ]
  exact SourceLine.renderAll_map_deeper ((indents h).unbroken depth)

end Method

end Java
end DalvikDecompiler
