import DalvikDecompiler.Java.Format
import DalvikDecompiler.Proofs.Bytecode.RoundTrip

/-!
# The JSON form of a syntax tree is read as that tree

**Input.** Expressions, statements, methods and classes of Java source, nested to any depth.

A reader goes no deeper than the value it reads.  What is written at some depth is therefore read by
induction on this depth: an alternative is found by its name, which no other alternative has, and
each part stands less deeply than the whole.  The text on one line gives the value back as far as
reading text goes at all, which is 127 arrays and objects inside one another.

**Results.**
* `Expression.travelsWithin`, `Statement.travelsWithin`: what is nested no deeper than a bound is
  read again with this bound, in any position.
* `Method.travelsWithin`, `Class.travelsWithin`: methods and classes are read again.
* `trees_ofJson?_toJson`: every method and class is read again from its JSON value, and from the
  text of this value unless it is nested too deeply for text.
-/

namespace DalvikDecompiler

open Json (Portable depthOfItems depthOfMembers ofOption ofList)

namespace Json

attribute [simp] Portable.null Portable.bool Portable.string

theorem depth_le_depthOfItems
    {item : Json}
    {items : List Json}
    (hmem : item ∈ items) :
    item.depth ≤ depthOfItems items := by
  induction items with
  | nil => cases hmem
  | cons first rest ih =>
      rw [depthOfItems]
      rcases List.mem_cons.1 hmem with rfl | hmem
      · exact le_max_left _ _
      · exact (ih hmem).trans (le_max_right _ _)

theorem depth_le_depthOfMembers
    {m : String × Json}
    {members : List (String × Json)}
    (hmem : m ∈ members) :
    m.2.depth ≤ depthOfMembers members := by
  induction members with
  | nil => cases hmem
  | cons first rest ih =>
      rw [depthOfMembers]
      rcases List.mem_cons.1 hmem with rfl | hmem
      · exact le_max_left _ _
      · exact (ih hmem).trans (le_max_right _ _)

/-- What can be printed and read again need not be given more room than its own depth. -/
theorem Portable.within
    {n m : Nat}
    {j : Json}
    (h : Portable n j)
    (hdeep : j.depth ≤ m) :
    Portable m j := by
  induction h generalizing m with
  | null => exact .null
  | bool b => exact .bool b
  | int hlow high => exact .int hlow high
  | string s => exact .string s
  | array _ ih =>
      rw [depth] at hdeep
      obtain ⟨k, rfl⟩ := Nat.exists_eq_add_of_le' (Nat.succ_le_of_lt hdeep)
      exact .array fun item hmem =>
        ih item hmem ((depth_le_depthOfItems hmem).trans (Nat.le_of_succ_le_succ hdeep))
  | object hdistinct _ ih =>
      rw [depth] at hdeep
      obtain ⟨k, rfl⟩ := Nat.exists_eq_add_of_le' (Nat.succ_le_of_lt hdeep)
      exact .object hdistinct fun m hmem =>
        ih m hmem ((depth_le_depthOfMembers hmem).trans (Nat.le_of_succ_le_succ hdeep))

theorem depth_le_of_mem
    {n : Nat}
    {members : List (String × Json)}
    (hdeep : (Json.object members).depth ≤ n)
    {m : String × Json}
    (hmem : m ∈ members) :
    m.2.depth ≤ n := by
  rw [depth] at hdeep
  exact (depth_le_depthOfMembers hmem).trans (Nat.le_of_succ_le hdeep)

theorem optionalField?_nil
    (name : String)
    {α : Type}
    (read : Json → Option α) :
    (Json.object []).optionalField? name read = some none :=
  rfl

end Json

/-- What is nested no deeper than a bound is read again, and its text gives it back. -/
structure TravelsWithin {α : Type} (write : α → Json) (read : Json → Option α) (n : Nat) :
    Prop where
  read_write : ∀ x, (write x).depth ≤ n → read (write x) = some x
  portable : ∀ x, (write x).depth ≤ n → Portable n (write x)

section Values

variable {α : Type} {write : α → Json} {read : Json → Option α} {n : Nat}

theorem Travels.within
    (h : Travels write read n)
    (m : Nat) :
    TravelsWithin write read m :=
  ⟨fun x _ => h.read_write x, fun x hdeep => (h.portable x).within hdeep⟩

/-- The text of what is written is read as what was written, as deep as text may be nested. -/
theorem TravelsWithin.read_parse?_compact
    (h : TravelsWithin write read Json.nestingLimit)
    (x : α)
    (hdeep : (write x).depth ≤ Json.nestingLimit) :
    (Json.parse? (write x).compact).bind read = some x := by
  rw [Json.parse?_compact (h.portable x hdeep), Option.bind_some, h.read_write x hdeep]

theorem TravelsWithin.list
    (h : TravelsWithin write read n) :
    TravelsWithin (ofList write) (Json.asList? read) n := by
  have hinside (xs : List α) (hdeep : (ofList write xs).depth ≤ n) (x) (hmem : x ∈ xs) :
      (write x).depth ≤ n := by
    rw [ofList, Json.depth] at hdeep
    exact (Json.depth_le_depthOfItems (List.mem_map_of_mem hmem)).trans (Nat.le_of_succ_le hdeep)
  constructor
  · intro xs hdeep
    exact asList?_ofList fun x hmem => h.read_write x (hinside xs hdeep x hmem)
  · intro xs hdeep
    refine Portable.within (.array (n := n) fun item hlisted => ?_) hdeep
    obtain ⟨x, hmem, rfl⟩ := List.mem_map.1 hlisted
    exact h.portable x (hinside xs hdeep x hmem)

theorem TravelsWithin.option
    (h : TravelsWithin write read n)
    (hpresent : ∀ x, write x ≠ .null) :
    TravelsWithin (ofOption write) (Json.asOption? read) n where
  read_write x hdeep := by
    cases x with
    | none => rfl
    | some x =>
        have := hpresent x
        have hreads := h.read_write x hdeep
        unfold ofOption Json.asOption?
        split
        · next habsent => exact absurd habsent this
        · rw [hreads]
          rfl
  portable x hdeep := by
    cases x with
    | none => exact .null
    | some x => exact h.portable x hdeep

end Values

namespace Java

section Records

-- The number of dimensions is read with a proof for every step (`-implicitDefEqProofs`), so that
-- the kernel does not compare it with the bounds of its type by computation.

theorem Member.travels :
    Travels Member.toJson Member.ofJson? 1 where
  read_write _ := by
    simp [Member.toJson, Member.ofJson?]
  portable m := .object (by simp) (by simp [Portable.string])

/-- The members of a type are found behind others, too. -/
theorem TypeName.ofJson?_members
    (t : TypeName)
    {other : String}
    {value : Json}
    (hname : "name" ≠ other)
    (hdim : "dim" ≠ other) :
    TypeName.ofJson? (.object ((other, value) :: t.members)) = some t := by
  have hdims := travels_uint64.read_write t.dims
  simp -implicitDefEqProofs [TypeName.members, TypeName.ofJson?, hdims, hname, hdim]

theorem TypeName.portable_members
    (t : TypeName)
    (n : Nat) :
    ∀ m ∈ t.members, Portable n m.2 := by
  have hdims := (travels_uint64.portable t.dims).mono (Nat.zero_le n)
  simp [TypeName.members, Portable.string, hdims]

theorem TypeName.travels :
    Travels TypeName.toJson TypeName.ofJson? 1 where
  read_write t := by
    have hdims := travels_uint64.read_write t.dims
    simp -implicitDefEqProofs [TypeName.toJson, TypeName.members, TypeName.ofJson?, hdims]
  portable t := .object (by simp [TypeName.members]) (t.portable_members 0)

theorem VarDecl.travels :
    Travels VarDecl.toJson VarDecl.ofJson? 2 where
  read_write d := by
    have htype := TypeName.travels.read_write d.type
    simp -implicitDefEqProofs [VarDecl.toJson, VarDecl.ofJson?, htype]
  portable d := .object (by simp) (by simp [Portable.string, TypeName.travels.portable d.type])

end Records

section Alternatives

variable {forms : List Form} {position : Position} {name : String} {members : List (String × Json)}

@[simp] theorem depth_variant :
    (variant name members).depth = depthOfMembers members + 1 := by
  simp [variant, Json.depth, depthOfMembers]

/-- The alternative that an object names. -/
@[simp] theorem alternative?_variant :
    alternative? forms position (variant name members) =
      (forms.find? fun form => form.name == name).bind fun form =>
        some (form.name, .object (("type", .string name) :: members)) := by
  simp [alternative?, variant, formOf?]

@[simp] theorem portable_variant
    {n : Nat} :
    Portable (n + 1) (variant name members) ↔
      ("type" :: members.map Prod.fst).Nodup ∧ ∀ m ∈ members, Portable n m.2 := by
  constructor
  · intro h
    cases h with
    | object hdistinct hparts => exact ⟨hdistinct, (List.forall_mem_cons.1 hparts).2⟩
  · rintro ⟨hdistinct, hparts⟩
    exact .object hdistinct (List.forall_mem_cons.2 ⟨.string name, hparts⟩)

end Alternatives

namespace Expression

theorem array_listToJson
    (es : List Expression) :
    .array (listToJson es) = ofList toJson es := by
  rw [ofList]
  congr 1
  induction es with
  | nil => rfl
  | cons e es ih => rw [listToJson, ih, List.map_cons]

theorem optionToJson_eq
    (e : Option Expression) :
    optionToJson e = ofOption toJson e := by
  cases e <;> rfl

theorem toJson_ne_null
    (e : Expression) :
    e.toJson ≠ .null := by
  cases e <;> simp [toJson, variant]

theorem depth_pos
    (e : Expression) :
    0 < e.toJson.depth := by
  cases e <;> simp [toJson]

variable {bound : Nat}

/-- An expression is read again, and its text gives it back, if this holds of its parts. -/
theorem travels_succ
    (hparts : TravelsWithin toJson (ofJsonWithin? bound .inner) bound)
    (position : Position) :
    TravelsWithin toJson (ofJsonWithin? (bound + 1) position) (bound + 1) := by
  have hlists := hparts.list
  have hoptions := hparts.option toJson_ne_null
  have hmember := Member.travels.within bound
  have hmembers := (travels_option Member.travels (by simp [Member.toJson])).within bound
  have htype := TypeName.travels.within bound
  have htypes := (travels_option TypeName.travels (by simp [TypeName.toJson])).within bound
  have htext := travels_text.within bound
  suffices hboth : ∀ e : Expression, e.toJson.depth ≤ bound + 1 →
      ofJsonWithin? (bound + 1) position e.toJson = some e ∧ Portable (bound + 1) e.toJson from
    ⟨fun e hdeep => (hboth e hdeep).1, fun e hdeep => (hboth e hdeep).2⟩
  intro e hdeep
  unfold ofJsonWithin?
  cases e with
  | assignment target value op =>
      simp [toJson, depthOfMembers] at hdeep
      simp -implicitDefEqProofs [toJson, forms, Form.full, hparts.read_write, hparts.portable,
        htext.read_write, htext.portable, hdeep]
  | binary op left right =>
      simp [toJson, depthOfMembers] at hdeep
      simp -implicitDefEqProofs [toJson, forms, Form.full, hparts.read_write,
        hparts.portable, hdeep]
  | unary op operand after =>
      simp [toJson, depthOfMembers] at hdeep
      simp -implicitDefEqProofs [toJson, forms, Form.full, hparts.read_write, hparts.portable,
        Json.asBool?, hdeep]
  | invocation m name receiver args =>
      simp [toJson, depthOfMembers, optionToJson_eq, array_listToJson] at hdeep
      simp -implicitDefEqProofs [toJson, forms, Form.full, optionToJson_eq, array_listToJson,
        hmember.read_write, hmember.portable, hoptions.read_write, hoptions.portable,
          hlists.read_write,
        hlists.portable, hdeep]
  | creation m t args =>
      simp [toJson, depthOfMembers, array_listToJson] at hdeep
      simp -implicitDefEqProofs [toJson, forms, Form.full, array_listToJson, hmember.read_write,
        hmember.portable, htype.read_write, htype.portable, hlists.read_write,
          hlists.portable, hdeep]
  | fieldAccess m name object =>
      simp [toJson, depthOfMembers] at hdeep
      simp -implicitDefEqProofs [toJson, forms, Form.full, hmembers.read_write, hmembers.portable,
        hparts.read_write, hparts.portable, hdeep]
  | arrayAccess array index =>
      simp [toJson, depthOfMembers] at hdeep
      simp -implicitDefEqProofs [toJson, forms, Form.full, hparts.read_write,
        hparts.portable, hdeep]
  | cast t operand =>
      simp [toJson, depthOfMembers] at hdeep
      simp -implicitDefEqProofs [toJson, forms, Form.full, htype.read_write, htype.portable,
        hparts.read_write, hparts.portable, hdeep]
  | literal value t =>
      simp [toJson, depthOfMembers] at hdeep
      simp -implicitDefEqProofs [toJson, forms, Form.full, htype.read_write, htype.portable, hdeep]
  | localVar name =>
      simp -implicitDefEqProofs [toJson, forms, Form.full]
  | typeName t =>
      rw [toJson]
      exact ⟨by simp -implicitDefEqProofs [forms, Form.full, t.ofJson?_members],
        portable_variant.2 ⟨by simp [TypeName.members], t.portable_members bound⟩⟩
  | arrayInitializer t elements =>
      simp [toJson, depthOfMembers, array_listToJson] at hdeep
      simp -implicitDefEqProofs [toJson, forms, Form.full, array_listToJson, htypes.read_write,
        htypes.portable, hlists.read_write, hlists.portable, hdeep]
  | arrayCreation t sizes =>
      simp [toJson, depthOfMembers, array_listToJson] at hdeep
      simp -implicitDefEqProofs [toJson, forms, Form.full, array_listToJson, htype.read_write,
        htype.portable, hlists.read_write, hlists.portable, hdeep]
  | parenthesis inner =>
      simp [toJson, depthOfMembers] at hdeep
      simp -implicitDefEqProofs [toJson, forms, Form.full, hparts.read_write,
        hparts.portable, hdeep]
  | placeholder label args =>
      simp [toJson, depthOfMembers, array_listToJson] at hdeep
      simp -implicitDefEqProofs [toJson, forms, Form.full, array_listToJson, hlists.read_write,
        hlists.portable, hdeep]

/-- An expression is read again in any position, within its own depth. -/
theorem travelsWithin
    (bound : Nat)
    (position : Position) :
    TravelsWithin toJson (ofJsonWithin? bound position) bound := by
  induction bound generalizing position with
  | zero =>
      have habsent (e : Expression) : ¬ e.toJson.depth ≤ 0 := Nat.not_le.2 e.depth_pos
      exact ⟨fun e hdeep => absurd hdeep (habsent e), fun e hdeep => absurd hdeep (habsent e)⟩
  | succ bound ih => exact travels_succ (ih .inner) position

theorem ofJsonAt?_toJson
    (position : Position)
    (e : Expression) :
    ofJsonAt? position e.toJson = some e :=
  (travelsWithin _ position).read_write e (le_refl _)

theorem travelsAt
    (bound : Nat)
    (position : Position) :
    TravelsWithin toJson (ofJsonAt? position) bound :=
  ⟨fun e _ => ofJsonAt?_toJson position e, (travelsWithin bound position).portable⟩

end Expression

section Blocks

theorem Block.array_listToJson
    (body : Block) :
    .array (Block.listToJson body) = ofList Statement.toJson body := by
  rw [ofList]
  congr 1
  induction body with
  | nil => rfl
  | cons statement rest ih => rw [Block.listToJson, ih, List.map_cons]

theorem Block.toJson_eq
    (body : Block) :
    Block.toJson body = .object [("statements", ofList Statement.toJson body)] := by
  rw [Block.toJson, blockObject, Block.array_listToJson]

theorem Block.optionToJson_eq
    (body : Option Block) :
    Block.optionToJson body = ofOption Block.toJson body := by
  cases body <;> rfl

theorem SwitchArm.array_listToJson
    (arms : List SwitchArm) :
    .array (SwitchArm.listToJson arms) = ofList SwitchArm.toJson arms := by
  rw [ofList]
  congr 1
  induction arms with
  | nil => rfl
  | cons arm rest ih => rw [SwitchArm.listToJson, ih, List.map_cons]

theorem CatchClause.array_listToJson
    (clauses : List CatchClause) :
    .array (CatchClause.listToJson clauses) = ofList CatchClause.toJson clauses := by
  rw [ofList]
  congr 1
  induction clauses with
  | nil => rfl
  | cons clause rest ih => rw [CatchClause.listToJson, ih, List.map_cons]

variable {n : Nat} {read : Json → Option Statement} {readBlock : Json → Option Block}

theorem blockObject_listToJson
    (body : Block) :
    blockObject (Block.listToJson body) = Block.toJson body :=
  rfl

/-- A record goes as far as its own depth if its fields do. -/
theorem portable_object
    {members : List (String × Json)}
    (hdeep : (Json.object members).depth ≤ n)
    (hdistinct : (members.map Prod.fst).Nodup)
    (hparts : ∀ m ∈ members, m.2.depth ≤ n → Portable n m.2) :
    Portable n (.object members) :=
  (Portable.object hdistinct fun m hmem => hparts m hmem (Json.depth_le_of_mem hdeep hmem)).within
    hdeep

theorem Block.toJson_ne_null
    (body : Block) :
    Block.toJson body ≠ .null := by
  simp [Block.toJson_eq]

/-- A block is read again if its statements are. -/
theorem Block.travelsWithin
    (hstatements : TravelsWithin Statement.toJson read n) :
    TravelsWithin Block.toJson (Block.readWith? read) n := by
  have hlists := hstatements.list
  constructor
  · intro body hdeep
    rw [Block.toJson_eq] at hdeep ⊢
    have hinside := Json.depth_le_of_mem hdeep List.mem_cons_self
    simp [Block.readWith?, hlists.read_write body hinside]
  · intro body hdeep
    rw [Block.toJson_eq] at hdeep ⊢
    exact portable_object hdeep (by simp) (by simpa using hlists.portable body)

theorem SwitchArm.toJson_mk
    (keys : List Int32)
    (isDefault : Bool)
    (body : Block) :
    SwitchArm.toJson (.mk keys isDefault body) =
      .object [("keys", ofList (fun key => .ofInt key.toInt) keys), ("is_default", .bool isDefault),
        ("body", Block.toJson body)] := by
  rw [SwitchArm.toJson, Block.toJson]

/-- An arm of a switch is read again if its body is. -/
theorem SwitchArm.travelsWithin
    (hbodies : TravelsWithin Block.toJson readBlock n) :
    TravelsWithin SwitchArm.toJson (SwitchArm.readWith? readBlock) n := by
  have hkeys := (travels_list travels_int32).within
  constructor
  · rintro ⟨labels, isDefault, body⟩ hdeep
    rw [SwitchArm.toJson_mk] at hdeep ⊢
    have hlabels := (hkeys _).read_write labels (le_refl _)
    have hinside := Json.depth_le_of_mem (m := ("body", Block.toJson body)) hdeep (by simp)
    have hbody := hbodies.read_write body hinside
    simp -implicitDefEqProofs [SwitchArm.readWith?, Json.asBool?, hlabels, hbody]
  · rintro ⟨labels, isDefault, body⟩ hdeep
    rw [SwitchArm.toJson_mk] at hdeep ⊢
    refine portable_object hdeep (by simp) ?_
    simpa using ⟨(hkeys n).portable labels, hbodies.portable body⟩

theorem CatchClause.toJson_mk
    (decl : VarDecl)
    (body : Block) :
    CatchClause.toJson (.mk decl body) =
      .object [("decl", decl.toJson), ("body", Block.toJson body)] := by
  rw [CatchClause.toJson, Block.toJson]

/-- A handler is read again if its body is. -/
theorem CatchClause.travelsWithin
    (hbodies : TravelsWithin Block.toJson readBlock n) :
    TravelsWithin CatchClause.toJson (CatchClause.readWith? readBlock) n := by
  have hdecls := VarDecl.travels.within n
  constructor
  · rintro ⟨decl, body⟩ hdeep
    rw [CatchClause.toJson_mk] at hdeep ⊢
    have hinside := Json.depth_le_of_mem (m := ("body", Block.toJson body)) hdeep (by simp)
    have hbody := hbodies.read_write body hinside
    simp -implicitDefEqProofs [CatchClause.readWith?, VarDecl.travels.read_write, hbody]
  · rintro ⟨decl, body⟩ hdeep
    rw [CatchClause.toJson_mk] at hdeep ⊢
    refine portable_object hdeep (by simp) ?_
    simpa using ⟨hdecls.portable decl, hbodies.portable body⟩

end Blocks

theorem JumpKind.ofJson?_keyword
    (kind : JumpKind) :
    JumpKind.ofJson? (.string kind.keyword) = some kind := by
  cases kind <;> rfl

namespace Statement

theorem depth_pos
    (s : Statement) :
    0 < s.toJson.depth := by
  cases s with
  | jump kind label => cases label <;> simp [toJson]
  | _ => simp [toJson]

variable {bound : Nat}

/-- A statement is read again, and its text gives it back, if this holds of its parts. -/
theorem travels_succ
    (hparts : TravelsWithin toJson (ofJsonWithin? bound .inner) bound)
    (position : Position) :
    TravelsWithin toJson (ofJsonWithin? (bound + 1) position) (bound + 1) := by
  have hlists := hparts.list
  have hblocks := Block.travelsWithin hparts
  have hoptions := hblocks.option Block.toJson_ne_null
  have harms := (SwitchArm.travelsWithin hblocks).list
  have hclauses := (CatchClause.travelsWithin hblocks).list
  have hvalues := Expression.travelsAt bound .inner
  have hoptional := hvalues.option Expression.toJson_ne_null
  have hdecls := VarDecl.travels.within bound
  suffices hboth : ∀ s : Statement, s.toJson.depth ≤ bound + 1 →
      ofJsonWithin? (bound + 1) position s.toJson = some s ∧ Portable (bound + 1) s.toJson from
    ⟨fun s hdeep => (hboth s hdeep).1, fun s hdeep => (hboth s hdeep).2⟩
  intro s hdeep
  unfold ofJsonWithin?
  cases s with
  | block body =>
      simp [toJson, depthOfMembers, Block.array_listToJson] at hdeep
      simp -implicitDefEqProofs [toJson, forms, Form.full, Block.array_listToJson, Block.readWith?,
        hlists.read_write, hlists.portable, hdeep]
  | ifThen condition thenBlock elseBlock =>
      simp [toJson, depthOfMembers, blockObject_listToJson, Block.optionToJson_eq] at hdeep
      simp -implicitDefEqProofs [toJson, forms, Form.full, blockObject_listToJson,
        Block.optionToJson_eq,
        hvalues.read_write, hvalues.portable, hblocks.read_write, hblocks.portable,
          hoptions.read_write,
        hoptions.portable, hdeep]
  | whileLoop condition body =>
      simp [toJson, depthOfMembers, blockObject_listToJson] at hdeep
      simp -implicitDefEqProofs [toJson, forms, Form.full, blockObject_listToJson,
        hvalues.read_write, hvalues.portable,
        hblocks.read_write, hblocks.portable, hdeep]
  | doLoop condition body =>
      simp [toJson, depthOfMembers, blockObject_listToJson] at hdeep
      simp -implicitDefEqProofs [toJson, forms, Form.full, blockObject_listToJson,
        hvalues.read_write, hvalues.portable,
        hblocks.read_write, hblocks.portable, hdeep]
  | switch selector cases =>
      simp [toJson, depthOfMembers, SwitchArm.array_listToJson] at hdeep
      simp -implicitDefEqProofs [toJson, forms, Form.full, SwitchArm.array_listToJson,
        hvalues.read_write,
        hvalues.portable, harms.read_write, harms.portable, hdeep]
  | tryCatch body handlers =>
      simp [toJson, depthOfMembers, blockObject_listToJson, CatchClause.array_listToJson] at hdeep
      simp -implicitDefEqProofs [toJson, forms, Form.full, blockObject_listToJson,
        CatchClause.array_listToJson,
        hblocks.read_write, hblocks.portable, hclauses.read_write, hclauses.portable, hdeep]
  | ret value =>
      simp [toJson, depthOfMembers] at hdeep
      simp -implicitDefEqProofs [toJson, forms, Form.full, hoptional.read_write, hoptional.portable,
        hdeep]
  | throw value =>
      simp [toJson, depthOfMembers] at hdeep
      simp -implicitDefEqProofs [toJson, forms, Form.full, hvalues.read_write,
        hvalues.portable, hdeep]
  | expression value =>
      simp [toJson, depthOfMembers] at hdeep
      simp -implicitDefEqProofs [toJson, forms, Form.full, hvalues.read_write,
        hvalues.portable, hdeep]
  | declaration decl init =>
      simp [toJson, depthOfMembers] at hdeep
      simp -implicitDefEqProofs [toJson, forms, Form.full, hdecls.read_write, hdecls.portable,
        hoptional.read_write,
        hoptional.portable, hdeep]
  | jump kind label =>
      cases label <;>
        simp -implicitDefEqProofs [toJson, forms, Form.full, JumpKind.ofJson?_keyword,
          Json.optionalField?_nil,
          Json.asOption?]
  | label name =>
      simp -implicitDefEqProofs [toJson, forms, Form.full]

/-- A statement is read again in any position, within its own depth. -/
theorem travelsWithin
    (bound : Nat)
    (position : Position) :
    TravelsWithin toJson (ofJsonWithin? bound position) bound := by
  induction bound generalizing position with
  | zero =>
      have habsent (s : Statement) : ¬ s.toJson.depth ≤ 0 := Nat.not_le.2 s.depth_pos
      exact ⟨fun s hdeep => absurd hdeep (habsent s), fun s hdeep => absurd hdeep (habsent s)⟩
  | succ bound ih => exact travels_succ (ih .inner) position

theorem travels
    (n : Nat) :
    TravelsWithin toJson ofJson? n where
  read_write s _ := (travelsWithin _ .outer).read_write s (le_refl _)
  portable := (travelsWithin n .outer).portable

end Statement

section Members

theorem travels_names :
    Travels (ofList Json.string) (Json.asList? Json.asString?) 1 :=
  travels_list travels_string

/-- A method is read again; its body is the only part that may be nested to any depth. -/
theorem Method.travelsWithin
    (n : Nat) :
    TravelsWithin Method.toJson Method.ofJson? n := by
  have hbody (n) : TravelsWithin (ofOption Block.toJson) (Json.asOption? Block.ofJson?) n :=
    (Block.travelsWithin (Statement.travels n)).option Block.toJson_ne_null
  have hparams := travels_list VarDecl.travels
  constructor
  · intro m hdeep
    have hbody := (hbody _).read_write m.body (le_refl _)
    simp -implicitDefEqProofs [Method.toJson, Method.ofJson?, Member.travels.read_write,
      travels_names.read_write, TypeName.travels.read_write, hparams.read_write, hbody]
  · intro m hdeep
    rw [Method.toJson] at hdeep ⊢
    refine portable_object hdeep (by simp) ?_
    simp +contextual [(Member.travels.within n).portable, (travels_names.within n).portable,
      (TypeName.travels.within n).portable, (hparams.within n).portable, (hbody n).portable]

theorem Field.travels :
    Travels Field.toJson Field.ofJson? 2 where
  read_write f := by
    simp -implicitDefEqProofs [Field.toJson, Field.ofJson?, TypeName.travels.read_write,
      travels_names.read_write, travels_text.read_write]
  portable f := by
    have htype := TypeName.travels.portable f.type
    have hnames := travels_names.portable f.flags
    have hvalue := Bytecode.portable_leaf travels_text 1 f.value
    exact .object (by simp) (by simp [htype, hnames, hvalue])

/-- A class is read again, as its methods are. -/
theorem Class.travelsWithin
    (n : Nat) :
    TravelsWithin Class.toJson Class.ofJson? n := by
  have hfields := travels_list Field.travels
  have hmethods (n) := (Method.travelsWithin n).list
  constructor
  · intro c hdeep
    have hmethods := (hmethods _).read_write c.methods (le_refl _)
    simp -implicitDefEqProofs [Class.toJson, Class.ofJson?, travels_names.read_write,
      travels_text.read_write, hfields.read_write, hmethods, Json.asBool?]
  · intro c hdeep
    rw [Class.toJson] at hdeep ⊢
    refine portable_object hdeep (by simp) ?_
    simp +contextual [(travels_text.within n).portable, (travels_names.within n).portable,
      (hfields.within n).portable, (hmethods n).portable]

/-- **Syntax trees are read again.**  Every method and every class, however deeply its statements
and expressions are nested, is read again from its JSON value, and from the text of this value
unless this is nested more deeply than text is read. -/
theorem trees_ofJson?_toJson :
    (∀ m : Method, Method.ofJson? m.toJson = some m ∧
      (m.toJson.depth ≤ Json.nestingLimit →
        (Json.parse? m.toJson.compact).bind Method.ofJson? = some m)) ∧
    ∀ c : Class, Class.ofJson? c.toJson = some c ∧
      (c.toJson.depth ≤ Json.nestingLimit →
        (Json.parse? c.toJson.compact).bind Class.ofJson? = some c) :=
  ⟨fun m => ⟨(Method.travelsWithin _).read_write m (le_refl _),
      (Method.travelsWithin _).read_parse?_compact m⟩,
    fun c => ⟨(Class.travelsWithin _).read_write c (le_refl _),
      (Class.travelsWithin _).read_parse?_compact c⟩⟩

/-- A method whose body jumps with and without a label, in a loop that is a statement of a block. -/
def jumpingMethod : Method where
  member := ⟨"A", "f", "()V"⟩
  flags := ["static"]
  returns := ⟨"void", 0⟩
  params := [⟨⟨"int", 1⟩, "p0"⟩]
  comments := []
  body := some
    [.label "L1",
      .whileLoop (.literal "true" ⟨"boolean", 0⟩)
        [.block [.switch (.arrayAccess (.localVar "p0") (.literal "0" ⟨"int", 0⟩))
            [.mk [1, -2] false [.jump .break none], .mk [] true [.jump .goto (some "L1")]]]],
      .expression (.invocation ⟨"A", "g", "(I)V"⟩ "g" none [.typeName ⟨"A", 0⟩])]

def jumpingClass : Class where
  descriptor := "LA;"
  name := "A"
  superclass := none
  flags := []
  isInterface := false
  interfaces := ["I"]
  fields := [⟨"x", ⟨"int", 0⟩, ["private"], some "1"⟩]
  methods := [jumpingMethod]

theorem trees_ofJson?_toJson_jumping :
    jumpingMethod.toJson.depth ≤ Json.nestingLimit ∧
      jumpingClass.toJson.depth ≤ Json.nestingLimit ∧
      (Json.parse? jumpingMethod.toJson.compact).bind Method.ofJson? = some jumpingMethod ∧
      (Json.parse? jumpingClass.toJson.compact).bind Class.ofJson? = some jumpingClass := by
  have hmethod : jumpingMethod.toJson.depth ≤ Json.nestingLimit := by decide
  have htree : jumpingClass.toJson.depth ≤ Json.nestingLimit := by decide
  exact ⟨hmethod, htree, (trees_ofJson?_toJson.1 jumpingMethod).2 hmethod,
    (trees_ofJson?_toJson.2 jumpingClass).2 htree⟩

end Members

end Java
end DalvikDecompiler
