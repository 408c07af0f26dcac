import DalvikDecompiler.Bytecode.Format
import DalvikDecompiler.Proofs.Bytecode.Spellings
import DalvikDecompiler.Proofs.Json.Parsing
import Mathlib

/-!
# The JSON form of a method is read as that method

Every writer of a part has a reader, and what is written is a value that its text on one line gives
back.  Both go through lists, optional values and records, so each record needs its fields only.

Main statement: `Bytecode.Method.travels`.
-/

namespace DalvikDecompiler

open Json (Portable ofInt ofNat ofOption ofList)

/-- What is written is read again: from the value, which has so many arrays and objects inside one
another at most, and therefore from its text. -/
structure Travels {α : Type} (write : α → Json) (read : Json → Option α) (n : Nat) : Prop where
  read_write : ∀ x, read (write x) = some x
  portable : ∀ x, Portable n (write x)

namespace Json

theorem Portable.mono
    {n m : Nat}
    {j : Json}
    (h : Portable n j)
    (hle : n ≤ m) :
    Portable m j := by
  induction h generalizing m with
  | null => exact .null
  | bool b => exact .bool b
  | int hlow high => exact .int hlow high
  | string s => exact .string s
  | array _ ih =>
      obtain ⟨k, rfl⟩ := Nat.exists_eq_add_of_lt (Nat.lt_of_lt_of_le (Nat.succ_pos _) hle)
      exact .array fun item hi => ih item hi (by omega)
  | object hdistinct _ ih =>
      obtain ⟨k, rfl⟩ := Nat.exists_eq_add_of_lt (Nat.lt_of_lt_of_le (Nat.succ_pos _) hle)
      exact .object hdistinct fun m hm => ih m hm (by omega)

section Fields

variable {α : Type} {name other : String} {value : Json} {members : List (String × Json)}
  {read : Json → Option α}

@[simp] theorem field?_cons_self :
    (Json.object ((name, value) :: members)).field? name read = read value := by
  simp [field?, member?]

@[simp] theorem field?_cons_of_ne
    (h : name ≠ other) :
    (Json.object ((other, value) :: members)).field? name read =
      (Json.object members).field? name read := by
  simp [field?, member?, List.lookup, beq_false_of_ne h]

@[simp] theorem optionalField?_cons_self :
    (Json.object ((name, value) :: members)).optionalField? name read = value.asOption? read := by
  simp [optionalField?, member?]

@[simp] theorem optionalField?_cons_of_ne
    (h : name ≠ other) :
    (Json.object ((other, value) :: members)).optionalField? name read =
      (Json.object members).optionalField? name read := by
  simp [optionalField?, member?, List.lookup, beq_false_of_ne h]

@[simp] theorem record?_object
    (names : List String) :
    (Json.object members).record? names = some (.object members) :=
  rfl

@[simp] theorem asString?_string
    (s : String) :
    (Json.string s).asString? = some s :=
  rfl

@[simp] theorem asTagged?_tagged
    (name : String)
    (content : Json) :
    (Json.tagged name content).asTagged? = some (name, content) :=
  rfl

end Fields

end Json

section Values

theorem Travels.mono
    {α : Type}
    {write : α → Json}
    {read : Json → Option α}
    {n m : Nat}
    (h : Travels write read n)
    (hle : n ≤ m) :
    Travels write read m :=
  ⟨h.read_write, fun x => (h.portable x).mono hle⟩

/-- The text of what is written is read as what was written. -/
theorem Travels.read_parse?_compact
    {α : Type}
    {write : α → Json}
    {read : Json → Option α}
    (h : Travels write read Json.nestingLimit)
    (x : α) :
    (Json.parse? (write x).compact).bind read = some x := by
  rw [Json.parse?_compact (h.portable x), Option.bind_some, h.read_write]

theorem travels_string :
    Travels .string Json.asString? 0 :=
  ⟨fun _ => rfl, fun s => .string s⟩

/-- An integer type whose values are written as themselves. -/
theorem travels_int
    {α : Type}
    {value : α → Int}
    {make : Int → α}
    {low high : Int}
    (hbounds : ∀ x, low ≤ value x ∧ value x < high)
    (hsame : ∀ x, make (value x) = x)
    (hleast : -9223372036854775808 ≤ low)
    (hgreatest : high ≤ 18446744073709551616) :
    Travels (fun x => ofInt (value x)) (fun j => (j.asRange? low high).map make) 0 where
  read_write x := by
    have := hbounds x
    simp [ofInt, Json.asRange?, Json.asInt?, Option.filter, this, hsame]
  portable x := .int (le_trans hleast (hbounds x).1) (lt_of_lt_of_le (hbounds x).2 hgreatest)

theorem travels_uint8 :
    Travels (fun b : UInt8 => ofNat b.toNat) Json.asUInt8? 0 :=
  travels_int (fun b => by have := b.toNat_lt; omega) (fun b => by simp) (by decide) (by decide)

theorem travels_uint16 :
    Travels (fun r : UInt16 => ofNat r.toNat) Json.asUInt16? 0 :=
  travels_int (fun r => by have := r.toNat_lt; omega) (fun r => by simp) (by decide) (by decide)

theorem travels_uint32 :
    Travels (fun n : UInt32 => ofNat n.toNat) Json.asUInt32? 0 :=
  travels_int (fun n => by have := n.toNat_lt; omega) (fun n => by simp) (by decide) (by decide)

theorem travels_uint64 :
    Travels (fun n : UInt64 => ofNat n.toNat) Json.asUInt64? 0 :=
  travels_int (fun n => by have := n.toNat_lt; omega) (fun n => by simp) (by decide) (by decide)

theorem travels_int32 :
    Travels (fun v : Int32 => ofInt v.toInt) Json.asInt32? 0 :=
  travels_int (fun v => ⟨v.le_toInt, v.toInt_lt⟩) (fun v => v.ofInt_toInt) (by decide) (by decide)

theorem travels_int64 :
    Travels (fun v : Int64 => ofInt v.toInt) Json.asInt64? 0 :=
  travels_int (fun v => ⟨v.le_toInt, v.toInt_lt⟩) (fun v => v.ofInt_toInt) (by decide) (by decide)

/-- A list is read again if its items are. -/
theorem asList?_ofList
    {α : Type}
    {write : α → Json}
    {read : Json → Option α}
    {xs : List α}
    (hreads : ∀ x ∈ xs, read (write x) = some x) :
    (ofList write xs).asList? read = some xs := by
  have hitems : (xs.map write).mapM read = some xs := by
    induction xs with
    | nil => rfl
    | cons x xs ih =>
        obtain ⟨hfirst, hrest⟩ := List.forall_mem_cons.1 hreads
        simp [hfirst, ih hrest]
  simpa [ofList, Json.asList?, Json.asArray?] using hitems

theorem travels_list
    {α : Type}
    {write : α → Json}
    {read : Json → Option α}
    {n : Nat}
    (h : Travels write read n) :
    Travels (ofList write) (Json.asList? read) (n + 1) where
  read_write _ := asList?_ofList fun x _ => h.read_write x
  portable xs := .array fun item hi => by
    obtain ⟨x, -, rfl⟩ := List.mem_map.1 hi
    exact h.portable x

/-- A value that may be absent, if none is written as null. -/
theorem travels_option
    {α : Type}
    {write : α → Json}
    {read : Json → Option α}
    {n : Nat}
    (h : Travels write read n)
    (hpresent : ∀ x, write x ≠ .null) :
    Travels (ofOption write) (Json.asOption? read) n where
  read_write x := by
    cases x with
    | none => rfl
    | some x =>
        have := hpresent x
        unfold ofOption Json.asOption?
        split
        · next habsent => exact absurd habsent this
        · rw [h.read_write]
          rfl
  portable x := by
    cases x with
    | none => exact .null
    | some x => exact h.portable x

theorem travels_text :
    Travels (ofOption .string) (Json.asOption? Json.asString?) 0 :=
  travels_option travels_string fun s => by simp

end Values

theorem Opcode.travels :
    Travels Opcode.toJson Opcode.ofJson? 0 where
  read_write op := congrArg some op.ofMnemonic_mnemonic
  portable _ := .string _

theorem AccessFlags.travels :
    Travels AccessFlags.toJson AccessFlags.ofJson? 0 where
  read_write flags := by
    rw [AccessFlags.toJson, AccessFlags.ofJson?, Json.asString?_string, Option.bind_some,
      flags.ofText?_text]
  portable _ := .string _

namespace Bytecode

section Operands

theorem FieldRef.travels :
    Travels FieldRef.toJson FieldRef.ofJson? 1 where
  read_write _ := by
    simp [FieldRef.toJson, FieldRef.ofJson?]
  portable f := .object (by simp) (by simp [Portable.string])

theorem MethodRef.travels :
    Travels MethodRef.toJson MethodRef.ofJson? 1 where
  read_write _ := by
    simp [MethodRef.toJson, MethodRef.ofJson?]
  portable m := .object (by simp) (by simp [Portable.string])

theorem portable_tagged
    {n m : Nat}
    {α : Type}
    {write : α → Json}
    {read : Json → Option α}
    (h : Travels write read n)
    (hle : n ≤ m)
    (name : String)
    (x : α) :
    Portable (m + 1) (.tagged name (write x)) :=
  .object (List.nodup_singleton name) (by simpa using (h.portable x).mono hle)

/-- The content of array data, which is a record without a type of its own. -/
theorem readArrayData?_object
    (width : UInt16)
    (data : List UInt8) :
    Operand.readArrayData?
        (.object [("width", ofNat width.toNat), ("data", ofList (fun b => ofNat b.toNat) data)]) =
      some (.dataConstants width data) := by
  have hwidth := travels_uint16.read_write width
  have hdata := (travels_list travels_uint8).read_write data
  simp [Operand.readArrayData?, hwidth, hdata]

theorem Operand.read_write
    (x : Operand) :
    Operand.ofJson? x.toJson = some x := by
  cases x with
  | register r => simp [Operand.toJson, Operand.ofJson?, travels_uint16.read_write r]
  | literal v | wideLiteral v =>
      simp [Operand.toJson, Operand.ofJson?, travels_int64.read_write v]
  | string s | type s => simp [Operand.toJson, Operand.ofJson?]
  | field f => simp [Operand.toJson, Operand.ofJson?, FieldRef.travels.read_write f]
  | method m => simp [Operand.toJson, Operand.ofJson?, MethodRef.travels.read_write m]
  | offset d => simp [Operand.toJson, Operand.ofJson?, travels_int32.read_write d]
  | switchKeys keys =>
      simp [Operand.toJson, Operand.ofJson?, (travels_list travels_int32).read_write keys]
  | dataConstants width data => simp [Operand.toJson, Operand.ofJson?, readArrayData?_object]

theorem Operand.portable
    (x : Operand) :
    Portable 3 x.toJson := by
  cases x with
  | register r => exact portable_tagged travels_uint16 (by decide) _ r
  | literal v | wideLiteral v => exact portable_tagged travels_int64 (by decide) _ v
  | string s | type s => exact portable_tagged travels_string (by decide) _ s
  | field f => exact portable_tagged FieldRef.travels (by decide) _ f
  | method m => exact portable_tagged MethodRef.travels (by decide) _ m
  | offset d => exact portable_tagged travels_int32 (by decide) _ d
  | switchKeys keys => exact portable_tagged (travels_list travels_int32) (by decide) _ keys
  | dataConstants width data =>
      have hwidth := (travels_uint16.mono (Nat.zero_le 1)).portable width
      have hdata := (travels_list travels_uint8).portable data
      exact .object (List.nodup_singleton _)
        (by simpa using Portable.object (by simp) (by simp [hwidth, hdata]))

theorem Operand.travels :
    Travels Operand.toJson Operand.ofJson? 3 :=
  ⟨Operand.read_write, Operand.portable⟩

end Operands

section Records

-- The readers are unfolded with a proof for every step (`-implicitDefEqProofs`): to check the steps
-- by computation the kernel would compare symbolic numbers with the bounds of their types.

/-- A value that has no arrays and objects inside stands wherever a value may stand. -/
theorem portable_leaf
    {α : Type}
    {write : α → Json}
    {read : Json → Option α}
    (h : Travels write read 0)
    (n : Nat)
    (x : α) :
    Portable n (write x) :=
  (h.portable x).mono (Nat.zero_le n)

theorem travels_branchDistance :
    Travels (ofOption fun d : Int32 => ofInt d.toInt) (Json.asOption? Json.asInt32?) 0 :=
  travels_option travels_int32 fun d => by simp [ofInt]

theorem Instruction.travels :
    Travels Instruction.toJson Instruction.ofJson? 5 where
  read_write ins := by
    have hopcode := Opcode.travels.read_write ins.opcode
    have hoperands := (travels_list Operand.travels).read_write ins.operands
    have hoffset := travels_uint32.read_write ins.offset
    have hlength := travels_uint32.read_write ins.length
    have hdistance := travels_branchDistance.read_write ins.branchDistance
    simp -implicitDefEqProofs [Instruction.toJson, Instruction.ofJson?, hopcode, hoperands,
      hoffset, hlength, hdistance]
  portable ins := by
    have hopcode := portable_leaf Opcode.travels 4 ins.opcode
    have hoperands := (travels_list Operand.travels).portable ins.operands
    have hoffset := portable_leaf travels_uint32 4 ins.offset
    have hlength := portable_leaf travels_uint32 4 ins.length
    have hdistance := portable_leaf travels_branchDistance 4 ins.branchDistance
    exact .object (by simp) (by simp [hopcode, hoperands, hoffset, hlength, hdistance])

theorem Block.travels_child :
    Travels Block.childToJson Block.readChild? 1 where
  read_write child := by
    have hstart := travels_uint32.read_write child.1
    have hindex := travels_uint64.read_write child.2
    simp -implicitDefEqProofs [Block.childToJson, Block.readChild?, hstart, hindex]
  portable child := by
    have hstart := portable_leaf travels_uint32 0 child.1
    have hindex := portable_leaf travels_uint64 0 child.2
    exact .array (by simp [hstart, hindex])

theorem Block.travels :
    Travels Block.toJson Block.ofJson? 7 where
  read_write b := by
    have hstart := travels_uint32.read_write b.start
    have hstop := travels_uint32.read_write b.stop
    have hinstructions := (travels_list Instruction.travels).read_write b.instructions
    have hchildren := (travels_list Block.travels_child).read_write b.children
    simp -implicitDefEqProofs [Block.toJson, Block.ofJson?, hstart, hstop, hinstructions, hchildren]
  portable b := by
    have hstart := portable_leaf travels_uint32 6 b.start
    have hstop := portable_leaf travels_uint32 6 b.stop
    have hinstructions := (travels_list Instruction.travels).portable b.instructions
    have hchildren := ((travels_list Block.travels_child).portable b.children).mono
      (by decide : 2 ≤ 6)
    exact .object (by simp) (by simp [Portable.string, hstart, hstop, hinstructions, hchildren])

theorem Handler.travels :
    Travels Handler.toJson Handler.ofJson? 1 where
  read_write h := by
    have hexceptionType := travels_text.read_write h.exceptionType
    have hblock := travels_uint64.read_write h.block
    simp -implicitDefEqProofs [Handler.toJson, Handler.ofJson?, hexceptionType, hblock]
  portable h := by
    have hexceptionType := portable_leaf travels_text 0 h.exceptionType
    have hblock := portable_leaf travels_uint64 0 h.block
    exact .object (by simp) (by simp [hexceptionType, hblock])

theorem ProtectedRange.travels :
    Travels ProtectedRange.toJson ProtectedRange.ofJson? 3 where
  read_write r := by
    have hstart := travels_uint32.read_write r.start
    have hstop := travels_uint32.read_write r.stop
    have handlers := (travels_list Handler.travels).read_write r.handlers
    simp -implicitDefEqProofs [ProtectedRange.toJson, ProtectedRange.ofJson?, hstart,
      hstop, handlers]
  portable r := by
    have hstart := portable_leaf travels_uint32 2 r.start
    have hstop := portable_leaf travels_uint32 2 r.stop
    have handlers := (travels_list Handler.travels).portable r.handlers
    exact .object (by simp) (by simp [hstart, hstop, handlers])

theorem ExceptionTable.travels :
    Travels ExceptionTable.toJson ExceptionTable.ofJson? 5 where
  read_write table := by
    have hranges := (travels_list ProtectedRange.travels).read_write table.ranges
    simp [ExceptionTable.toJson, ExceptionTable.ofJson?, hranges]
  portable table := by
    have hranges := (travels_list ProtectedRange.travels).portable table.ranges
    exact .object (by simp) (by simp [hranges])

theorem Method.travels :
    Travels Method.toJson Method.ofJson? 9 where
  read_write m := by
    have haccess := AccessFlags.travels.read_write m.access
    have hregisters := travels_uint16.read_write m.registers
    have hblocks := (travels_list Block.travels).read_write m.blocks
    have hexceptions := ExceptionTable.travels.read_write m.exceptions
    simp -implicitDefEqProofs [Method.toJson, Method.ofJson?, haccess, hregisters,
      hblocks, hexceptions]
  portable m := by
    have haccess := portable_leaf AccessFlags.travels 8 m.access
    have hregisters := portable_leaf travels_uint16 8 m.registers
    have hblocks := (travels_list Block.travels).portable m.blocks
    have hexceptions := (ExceptionTable.travels.portable m.exceptions).mono (by decide : 5 ≤ 8)
    exact .object (by simp) (by simp [Portable.string, haccess, hregisters, hblocks, hexceptions])

end Records

/-- A method is read again from its JSON value and from the text of that value. -/
theorem Method.ofJson?_toJson
    (m : Method) :
    Method.ofJson? m.toJson = some m ∧
      (Json.parse? m.toJson.compact).bind Method.ofJson? = some m :=
  ⟨Method.travels.read_write m, (Method.travels.mono (by decide)).read_parse?_compact m⟩

end Bytecode
end DalvikDecompiler
