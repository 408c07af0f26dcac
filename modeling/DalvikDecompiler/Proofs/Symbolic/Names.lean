import DalvikDecompiler.Proofs.Symbolic.Lifting
import DalvikDecompiler.Proofs.Text

/-!
# Names of variables

**Input.** The variables of a method whose arguments fit into 65536 registers,
with registers and results of calls added as instructions need them.

A name is a word, a number and, for a part of another variable, an underscore
and a version.  Words have no digits and no underscores, so that all three can be
read off a name again.  They say what the variable stands for, and variables that
stand for the same are the same: a register is added once, results are counted,
and no two arguments are in one register.

**Results.**
* `VarOrigin.eq_of_stem_eq`, `Variables.Distinct.eq_of_name_eq`: a name says what
  its variable stands for.
* `Bytecode.Method.nodup_argumentRegisters`: arguments are in different registers.
* `Variables.unsplit_ofMethod`, `Variables.Unsplit.extend`: the variables of a
  method stand for different things before they are split.
-/

namespace DalvikDecompiler

namespace Symbolic

namespace VarOrigin

/-- The word that a name begins with. -/
def word : VarOrigin → List Char
  | .register _ => ['v']
  | .param _ => ['p']
  | .receiver => ['t', 'h', 'i', 's']
  | .temp _ => ['v', 't', 'm', 'p']
  | .split .. => []

/-- The digits behind the word. -/
def digits : VarOrigin → List Char
  | .register r => Nat.toDigits 10 r.toNat
  | .param r => Nat.toDigits 10 r.toNat
  | .receiver => []
  | .temp n => Nat.toDigits 10 n
  | .split .. => []

/-- The name of a variable that is not a part of another one. -/
def stem (kind : VarOrigin) : List Char :=
  kind.word ++ kind.digits

/-- The variable is not a part of another one. -/
def IsWhole (kind : VarOrigin) : Prop :=
  ∀ base version, kind ≠ .split base version

/-- A variable itself, or one of its parts. -/
def part (kind : VarOrigin) (root : VarId) : Option Nat → VarOrigin
  | none => kind
  | some version => .split root version

theorem isDigit_of_mem_word
    {kind : VarOrigin}
    {c : Char}
    (hc : c ∈ kind.word) :
    c.isDigit = false ∧ c ≠ '_' := by
  cases kind <;> simp only [word, List.mem_cons, List.not_mem_nil, or_false] at hc
  case receiver | temp => rcases hc with rfl | rfl | rfl | rfl <;> decide
  all_goals subst hc; decide

theorem isDigit_of_mem_digits
    {kind : VarOrigin}
    {c : Char}
    (hc : c ∈ kind.digits) :
    c.isDigit = true := by
  cases kind with
  | register r => exact Text.isDigit_of_mem_toDigits hc
  | param r => exact Text.isDigit_of_mem_toDigits hc
  | receiver => exact absurd hc List.not_mem_nil
  | temp n => exact Text.isDigit_of_mem_toDigits hc
  | split base version => exact absurd hc List.not_mem_nil

theorem ne_underscore_of_mem_stem
    {kind : VarOrigin}
    {c : Char}
    (hc : c ∈ kind.stem) :
    (c != '_') = true := by
  refine bne_iff_ne.mpr ?_
  rcases List.mem_append.mp hc with hc | hc
  · exact (isDigit_of_mem_word hc).2
  · rintro rfl
    exact absurd (isDigit_of_mem_digits hc) (by decide)

/-- The name of a variable that is not a part of another one says what it stands for. -/
theorem eq_of_stem_eq
    {kind kind' : VarOrigin}
    (hwhole : kind.IsWhole)
    (hwhole' : kind'.IsWhole)
    (h : kind.stem = kind'.stem) :
    kind = kind' := by
  have hword : ∀ kind : VarOrigin, ∀ c, c ∈ kind.word → (!c.isDigit) = true := fun kind c hc => by
    rw [(isDigit_of_mem_word hc).1, Bool.not_false]
  have hdigits : ∀ kind : VarOrigin, ∀ c, c ∈ kind.digits.head? → (!c.isDigit) = false :=
    fun kind c hc => by rw [isDigit_of_mem_digits (List.mem_of_mem_head? hc), Bool.not_true]
  obtain ⟨hsame, hnumber⟩ := Text.eq_of_append_eq (hword kind) (hword kind') (hdigits kind)
    (hdigits kind') h
  cases kind <;> cases kind' <;> try cases hsame
  case register.register => rw [UInt16.toNat_inj.mp (Text.eq_of_toDigits_eq hnumber)]
  case param.param => rw [UInt16.toNat_inj.mp (Text.eq_of_toDigits_eq hnumber)]
  case receiver.receiver => rfl
  case temp.temp => rw [Text.eq_of_toDigits_eq hnumber]
  case split.split base version _ _ => exact absurd rfl (hwhole base version)

end VarOrigin

namespace Variables

variable {vars : Variables}

/-- What the variables stand for. -/
def kinds (vars : Variables) : List VarOrigin :=
  vars.entries.toList.map Variable.kind

@[simp] theorem length_kinds
    (vars : Variables) :
    vars.kinds.length = vars.size := by
  simp [kinds, size]

theorem map_kind_get?
    (vars : Variables)
    (v : VarId) :
    (vars.get? v).map Variable.kind = vars.kinds[v]? := by
  simp [kinds, get?]

@[simp] theorem kinds_push
    (vars : Variables)
    (v : Variable) :
    (vars.push v).kinds = vars.kinds ++ [v.kind] := by
  simp [kinds, push]

theorem kinds_register_of_none
    {r : UInt16}
    (hr : vars.registers.lookup r = none) :
    (vars.register r).2.kinds = vars.kinds ++ [.register r] := by
  simp only [Variables.register, hr]
  exact kinds_push vars _

/-- Variables that are added are behind the others. -/
theorem Extends.kinds_prefix
    {base : Variables}
    (h : base.Extends vars) :
    base.kinds <+: vars.kinds := by
  induction h with
  | refl => exact List.prefix_rfl
  | @register vars r _ ih =>
      cases hr : vars.registers.lookup r with
      | some v => simpa [Variables.register, hr] using ih
      | none =>
          rw [kinds_register_of_none hr]
          exact ih.trans (List.prefix_append _ _)
  | @addTemp vars type _ ih =>
      have hkinds : (vars.addTemp type).2.kinds = vars.kinds ++ [.temp vars.temps] :=
        kinds_push vars _
      rw [hkinds]
      exact ih.trans (List.prefix_append _ _)

/-- An argument stays one when variables are added or get their types. -/
theorem isParam_of_prefix
    {vars' : Variables}
    {v : VarId}
    (h : vars.kinds <+: vars'.kinds)
    (hv : vars.isParam v = true) :
    vars'.isParam v = true := by
  have hkind : ∀ vars : Variables, vars.isParam v =
      vars.kinds[v]?.any fun kind => (Variable.fresh kind none).isParam := fun vars => by
    rw [← map_kind_get?, Option.any_map]
    rfl
  rw [hkind] at hv ⊢
  obtain ⟨kind, hfound, hparam⟩ := (Option.any_eq_true _ _).mp hv
  have hfound' : vars'.kinds[v]? = some kind := by
    obtain ⟨more, hmore⟩ := h
    rw [← hmore, List.getElem?_append_left (List.getElem?_eq_some_iff.mp hfound).1, hfound]
  exact (Option.any_eq_true _ _).mpr ⟨kind, hfound', hparam⟩

/-- Variables that stand for different things, parts of other variables being parts of whole
ones. -/
structure Distinct (vars : Variables) : Prop where
  nodup : vars.kinds.Nodup
  base : ∀ base version, .split base version ∈ vars.kinds →
    ∃ kind, vars.kinds[base]? = some kind ∧ kind.IsWhole

/-- Different variables have different names. -/
def DistinctNames (vars : Variables) : Prop :=
  ∀ v w, v < vars.size → w < vars.size → vars.name v = vars.name w → v = w

/-- The numbers in the names, those of results of calls and those of parts, are smaller than two
bounds. -/
structure NumbersBelow (vars : Variables) (results parts : Nat) : Prop where
  result : ∀ n, .temp n ∈ vars.kinds → n < results
  part : ∀ base version, .split base version ∈ vars.kinds → version < parts

section Names

/-- What stands behind the stem of a name: an underscore and the version of a part. -/
def versionText : Option Nat → List Char
  | none => []
  | some version => '_' :: Nat.toDigits 10 version

theorem eq_of_versionText_eq
    {version version' : Option Nat}
    (h : versionText version = versionText version') :
    version = version' := by
  cases version <;> cases version'
  case none.none => rfl
  case some.some => rw [Text.eq_of_toDigits_eq (List.cons.inj h).2]
  all_goals cases h

theorem toList_nameWithin
    {v : VarId}
    {kind : VarOrigin}
    (bound : Nat)
    (h : vars.kinds[v]? = some kind)
    (hwhole : kind.IsWhole) :
    (vars.nameWithin bound v).toList = kind.stem := by
  rw [← map_kind_get?] at h
  unfold nameWithin
  rw [h]
  cases kind with
  | split base version => exact absurd rfl (hwhole base version)
  | _ => simp [VarOrigin.stem, VarOrigin.word, VarOrigin.digits, Nat.repr_eq_ofList_toDigits]

/-- A name is the stem of a whole variable and what is behind it for a part. -/
theorem Distinct.toList_name
    {v : VarId}
    (h : vars.Distinct)
    (hv : v < vars.size) :
    ∃ (root : VarId) (kind : VarOrigin) (version : Option Nat),
      vars.kinds[root]? = some kind ∧ kind.IsWhole ∧
      vars.kinds[v]? = some (kind.part root version) ∧
      (vars.name v).toList = kind.stem ++ versionText version := by
  obtain ⟨kind, hkind⟩ : ∃ kind, vars.kinds[v]? = some kind :=
    ⟨_, List.getElem?_eq_getElem (by simpa using hv)⟩
  by_cases hwhole : kind.IsWhole
  · refine ⟨v, kind, none, hkind, hwhole, hkind, ?_⟩
    rw [versionText, List.append_nil]
    exact toList_nameWithin _ hkind hwhole
  · obtain ⟨base, version, rfl⟩ : ∃ base version, kind = .split base version := by
      simpa [VarOrigin.IsWhole] using hwhole
    obtain ⟨kind, hbase, hwhole'⟩ := h.base base version (List.mem_of_getElem? hkind)
    refine ⟨base, kind, some version, hbase, hwhole', hkind, ?_⟩
    obtain ⟨bound, hbound⟩ : ∃ bound, vars.size = bound + 1 :=
      Nat.exists_eq_succ_of_ne_zero (Nat.ne_of_gt (Nat.zero_lt_of_lt hv))
    rw [← map_kind_get?] at hkind
    rw [name, hbound, nameWithin, hkind]
    simp only [String.toList_append, toList_nameWithin bound hbase hwhole']
    simp [versionText, Nat.repr_eq_ofList_toDigits]

/-- A name says which variable it is the name of. -/
theorem Distinct.distinctNames
    (h : vars.Distinct) :
    vars.DistinctNames := by
  intro v w hv hw hname
  obtain ⟨root, kind, version, hroot, hwhole, hkind, hchars⟩ := h.toList_name hv
  obtain ⟨root', kind', version', hroot', hwhole', hkind', hchars'⟩ := h.toList_name hw
  have hversion : ∀ version, ∀ c, c ∈ (versionText version).head? → (c != '_') = false := by
    rintro (_ | version) c hc
    · cases hc
    · cases hc
      rfl
  rw [hname, hchars'] at hchars
  obtain ⟨hstem, htext⟩ := Text.eq_of_append_eq (fun _ => VarOrigin.ne_underscore_of_mem_stem)
    (fun _ => VarOrigin.ne_underscore_of_mem_stem) (hversion version') (hversion version) hchars
  obtain rfl := VarOrigin.eq_of_stem_eq hwhole' hwhole hstem
  obtain rfl := eq_of_versionText_eq htext
  have heq : ∀ {x y : VarId} {kind : VarOrigin}, vars.kinds[x]? = some kind →
      vars.kinds[y]? = some kind → x = y := fun hx hy =>
    (List.getElem?_inj (List.getElem?_eq_some_iff.mp hx).1 h.nodup).mp (hx.trans hy.symm)
  obtain rfl := heq hroot hroot'
  exact heq hkind hkind'

end Names

section Growth

/-- Variables that stand for different things, none of them a part of another one. -/
structure Unsplit (vars : Variables) : Prop where
  nodup : vars.kinds.Nodup
  register : ∀ r, .register r ∈ vars.kinds → (vars.registers.lookup r).isSome = true
  temp : ∀ n, .temp n ∈ vars.kinds → n < vars.temps
  whole : ∀ kind, kind ∈ vars.kinds → kind.IsWhole

theorem Unsplit.distinct
    (h : vars.Unsplit) :
    vars.Distinct :=
  ⟨h.nodup, fun base version hmem => absurd rfl (h.whole _ hmem base version)⟩

theorem Unsplit.nodup_push
    {kind : VarOrigin}
    (h : vars.Unsplit)
    (hnew : kind ∉ vars.kinds) :
    (vars.kinds ++ [kind]).Nodup :=
  List.nodup_append.mpr ⟨h.nodup, List.nodup_singleton kind, fun _ hold _ hlast heq =>
    hnew (List.mem_singleton.mp hlast ▸ heq ▸ hold)⟩

theorem Unsplit.addRegister
    (h : vars.Unsplit)
    (r : UInt16) :
    (vars.register r).2.Unsplit := by
  cases hr : vars.registers.lookup r with
  | some v =>
      have heq : vars.register r = (v, vars) := by simp [Variables.register, hr]
      rw [heq]
      exact h
  | none =>
      have hnew : .register r ∉ vars.kinds := fun hmem => by
        have hsome := h.register r hmem
        rw [hr] at hsome
        cases hsome
      have hkinds := kinds_register_of_none hr
      have hregisters : (vars.register r).2.registers =
          OrderedMap.insert r vars.size vars.registers := by
        simp [Variables.register, hr, push]
      have htemps : (vars.register r).2.temps = vars.temps := by
        simp [Variables.register, hr, push]
      refine ⟨?_, ?_, ?_, ?_⟩ <;> simp only [hkinds, List.mem_append, List.mem_singleton]
      · exact h.nodup_push hnew
      · intro r' hmem
        rw [hregisters, OrderedMap.lookup_insert]
        split
        · rfl
        · rename_i hne
          rcases hmem with hmem | hmem
          · exact h.register r' hmem
          · exact absurd (beq_iff_eq.mpr (VarOrigin.register.inj hmem)) hne
      · rintro n (hmem | hmem)
        · exact htemps ▸ h.temp n hmem
        · cases hmem
      · rintro kind (hmem | rfl)
        · exact h.whole kind hmem
        · exact fun _ _ => VarOrigin.noConfusion

theorem Unsplit.addTemp
    (h : vars.Unsplit)
    (type : Option String) :
    (vars.addTemp type).2.Unsplit := by
  have hnew : .temp vars.temps ∉ vars.kinds := fun hmem => Nat.lt_irrefl _ (h.temp _ hmem)
  have hkinds : (vars.addTemp type).2.kinds = vars.kinds ++ [.temp vars.temps] := kinds_push vars _
  refine ⟨?_, ?_, ?_, ?_⟩ <;> simp only [hkinds, List.mem_append, List.mem_singleton]
  · exact h.nodup_push hnew
  · rintro r (hmem | hmem)
    · exact h.register r hmem
    · cases hmem
  · rintro n (hmem | hmem)
    · exact Nat.lt_succ_of_lt (h.temp n hmem)
    · obtain rfl := VarOrigin.temp.inj hmem
      exact Nat.lt_succ_self _
  · rintro kind (hmem | rfl)
    · exact h.whole kind hmem
    · exact fun _ _ => VarOrigin.noConfusion

/-- Registers and results of calls that are added are new. -/
theorem Unsplit.extend
    {vars' : Variables}
    (h : vars.Unsplit)
    (hextends : vars.Extends vars') :
    vars'.Unsplit := by
  induction hextends with
  | refl => exact h
  | register r _ ih => exact ih.addRegister r
  | addTemp type _ ih => exact ih.addTemp type

/-- Each result that is counted is a variable. -/
theorem Extends.temps_le
    {vars' : Variables}
    (hextends : vars.Extends vars')
    (h : vars.temps ≤ vars.size) :
    vars'.temps ≤ vars'.size := by
  induction hextends with
  | refl => exact h
  | @register vars r _ ih =>
      refine Nat.le_trans (Nat.le_of_eq ?_) (Nat.le_trans ih (size_le_register vars r))
      unfold Variables.register
      split <;> rfl
  | @addTemp vars type _ ih =>
      have hsize : (vars.addTemp type).2.size = vars.size + 1 := by
        simp [Variables.addTemp, size, push]
      rw [hsize]
      exact Nat.succ_le_succ ih

theorem Unsplit.numbersBelow
    (h : vars.Unsplit)
    (htemps : vars.temps ≤ vars.size) :
    vars.NumbersBelow vars.size 0 :=
  ⟨fun n hmem => Nat.lt_of_lt_of_le (h.temp n hmem) htemps,
    fun base version hmem => absurd rfl (h.whole _ hmem base version)⟩

end Growth

/-- What an argument stands for. -/
def argumentKind : UInt16 × Option String → VarOrigin
  | (r, some _) => .param r
  | (_, none) => .receiver

end Variables

end Symbolic

namespace Bytecode.Method

open Symbolic (VarOrigin)
open Symbolic.Variables (argumentKind)

/-- Parameters that end within the first 65536 registers are in different ones. -/
theorem nodup_placeFrom
    {first : Nat}
    {types : List String}
    (h : first + Natural.total (types.map Descriptor.registerCount) ≤ 65536) :
    ((placeFrom first types).map argumentKind).Nodup ∧
      ∀ kind, kind ∈ (placeFrom first types).map argumentKind →
        ∃ r : UInt16, kind = .param r ∧ first ≤ r.toNat := by
  induction types generalizing first with
  | nil => simp [placeFrom]
  | cons type types ih =>
      have hcount : 0 < Descriptor.registerCount type := by
        unfold Descriptor.registerCount
        split <;> decide
      have htotal : Natural.total ((type :: types).map Descriptor.registerCount) =
          Descriptor.registerCount type + Natural.total (types.map Descriptor.registerCount) := by
        simp [Natural.total]
      rw [htotal] at h
      have hlt : first < UInt16.size := by
        rw [UInt16.size]
        omega
      have hplace : (UInt16.ofNat first).toNat = first := UInt16.toNat_ofNat_of_lt' hlt
      have hrest : (first + Descriptor.registerCount type) +
          Natural.total (types.map Descriptor.registerCount) ≤ 65536 := by omega
      obtain ⟨hnodup, hbehind⟩ := ih hrest
      rw [placeFrom, List.map_cons, List.nodup_cons]
      refine ⟨⟨fun hmem => ?_, hnodup⟩, fun kind hkind => ?_⟩
      · obtain ⟨r, heq, hle⟩ := hbehind _ hmem
        rw [← VarOrigin.param.inj heq, hplace] at hle
        omega
      · rcases List.mem_cons.mp hkind with rfl | hkind
        · exact ⟨_, rfl, by rw [hplace]⟩
        · obtain ⟨r, rfl, hle⟩ := hbehind kind hkind
          exact ⟨r, rfl, by omega⟩

/-- **Arguments are in different registers**, if fewer than 65536 registers are enough for them. -/
theorem nodup_argumentRegisters
    {m : Bytecode.Method}
    (h : m.argumentWidth < 65536) :
    (m.argumentRegisters.map argumentKind).Nodup := by
  have hregisters : m.registers.toNat < 65536 := m.registers.toNat_lt
  unfold argumentRegisters
  rw [argumentWidth] at h
  split
  · rename_i hstatic
    rw [if_pos hstatic] at h
    exact (nodup_placeFrom (by rw [argumentWidth, if_pos hstatic]; omega)).1
  · rename_i hstatic
    rw [if_neg hstatic] at h
    have hwidth : (m.registers.toNat - m.argumentWidth + 1) +
        Natural.total (m.params.map Descriptor.registerCount) ≤ 65536 := by
      rw [argumentWidth, if_neg hstatic]
      omega
    obtain ⟨hnodup, hparams⟩ := nodup_placeFrom hwidth
    refine List.nodup_cons.mpr ⟨fun hmem => ?_, hnodup⟩
    obtain ⟨r, heq, -⟩ := hparams _ hmem
    cases heq

end Bytecode.Method

namespace Symbolic.Variables

theorem kinds_addArgument
    (owner : String)
    (argument : UInt16 × Option String)
    (vars : Variables) :
    (vars.addArgument owner argument).kinds = vars.kinds ++ [argumentKind argument] := by
  obtain ⟨r, type⟩ := argument
  cases type <;> exact kinds_push vars _

theorem kinds_foldl_addArgument
    (owner : String)
    (arguments : List (UInt16 × Option String))
    (vars : Variables) :
    (arguments.foldl (addArgument owner) vars).kinds =
      vars.kinds ++ arguments.map argumentKind := by
  induction arguments generalizing vars with
  | nil => simp
  | cons argument arguments ih =>
      rw [List.foldl_cons, ih, kinds_addArgument, List.map_cons, List.append_assoc,
        List.singleton_append]

/-- The arguments of a method are marked as such. -/
theorem isParam_of_mem_params
    {m : Bytecode.Method}
    {v : VarId}
    (hv : v ∈ (ofMethod m).params) :
    (ofMethod m).isParam v = true := by
  have hall : ∀ v, v ∈ (ofMethod m).params → (ofMethod m).isParam v = true := by
    refine List.foldlRecOn (motive := fun vars : Variables =>
      ∀ v, v ∈ vars.params → vars.isParam v = true) _ _ (by simp [empty]) ?_
    rintro vars h ⟨r, type⟩ - v hv
    rcases List.mem_append.mp hv with hv | hv
    · refine isParam_of_prefix ?_ (h v hv)
      rw [kinds_addArgument]
      exact List.prefix_append _ _
    · rw [List.mem_singleton.mp hv]
      cases type <;> simp [addArgument, isParam, get?, push, size, Variable.fresh, Variable.isParam]
  exact hall v hv

theorem temps_le_ofMethod
    (m : Bytecode.Method) :
    (ofMethod m).temps ≤ (ofMethod m).size := by
  have htemps : (ofMethod m).temps = 0 :=
    List.foldlRecOn (motive := fun vars : Variables => vars.temps = 0) _ _ rfl
      fun vars h argument _ => by cases argument.2 <;> exact h
  rw [htemps]
  exact Nat.zero_le _

/-- The arguments of a method stand for different things. -/
theorem unsplit_ofMethod
    {m : Bytecode.Method}
    (h : m.argumentWidth < 65536) :
    (ofMethod m).Unsplit := by
  have hkinds : (ofMethod m).kinds = m.argumentRegisters.map argumentKind :=
    kinds_foldl_addArgument m.owner m.argumentRegisters empty
  have hargument : ∀ kind, kind ∈ (ofMethod m).kinds → kind = .receiver ∨ ∃ r, kind = .param r := by
    intro kind hkind
    rw [hkinds] at hkind
    obtain ⟨⟨r, type⟩, -, rfl⟩ := List.mem_map.mp hkind
    cases type with
    | none => exact Or.inl rfl
    | some type => exact Or.inr ⟨r, rfl⟩
  refine ⟨hkinds ▸ Bytecode.Method.nodup_argumentRegisters h, fun r hmem => ?_, fun n hmem => ?_,
    fun kind hmem base version heq => ?_⟩
  · obtain heq | ⟨_, heq⟩ := hargument _ hmem <;> cases heq
  · obtain heq | ⟨_, heq⟩ := hargument _ hmem <;> cases heq
  · subst heq
    obtain heq | ⟨_, heq⟩ := hargument _ hmem <;> cases heq

end Symbolic.Variables

end DalvikDecompiler
