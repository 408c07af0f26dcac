import DalvikDecompiler.Proofs.Chains.Moves
import DalvikDecompiler.Proofs.Symbolic.Effects

/-!
# Effects through the propagation of values

**Input.** A graph with the chains of its runs, in which every variable is
defined before it is read.

A call moves from its definition to its only use.  Between the two nothing else
has an effect, and no second use follows without a second definition.  On a run
that comes to the use the call is made where it was made before; on a run that
leaves the way to the use it is not made any more.

**Results.**
* `Detour.detours`: every run is made of ways from the definition to the use,
  of definitions whose use is not reached, and of other steps.
* `run_keepsEffects`: along every walk propagation makes no effect that was not
  made before, keeps their order and drops nothing but calls; and it drops none
  on a walk on which every value that is computed is read.
-/

namespace DalvikDecompiler

open Symbolic (VarId Expr Instr Effect)

/-- The effects of running some code. -/
def effects (run : List RunStep) : List Effect :=
  run.flatMap fun x => x.1.effects

/-- A variable is read in some code before it is defined again. -/
def ReadNext (v : VarId) : List RunStep → Prop
  | [] => False
  | x :: rest => v ∈ x.1.reads ∨ x.1.target? ≠ some v ∧ ReadNext v rest

/-- Every value that some code assigns to a variable, constants apart, is read there before the
variable is defined again. -/
def Consumed : List RunStep → Prop
  | [] => True
  | x :: rest =>
      (x.1.value?.all Expr.isConst = true ∨ ∀ v, v ∈ x.1.target? → ReadNext v rest) ∧ Consumed rest

instance ReadNext.decidable (v : VarId) : (run : List RunStep) → Decidable (ReadNext v run)
  | [] => .isFalse id
  | x :: rest =>
      have := ReadNext.decidable v rest
      inferInstanceAs (Decidable (v ∈ x.1.reads ∨ x.1.target? ≠ some v ∧ ReadNext v rest))

instance Consumed.decidable : (run : List RunStep) → Decidable (Consumed run)
  | [] => .isTrue trivial
  | x :: rest =>
      have := Consumed.decidable rest
      inferInstanceAs (Decidable ((x.1.value?.all Expr.isConst = true ∨
        ∀ v, v ∈ x.1.target? → ReadNext v rest) ∧ Consumed rest))

section Runs

variable {v : VarId} {run : List RunStep}

@[simp] theorem effects_append
    (a b : List RunStep) :
    effects (a ++ b) = effects a ++ effects b := by
  simp [effects]

@[simp] theorem effects_cons
    (x : RunStep)
    (run : List RunStep) :
    effects (x :: run) = x.1.effects ++ effects run := by
  simp [effects]

@[simp] theorem effects_nil :
    effects [] = [] :=
  rfl

theorem effects_eq_nil
    (h : ∀ x, x ∈ run → x.1.hasEffect = false) :
    effects run = [] :=
  List.flatMap_eq_nil_iff.mpr fun x hx => Instr.effects_eq_nil_of_not_hasEffect (h x hx)

/-- A change that keeps the effects of every step keeps those of a run. -/
theorem effects_filterMap
    {f : RunStep → Option RunStep}
    (h : ∀ x, x ∈ run → effects (f x).toList = x.1.effects) :
    effects (run.filterMap f) = effects run := by
  induction run with
  | nil => rfl
  | cons x run ih =>
      have hsplit : (x :: run).filterMap f = (f x).toList ++ run.filterMap f := by
        cases hx : f x <;> simp [hx]
      rw [hsplit, effects_append, h x (by simp), ih fun y hy => h y (by simp [hy]), effects_cons]

/-- What is not a call is done by the steps themselves. -/
theorem filter_effects_filterMap
    {f : RunStep → Option RunStep}
    (h : ∀ x, x ∈ run → (f x).toList.flatMap (fun y => y.1.ownEffect?.toList) =
      x.1.ownEffect?.toList) :
    (effects (run.filterMap f)).filter (!·.isCall) = (effects run).filter (!·.isCall) := by
  have hown : ∀ run : List RunStep, (effects run).filter (!·.isCall) =
      run.flatMap fun y => y.1.ownEffect?.toList := by
    intro run
    rw [effects, List.filter_flatMap]
    simp only [Instr.filter_effects]
  rw [hown, hown]
  induction run with
  | nil => rfl
  | cons x run ih =>
      have hsplit : (x :: run).filterMap f = (f x).toList ++ run.filterMap f := by
        cases hx : f x <;> simp [hx]
      rw [hsplit, List.flatMap_append, h x (by simp), ih fun y hy => h y (by simp [hy]),
        List.flatMap_cons]

theorem readNext_iff :
    ReadNext v run ↔
      ∃ a x b, run = a ++ x :: b ∧ v ∈ x.1.reads ∧ ∀ y, y ∈ a → y.1.target? ≠ some v := by
  constructor
  · intro h
    induction run with
    | nil => exact h.elim
    | cons x run ih =>
        rcases h with h | ⟨htarget, h⟩
        · exact ⟨[], x, run, rfl, h, by simp⟩
        · obtain ⟨a, y, b, rfl, hy, ha⟩ := ih h
          exact ⟨x :: a, y, b, rfl, hy, List.forall_mem_cons.mpr ⟨htarget, ha⟩⟩
  · rintro ⟨a, x, b, rfl, hx, ha⟩
    induction a with
    | nil => exact Or.inl hx
    | cons y a ih =>
        exact Or.inr ⟨ha y (by simp), ih fun z hz => ha z (by simp [hz])⟩

theorem consumed_iff :
    Consumed run ↔
      ∀ a x b v, run = a ++ x :: b → x.1.target? = some v → x.1.value?.all Expr.isConst = false →
        ReadNext v b := by
  induction run with
  | nil => simp [Consumed]
  | cons z run ih =>
      rw [Consumed, ih]
      constructor
      · rintro ⟨hfirst, hrest⟩ a x b v heq htarget hvalue
        cases a with
        | nil =>
            obtain ⟨rfl, rfl⟩ := List.cons_eq_cons.mp heq
            exact hfirst.resolve_left (by simp [hvalue]) v htarget
        | cons y a =>
            obtain ⟨rfl, rfl⟩ := List.cons_eq_cons.mp heq
            exact hrest a x b v rfl htarget hvalue
      · intro h
        refine ⟨?_, fun a x b v heq => h (z :: a) x b v (by simp [heq])⟩
        by_cases hvalue : z.1.value?.all Expr.isConst = true
        · exact Or.inl hvalue
        · exact Or.inr fun v hv => h [] z run v rfl hv (by simpa using hvalue)

/-- A change of steps that keeps targets and makes no constant a computed value keeps values
consumed, if it keeps the reads of what is left. -/
theorem Consumed.filterMap
    {f : RunStep → Option RunStep}
    (h : Consumed run)
    (hstep : ∀ x y, x ∈ run → f x = some y → y.1.target? = x.1.target? ∧
      (x.1.value?.all Expr.isConst = true → y.1.value?.all Expr.isConst = true))
    (hread : ∀ a x b v, run = a ++ x :: b → (f x).isSome → x.1.target? = some v →
      x.1.value?.all Expr.isConst = false → ReadNext v b → ReadNext v (b.filterMap f)) :
    Consumed (run.filterMap f) := by
  rw [consumed_iff] at h ⊢
  intro a' y b' v heq htarget hvalue
  obtain ⟨front, rest, hrun, -, hrest⟩ := List.filterMap_eq_append_iff.mp heq
  obtain ⟨skipped, x, b, rfl, -, hy, rfl⟩ := List.filterMap_eq_cons_iff.mp hrest
  have hrun : run = (front ++ skipped) ++ x :: b := by simp [hrun]
  obtain ⟨hsame, hconst⟩ := hstep x y (by simp [hrun]) hy
  rw [hsame] at htarget
  have hvalue : x.1.value?.all Expr.isConst = false := by
    by_contra hnot
    rw [hconst (by simpa using hnot)] at hvalue
    cases hvalue
  exact hread _ x b v hrun (by simp [hy]) htarget hvalue (h _ x b v hrun htarget hvalue)

end Runs

namespace Symbolic.Instr

/-- A substitution leaves constants as they are. -/
theorem value?_substitute_all_isConst
    {ins : Instr}
    (id : VarId)
    (value : Expr)
    (h : ins.value?.all Expr.isConst = true) :
    (ins.substitute id value).value?.all Expr.isConst = true := by
  have hconst : ∀ e : Expr, e.isConst = true → (Expr.substitute id value e).isConst = true := by
    intro e he
    cases e <;> simp_all [Expr.isConst, Expr.const?, Expr.substitute]
  cases ins <;> simp_all [value?, substitute, mapOperands]

end Symbolic.Instr

namespace Propagation

open FlowGraph (Begins Holds Links Rewrites)

/-- A run made of ways from a definition to its use on which nothing else has an effect, of
definitions whose use is not reached, and of other steps. -/
inductive Detours (move : Move) (use : Loc) (definition reader : Instr) : List RunStep → Prop
  | nil : Detours move use definition reader []
  | other {run : List RunStep} {x : RunStep} :
      Detours move use definition reader run →
      x.2 ≠ move.source →
      x.2 ≠ use →
      Detours move use definition reader (run ++ [x])
  | left {run : List RunStep} :
      Detours move use definition reader run →
      Detours move use definition reader (run ++ [(definition, move.source)])
  | taken {a b : List RunStep} :
      Detours move use definition reader a →
      (∀ x, x ∈ b → x.2 ≠ move.source ∧ x.2 ≠ use ∧ x.1.hasEffect = false) →
      Detours move use definition reader
        (a ++ (definition, move.source) :: (b ++ [(reader, use)]))

variable {g g' : FlowGraph} {params : List VarId} {move : Move} {use : Loc}
  {definition reader ins : Instr} {run : List RunStep}

/-- Every run can be split in this way if the value that moves has an effect. -/
theorem Detour.detours
    (h : Detour g params move use definition reader)
    (heffect : move.value.hasEffect = true)
    (hrun : g.Begins run) :
    Detours move use definition reader run := by
  induction hn : run.length using Nat.strongRecOn generalizing run with
  | _ n ih =>
      rcases List.eq_nil_or_concat' run with rfl | ⟨front, ⟨ins, loc⟩, rfl⟩
      · exact .nil
      · have hexec := hrun.executes
        have hfront : Detours move use definition reader front :=
          ih front.length (by simp [← hn]) hrun.of_append rfl
        by_cases hsource : loc = move.source
        · subst hsource
          obtain rfl := h.indexed.holds_unique h.holds_definition hexec.holds
          exact .left hfront
        · by_cases huse : loc = use
          · subst huse
            obtain rfl := h.indexed.holds_unique h.holds_reader hexec.holds
            obtain ⟨a, b, rfl, -, hb⟩ := h.exists_split hexec
            have hnouse := (FlowGraph.isUndisturbed_sound h.indexed h.undisturbed hexec
              fun x hx => (hb x hx).1).2 (by simp [heffect])
            have hsplit : a ++ (definition, move.source) :: b ++ [(reader, loc)] =
                a ++ (definition, move.source) :: (b ++ [(reader, loc)]) := by simp
            rw [hsplit]
            have ha : Detours move loc definition reader a :=
              ih a.length (by simp [← hn]) (hsplit ▸ hrun).of_append rfl
            refine .taken ha fun x hx => ⟨(hb x hx).1, hnouse x hx, ?_⟩
            have hblocks := (hb x hx).2
            simp only [Instr.blocks, heffect, Bool.true_or, Bool.true_and,
              Bool.or_eq_false_iff] at hblocks
            exact hblocks.2
          · exact .other hfront hsource huse

theorem filterMap_moveStep_of_ne
    {b : List RunStep}
    (hb : ∀ x, x ∈ b → x.2 ≠ move.source ∧ x.2 ≠ use) :
    b.filterMap (moveStep move use) = b := by
  rw [List.filterMap_congr fun x hx => moveStep_other (hb x hx).1 (hb x hx).2]
  exact List.filterMap_some

section Effects

variable (hne : move.source ≠ use)
  (hreader : (reader.substitute move.target move.value).effects =
    definition.effects ++ reader.effects)

include hne hreader in
/-- On a way to the use the value is evaluated where it was evaluated before. -/
theorem effects_taken
    {a b : List RunStep}
    (hb : ∀ x, x ∈ b → x.2 ≠ move.source ∧ x.2 ≠ use ∧ x.1.hasEffect = false) :
    effects ((a ++ (definition, move.source) :: (b ++ [(reader, use)])).filterMap
        (moveStep move use)) =
      effects (a.filterMap (moveStep move use)) ++ (definition.effects ++ reader.effects) ∧
    effects (a ++ (definition, move.source) :: (b ++ [(reader, use)])) =
      effects a ++ (definition.effects ++ reader.effects) := by
  have hsame := filterMap_moveStep_of_ne fun x hx => ⟨(hb x hx).1, (hb x hx).2.1⟩
  have hnone := effects_eq_nil fun x hx => (hb x hx).2.2
  constructor
  · simp [moveStep_source hne, moveStep_use hne, hsame, hnone, hreader]
  · simp [hnone]

include hne hreader in
/-- No effect is added and their order is kept. -/
theorem Detours.sublist
    (h : Detours move use definition reader run) :
    (effects (run.filterMap (moveStep move use))).Sublist (effects run) := by
  induction h with
  | nil => exact List.Sublist.refl _
  | other _ hsource huse ih =>
      rw [List.filterMap_append, List.filterMap_cons_some (moveStep_other hsource huse),
        List.filterMap_nil, effects_append, effects_append]
      exact ih.append (List.Sublist.refl _)
  | left _ ih =>
      simp only [List.filterMap_append, List.filterMap_cons_none (moveStep_source hne _),
        List.filterMap_nil, List.append_nil, effects_append]
      exact ih.trans (List.sublist_append_left _ _)
  | taken _ hb ih =>
      obtain ⟨hafter, hbefore⟩ := effects_taken hne hreader hb
      rw [hafter, hbefore]
      exact ih.append (List.Sublist.refl _)

include hne hreader in
/-- If every definition is followed by the use, all effects are kept. -/
theorem Detours.effects_eq
    (h : Detours move use definition reader run)
    (hfollowed : ∀ a b, run = a ++ (definition, move.source) :: b →
      ∃ b₁ b₂, b = b₁ ++ (reader, use) :: b₂ ∧ ∀ x, x ∈ b₁ → x.2 ≠ move.source) :
    effects (run.filterMap (moveStep move use)) = effects run := by
  induction h with
  | nil => rfl
  | @other run x _ hsource huse ih =>
      rw [List.filterMap_append, List.filterMap_cons_some (moveStep_other hsource huse),
        List.filterMap_nil, effects_append, effects_append, ih]
      intro a b heq
      obtain ⟨b₁, b₂, hb, hb₁⟩ := hfollowed a (b ++ [x]) (by simp [heq])
      -- the use stands in front of the last step, which is another one
      rcases List.append_eq_append_iff.mp hb with ⟨t, -, ht⟩ | ⟨t, hb, ht⟩
      · cases t with
        | nil => exact absurd (congrArg Prod.snd (List.cons_eq_cons.mp ht).1) huse
        | cons y t => simp at ht
      · cases t with
        | nil => exact absurd (congrArg Prod.snd (List.cons_eq_cons.mp ht).1.symm) huse
        | cons y t =>
            obtain ⟨rfl, -⟩ := List.cons_eq_cons.mp ht
            exact ⟨b₁, t, hb, hb₁⟩
  | @left run _ _ =>
      obtain ⟨b₁, b₂, hb, -⟩ := hfollowed run [] rfl
      simp at hb
  | @taken a b _ hb ih =>
      obtain ⟨hafter, hbefore⟩ := effects_taken hne hreader hb
      rw [hafter, hbefore, ih]
      intro a₁ a₂ heq
      obtain ⟨b₁, b₂, hfound, hb₁⟩ := hfollowed a₁
        (a₂ ++ (definition, move.source) :: (b ++ [(reader, use)])) (by simp [heq])
      -- no definition stands in front of the use, so it comes before the last definition
      rcases List.append_eq_append_iff.mp hfound with ⟨t, hb₁', ht⟩ | ⟨t, ha₂, ht⟩
      · cases t with
        | nil => exact absurd (congrArg Prod.snd (List.cons_eq_cons.mp ht).1) hne
        | cons y t =>
            obtain ⟨rfl, -⟩ := List.cons_eq_cons.mp ht
            exact absurd rfl (hb₁ (definition, move.source) (by simp [hb₁']))
      · cases t with
        | nil => exact absurd (congrArg Prod.snd (List.cons_eq_cons.mp ht).1.symm) hne
        | cons y t =>
            obtain ⟨rfl, -⟩ := List.cons_eq_cons.mp ht
            exact ⟨b₁, t, ha₂, hb₁⟩

end Effects

section Consumption

/-- If values are consumed, then every definition is followed by the use. -/
theorem Detour.exists_use
    (h : Detour g params move use definition reader)
    (hconst : move.value.isConst = false)
    (hrun : g.Begins run)
    (hconsumed : Consumed run)
    {a b : List RunStep}
    (heq : run = a ++ (definition, move.source) :: b) :
    ∃ b₁ b₂, b = b₁ ++ (reader, use) :: b₂ ∧
      (∀ x, x ∈ b₁ → x.2 ≠ move.source) ∧ ∀ x, x ∈ b₁ → x.1.blocks move.value = false := by
  subst heq
  have hread := consumed_iff.mp hconsumed a _ b move.target rfl h.target_eq
    (by simp [h.value_eq, hconst])
  obtain ⟨b₁, ⟨ins, loc⟩, b₂, rfl, hins, hb₁⟩ := readNext_iff.mp hread
  have hexec : g.Executes (a ++ (definition, move.source) :: b₁) (ins, loc) := by
    refine FlowGraph.Begins.executes (b := b₂) ?_
    simpa using hrun
  have hlast : lastDefinition move.target (a ++ (definition, move.source) :: b₁) =
      some move.source :=
    lastDefinition_eq_some_iff.mpr ⟨a, definition, b₁, rfl, h.target_eq, hb₁⟩
  obtain rfl := h.only_use loc ⟨_, ins, hexec, hins, Or.inl hlast⟩
  obtain rfl := h.indexed.holds_unique h.holds_reader hexec.holds
  have hsource : ∀ x, x ∈ b₁ → x.2 ≠ move.source := by
    rintro ⟨i, l⟩ hx rfl
    have hi := h.indexed.holds_unique (hexec.holds_of_mem (y := (i, _)) (by simp [hx]))
      h.holds_definition
    exact hb₁ _ hx (hi ▸ h.target_eq)
  exact ⟨b₁, b₂, rfl, hsource,
    (FlowGraph.isUndisturbed_sound h.indexed h.undisturbed hexec hsource).1⟩

/-- Values stay consumed when one of them moves: what its operands are read for moves along. -/
theorem Detour.consumed
    (h : Detour g params move use definition reader)
    (hconst : move.value.isConst = false)
    (hrun : g.Begins run)
    (hconsumed : Consumed run) :
    Consumed (run.filterMap (moveStep move use)) := by
  have hkept : ∀ w (c : List RunStep), (∀ x, x ∈ c → x.1.target? ≠ some w) →
      ∀ y, y ∈ c.filterMap (moveStep move use) → y.1.target? ≠ some w := by
    intro w c hc y hy
    obtain ⟨x, hx, hxy⟩ := List.mem_filterMap.mp hy
    have hsource : x.2 ≠ move.source := by
      intro hsource
      rw [show x = (x.1, move.source) from Prod.ext rfl hsource, moveStep_source h.source_ne] at hxy
      cases hxy
    obtain ⟨x', hx', -, htarget⟩ := moveStep_kept h.source_ne hsource
    rw [hxy] at hx'
    obtain rfl := Option.some.inj hx'
    rw [htarget]
    exact hc x hx
  refine hconsumed.filterMap ?_ ?_
  · rintro ⟨i, l⟩ y - hy
    by_cases hsource : l = move.source
    · subst hsource
      rw [moveStep_source h.source_ne] at hy
      cases hy
    · by_cases huse : l = use
      · subst huse
        rw [moveStep_use h.source_ne] at hy
        obtain rfl := Option.some.inj hy
        exact ⟨Instr.target?_substitute _ _ _, Instr.value?_substitute_all_isConst _ _⟩
      · rw [moveStep_other hsource huse] at hy
        obtain rfl := Option.some.inj hy
        exact ⟨rfl, fun hx => hx⟩
  · intro a x b w heq hsome htarget _ hread
    obtain ⟨b₁, ⟨i, l⟩, b₂, rfl, hi, hb₁⟩ := readNext_iff.mp hread
    have hexec : g.Executes (a ++ x :: b₁) (i, l) := by
      refine FlowGraph.Begins.executes (b := b₂) ?_
      simpa [heq] using hrun
    rw [readNext_iff, List.filterMap_append]
    by_cases hsource : l = move.source
    · -- the reader is the definition that goes; its value is read at the use
      subst hsource
      obtain rfl := h.indexed.holds_unique h.holds_definition hexec.holds
      obtain ⟨c₁, c₂, rfl, -, hc₁⟩ := h.exists_use hconst hrun hconsumed
        (a := a ++ x :: b₁) (b := b₂) (by simp [heq])
      have hw : w ∈ move.value.varsRead := h.reads_definition ▸ hi
      refine ⟨b₁.filterMap (moveStep move use) ++ c₁.filterMap (moveStep move use),
        (reader.substitute move.target move.value, use), c₂.filterMap (moveStep move use),
        ?_, ?_, ?_⟩
      · rw [List.filterMap_cons_none (moveStep_source h.source_ne _), List.filterMap_append,
          List.filterMap_cons_some (moveStep_use h.source_ne reader), List.append_assoc]
      · exact h.mem_reads_iff.mpr (Or.inr hi)
      · intro y hy
        rcases List.mem_append.mp hy with hy | hy
        · exact hkept w b₁ hb₁ y hy
        · exact hkept w c₁ (fun z hz => Detour.not_mem_of_blocks_eq_false (hc₁ z hz) hw) y hy
    · by_cases huse : l = use
      · subst huse
        obtain rfl := h.indexed.holds_unique h.holds_reader hexec.holds
        have hother : w ≠ move.target := by
          rintro rfl
          have hlast : lastDefinition move.target (a ++ x :: b₁) = some x.2 :=
            lastDefinition_eq_some_iff.mpr ⟨a, x.1, b₁, rfl, htarget, hb₁⟩
          have hsource := h.only_def x.2 ⟨_, reader, hexec, hi, Or.inl hlast⟩
          rw [show x = (x.1, move.source) from Prod.ext rfl hsource,
            moveStep_source h.source_ne] at hsome
          cases hsome
        refine ⟨b₁.filterMap (moveStep move l), (reader.substitute move.target move.value, l),
          b₂.filterMap (moveStep move l), ?_, ?_, hkept w b₁ hb₁⟩
        · rw [List.filterMap_cons_some (moveStep_use h.source_ne reader)]
        · exact h.mem_reads_iff.mpr (Or.inl ⟨hi, hother⟩)
      · refine ⟨b₁.filterMap (moveStep move use), (i, l), b₂.filterMap (moveStep move use), ?_, hi,
          hkept w b₁ hb₁⟩
        rw [List.filterMap_cons_some (moveStep_other hsource huse)]

end Consumption

/-- Along every walk from the entry a change of the code adds no effect, keeps their order and
drops nothing but calls; where all values are consumed they stay so, and no effect is dropped. -/
structure KeepsEffects (g g' : FlowGraph) : Prop where
  toDigraph_eq : g'.toDigraph = g.toDigraph
  sublist : ∀ {n nodes}, g.toDigraph.Walk g.entry n nodes →
    (effects (g'.trace nodes)).Sublist (effects (g.trace nodes))
  others : ∀ {n nodes}, g.toDigraph.Walk g.entry n nodes →
    (effects (g'.trace nodes)).filter (!·.isCall) = (effects (g.trace nodes)).filter (!·.isCall)
  consumed : ∀ {n nodes}, g.toDigraph.Walk g.entry n nodes → Consumed (g.trace nodes) →
    Consumed (g'.trace nodes) ∧ effects (g'.trace nodes) = effects (g.trace nodes)

theorem KeepsEffects.refl
    (g : FlowGraph) :
    KeepsEffects g g :=
  ⟨rfl, fun _ => List.Sublist.refl _, fun _ => rfl, fun _ h => ⟨h, rfl⟩⟩

theorem KeepsEffects.trans
    {g'' : FlowGraph}
    (h : KeepsEffects g g')
    (h' : KeepsEffects g' g'') :
    KeepsEffects g g'' := by
  have hentry : g'.entry = g.entry := congrArg Digraph.entry h.toDigraph_eq
  have hwalk : ∀ {n nodes}, g.toDigraph.Walk g.entry n nodes →
      g'.toDigraph.Walk g'.entry n nodes := by
    intro n nodes w
    rw [h.toDigraph_eq, hentry]
    exact w
  refine ⟨h'.toDigraph_eq.trans h.toDigraph_eq, fun w => (h'.sublist (hwalk w)).trans (h.sublist w),
    fun w => (h'.others (hwalk w)).trans (h.others w), fun w hconsumed => ?_⟩
  obtain ⟨hconsumed', heq⟩ := h.consumed w hconsumed
  obtain ⟨hconsumed'', heq'⟩ := h'.consumed (hwalk w) hconsumed'
  exact ⟨hconsumed'', heq'.trans heq⟩

theorem holds_of_mem_trace
    {nodes : List NodeId}
    {x : RunStep}
    (hx : x ∈ g.trace nodes) :
    g.Holds x.1 x.2 := by
  obtain ⟨id, -, hid⟩ := List.mem_flatMap.mp hx
  exact ⟨id, hid⟩

/-- A change that keeps the effects of every step, and values consumed, keeps effects. -/
theorem KeepsEffects.of_steps
    {f : RunStep → Option RunStep}
    (h : Rewrites g g' f)
    (heffects : ∀ x, g.Holds x.1 x.2 → effects (f x).toList = x.1.effects)
    (hconsumed : ∀ run, g.Begins run → Consumed run → Consumed (run.filterMap f)) :
    KeepsEffects g g' := by
  have hsame : ∀ nodes, effects (g'.trace nodes) = effects (g.trace nodes) := by
    intro nodes
    rw [h.trace_eq]
    exact effects_filterMap fun x hx => heffects x (holds_of_mem_trace hx)
  refine ⟨h.toDigraph_eq, fun _ => (hsame _).symm ▸ List.Sublist.refl _, fun _ => by rw [hsame],
    fun w hrun => ⟨?_, hsame _⟩⟩
  rw [h.trace_eq]
  exact hconsumed _ (FlowGraph.begins_trace w) hrun

/-- A value moves to its only use. -/
theorem Detour.keepsEffects
    (h : Detour g params move use definition reader)
    (hrewrites : Rewrites g g' (moveStep move use))
    (hconst : move.value.isConst = false)
    (hcount : reader.readsOf move.target ≤ 1)
    (horder : reader.preservesOrder move.target move.value = true) :
    KeepsEffects g g' := by
  have hvalue : definition.effects = move.value.calls := Instr.effects_of_value? h.value_eq
  by_cases heffect : move.value.hasEffect = true
  · have hreader : (reader.substitute move.target move.value).effects =
        definition.effects ++ reader.effects := by
      rw [hvalue]
      exact Instr.effects_substitute_of_preservesOrder heffect h.reads hcount horder
    refine ⟨hrewrites.toDigraph_eq, fun w => ?_, fun w => ?_, fun w hconsumed => ?_⟩
    · rw [hrewrites.trace_eq]
      exact (h.detours heffect (FlowGraph.begins_trace w)).sublist h.source_ne hreader
    · rw [hrewrites.trace_eq]
      refine filter_effects_filterMap fun x hx => ?_
      obtain ⟨ins, loc⟩ := x
      have hholds := holds_of_mem_trace hx
      by_cases hsource : loc = move.source
      · subst hsource
        obtain rfl := h.indexed.holds_unique h.holds_definition hholds
        have hnone : definition.ownEffect? = none := by
          have htarget := h.target_eq
          cases definition <;> first | rfl | simp [Instr.target?] at htarget
        simp [moveStep_source h.source_ne, hnone]
      · by_cases huse : loc = use
        · subst huse
          simp [moveStep_use h.source_ne, Instr.ownEffect?_substitute]
        · simp [moveStep_other (x := (ins, loc)) hsource huse]
    · rw [hrewrites.trace_eq]
      refine ⟨h.consumed hconst (FlowGraph.begins_trace w) hconsumed, ?_⟩
      refine (h.detours heffect (FlowGraph.begins_trace w)).effects_eq h.source_ne hreader
        fun a b heq => ?_
      obtain ⟨b₁, b₂, hb, hb₁, -⟩ := h.exists_use hconst (FlowGraph.begins_trace w) hconsumed heq
      exact ⟨b₁, b₂, hb, hb₁⟩
  · have hcalls : move.value.calls = [] :=
      (Expr.calls_eq_nil_iff move.value).mpr (by simpa using heffect)
    refine .of_steps hrewrites ?_ fun run hrun => h.consumed hconst hrun
    rintro ⟨ins, loc⟩ hholds
    by_cases hsource : loc = move.source
    · subst hsource
      obtain rfl := h.indexed.holds_unique h.holds_definition hholds
      simp [moveStep_source h.source_ne, hvalue, hcalls]
    · by_cases huse : loc = use
      · subst huse
        simp [moveStep_use h.source_ne, Instr.effects_substitute_eq ins fun _ => hcalls]
      · simp [moveStep_other (x := (ins, loc)) hsource huse]

section Run

variable {s s' : Propagation}

theorem calls_of_isConst
    {value : Expr}
    (h : value.isConst = true) :
    value.calls = [] := by
  cases value <;> first | rfl | simp [Expr.isConst, Expr.const?] at h

/-- A constant is copied to a use, which its definition alone supplies. -/
theorem keepsEffects_copyStep
    (hconst : move.value.isConst = true)
    (hdefinition : g.Holds definition move.source)
    (hvalue : definition.value? = some move.value)
    (hg : g.Indexed)
    (honly : ∀ e, g.Links params move.target e use → e = move.source)
    (hrewrites : Rewrites g g' (copyStep move use)) :
    KeepsEffects g g' := by
  have hcalls := calls_of_isConst hconst
  refine .of_steps hrewrites ?_ ?_
  · rintro ⟨ins, loc⟩ -
    by_cases huse : loc = use
    · simp [copyStep, modifyAt, huse, Instr.effects_substitute_eq ins fun _ => hcalls]
    · simp [copyStep, modifyAt, huse]
  · intro run hrun hconsumed
    have htarget : ∀ x y, copyStep move use x = some y → y.1.target? = x.1.target? := by
      intro x y hy
      obtain rfl := Option.some.inj hy
      by_cases huse : x.2 = use <;> simp [huse]
    refine hconsumed.filterMap ?_ ?_
    · intro x y _ hy
      refine ⟨htarget x y hy, ?_⟩
      obtain rfl := Option.some.inj hy
      by_cases huse : x.2 = use
      · simpa [huse] using Instr.value?_substitute_all_isConst _ _
      · simp [huse]
    · intro a x b w heq _ hx hnot hread
      obtain ⟨b₁, y, b₂, rfl, hy, hb₁⟩ := readNext_iff.mp hread
      have hexec : g.Executes (a ++ x :: b₁) y := by
        refine FlowGraph.Begins.executes (b := b₂) ?_
        simpa [heq] using hrun
      have hstep : copyStep move use y = some _ := rfl
      rw [readNext_iff]
      refine ⟨b₁.filterMap (copyStep move use), _, b₂.filterMap (copyStep move use), ?_,
        ((mem_reads_copyStep hconst hstep).2).mpr ⟨hy, ?_⟩, ?_⟩
      · rw [List.filterMap_append, List.filterMap_cons_some hstep]
      · -- the constant is the only value of its variable that is read there
        rintro ⟨rfl, huse⟩
        have hlast : lastDefinition move.target (a ++ x :: b₁) = some x.2 :=
          lastDefinition_eq_some_iff.mpr ⟨a, x.1, b₁, rfl, hx, hb₁⟩
        have hsource := honly x.2 ⟨_, y.1, huse ▸ hexec, hy, Or.inl hlast⟩
        have hsame : x.1 = definition :=
          hg.holds_unique (hexec.holds_of_mem (y := x) (by simp)) (hsource ▸ hdefinition)
        simp [hsame, hvalue, hconst] at hnot
      · intro z hz
        obtain ⟨z₀, hz₀, hzstep⟩ := List.mem_filterMap.mp hz
        rw [htarget z₀ z hzstep]
        exact hb₁ z₀ hz₀

/-- The definition of a constant goes. -/
theorem keepsEffects_dropAt
    {value : Expr}
    {loc : Loc}
    (hconst : value.isConst = true)
    (hdefinition : g.Holds definition loc)
    (hvalue : definition.value? = some value)
    (hg : g.Indexed)
    (hrewrites : Rewrites g g' (dropAt loc)) :
    KeepsEffects g g' := by
  refine .of_steps hrewrites ?_ ?_
  · rintro ⟨ins, l⟩ hholds
    by_cases hl : l = loc
    · subst hl
      obtain rfl := hg.holds_unique hdefinition hholds
      simp [dropAt, Instr.effects_of_value? hvalue, calls_of_isConst hconst]
    · simp [dropAt, hl]
  · intro run hrun hconsumed
    have hkept : ∀ x : RunStep, x.2 ≠ loc → dropAt loc x = some x := by
      intro x hx
      simp [dropAt, hx]
    have hsame : ∀ x y, dropAt loc x = some y → y = x := by
      intro x y hy
      by_cases hx : x.2 = loc
      · simp [dropAt, hx] at hy
      · rw [hkept x hx] at hy
        exact (Option.some.inj hy).symm
    refine hconsumed.filterMap ?_ ?_
    · intro x y _ hy
      obtain rfl := hsame x y hy
      exact ⟨rfl, fun h => h⟩
    · intro a x b w heq _ _ _ hread
      obtain ⟨b₁, y, b₂, rfl, hy, hb₁⟩ := readNext_iff.mp hread
      have hexec : g.Executes (a ++ x :: b₁) y := by
        refine FlowGraph.Begins.executes (b := b₂) ?_
        simpa [heq] using hrun
      have hne : y.2 ≠ loc := by
        intro hloc
        rw [hg.holds_unique hexec.holds (hloc ▸ hdefinition), Instr.reads_of_value? hvalue,
          varsRead_of_isConst hconst] at hy
        exact List.not_mem_nil hy
      rw [readNext_iff]
      refine ⟨b₁.filterMap (dropAt loc), y, b₂.filterMap (dropAt loc), ?_, hy, ?_⟩
      · rw [List.filterMap_append, List.filterMap_cons_some (hkept y hne)]
      · intro z hz
        obtain ⟨z₀, hz₀, hzstep⟩ := List.mem_filterMap.mp hz
        rw [hsame z₀ z hzstep]
        exact hb₁ z₀ hz₀

/-- An allowed move keeps the effects along every walk. -/
theorem Followed.apply_keepsEffects
    (hs : s.Followed params)
    (h : s.Allowed use ins move) :
    KeepsEffects s.graph (s.apply use move).graph := by
  have hg := hs.1.indexed
  obtain ⟨definition, hdefinition, htarget, hvalue⟩ := h.assigns
  have hholds := hg.instrAt_eq_some_iff.mp hdefinition
  by_cases hconst : move.value.isConst = true
  · have htracks := h.tracks_copied hs.1 hconst
    have hkeeps := keepsEffects_copyStep hconst hholds hvalue hg (h.links hs.1).2
      (rewrites_movedGraph hs.1)
    cases hused : (s.movedChains use move).isUsed move.target move.source with
    | true =>
        rw [apply_of_isUsed hused]
        exact hkeeps
    | false =>
        rw [apply_of_not_isUsed hused]
        exact hkeeps.trans (keepsEffects_dropAt hconst (h.holds_movedGraph hs.1 hholds) hvalue
          htracks.indexed (.removeInstr htracks.indexed _))
  · obtain ⟨hsingle, hcount, hundisturbed, horder⟩ := h.permitted.resolve_left hconst
    obtain ⟨definition', hdetour⟩ := h.detour hs.1 (hs.supplied h) hsingle hundisturbed
    exact hdetour.keepsEffects (hdetour.rewrites_apply hs.1) (by simpa using hconst) hcount horder

theorem Followed.steps_keepsEffects
    {moves : List (Loc × Move)}
    (h : Steps s moves s')
    (hs : s.Followed params) :
    KeepsEffects s.graph s'.graph := by
  induction h with
  | none s => exact .refl _
  | next hallowed _ ih => exact (hs.apply_keepsEffects hallowed).trans (ih (hs.apply hallowed))

/-- Propagation keeps the effects along every walk, apart from calls whose result is not read. -/
theorem run_keepsEffects
    {c : Chains}
    (h : c.Tracks g params)
    (hdefined : g.Defined params) :
    KeepsEffects g (Propagation.run g c).graph := by
  obtain ⟨moves, hsteps⟩ := run_steps g c
  have hstart : Followed { graph := g, chains := c, moves := 0 } params := ⟨h, hdefined⟩
  exact hstart.steps_keepsEffects hsteps

end Run

end Propagation
end DalvikDecompiler
