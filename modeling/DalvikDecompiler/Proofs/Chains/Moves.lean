import DalvikDecompiler.Proofs.Chains.Tracking
import DalvikDecompiler.Proofs.FlowGraph.Undisturbed
import DalvikDecompiler.Proofs.Symbolic.Substitution

/-!
# Chains through the propagation of values

**Input.** A graph with the chains of its runs, in which every variable is
defined before it is read.

A value moves from the one definition that supplies a use to the use.  The runs
to the use all come through the definition, and from there on nothing that the
value reads is defined again; so its operands are supplied at the use as they
were at the definition.

**Results.**
* `run_steps`: propagation is a sequence of allowed moves.
* `Detour.links_iff`: the links behind the move of a value to its only use.
* `run_tracks`: when all moves have been made, the chains are those of the graph
  that is left.
-/

namespace DalvikDecompiler

open Symbolic (VarId Expr Instr)

namespace Symbolic.Instr

/-- An assignment reads what its value reads. -/
theorem reads_of_value?
    {ins : Instr}
    {value : Expr}
    (h : ins.value? = some value) :
    ins.reads = value.varsRead := by
  cases ins <;> simp_all [value?, reads, operands]

end Symbolic.Instr

namespace Propagation

open FlowGraph (Holds Links Rewrites)

/-- A move into an instruction is allowed. -/
structure Allowed (s : Propagation) (use : Loc) (ins : Instr) (move : Move) : Prop where
  instrAt_use : s.graph.instrAt use = some ins
  reads : move.target ∈ ins.reads
  defs_eq : s.chains.defs move.target use = [move.source]
  source_ne : move.source ≠ use
  assigns : ∃ definition, s.graph.instrAt move.source = some definition ∧
    definition.target? = some move.target ∧ definition.value? = some move.value
  permitted : move.value.isConst = true ∨
    (s.chains.uses move.target move.source).length ≤ 1 ∧ ins.readsOf move.target ≤ 1 ∧
      s.graph.isUndisturbed move.value move.source use = true ∧
      ins.preservesOrder move.target move.value = true

/-- Allowed moves made one after another. -/
inductive Steps : Propagation → List (Loc × Move) → Propagation → Prop
  | none (s : Propagation) : Steps s [] s
  | next {s s' : Propagation} {use : Loc} {ins : Instr} {move : Move} {moves : List (Loc × Move)} :
      s.Allowed use ins move →
      Steps (s.apply use move) moves s' →
      Steps s ((use, move) :: moves) s'

theorem Steps.append
    {s s' s'' : Propagation}
    {moves more : List (Loc × Move)}
    (h : Steps s moves s')
    (h' : Steps s' more s'') :
    Steps s (moves ++ more) s'' := by
  induction h with
  | none s => exact h'
  | next hallowed _ ih => exact .next hallowed (ih h')

theorem allowed_of_moveOf?
    {s : Propagation}
    {use : Loc}
    {ins : Instr}
    {v : VarId}
    {move : Move}
    (hins : s.graph.instrAt use = some ins)
    (hv : v ∈ ins.reads)
    (h : s.moveOf? use ins v = some move) :
    s.Allowed use ins move := by
  unfold moveOf? at h
  split at h
  · rename_i source hdefs
    split at h
    · cases h
    · rename_i hsource
      cases hmovable : movable? s.graph v source with
      | none => simp [hmovable] at h
      | some value =>
          simp only [hmovable] at h
          split at h
          · rename_i hpermitted
            obtain rfl := Option.some.inj h
            obtain ⟨definition, hdefinition, hvalue⟩ := Option.bind_eq_some_iff.mp hmovable
            split at hvalue
            · rename_i htarget
              simp only [Bool.and_eq_true, beq_iff_eq] at htarget
              simp only [Bool.or_eq_true, Bool.and_eq_true, decide_eq_true_eq] at hpermitted
              refine ⟨hins, hv, hdefs, fun heq => hsource (Or.inr heq),
                ⟨definition, hdefinition, htarget.2, hvalue⟩, hpermitted.imp_right ?_⟩
              rintro ⟨⟨⟨huses, hreads⟩, hundisturbed⟩, horder⟩
              exact ⟨huses, hreads, hundisturbed, horder⟩
            · cases hvalue
          · cases h
  · cases h

/-- An instruction stays as it is, or an allowed move into it is made. -/
theorem moveInto_cases
    (s : Propagation)
    (use : Loc) :
    s.moveInto use = s ∨
      ∃ ins move, s.Allowed use ins move ∧ s.moveInto use = s.apply use move := by
  unfold moveInto
  cases hins : s.graph.instrAt use with
  | none => exact .inl rfl
  | some ins =>
      cases hmove : ins.varsRead.findSome? (s.moveOf? use ins) with
      | none => exact .inl (by simp [hmove])
      | some move =>
          obtain ⟨v, hv, hmove'⟩ := List.exists_of_findSome?_eq_some hmove
          have hallowed := allowed_of_moveOf? hins (by simpa [Instr.varsRead] using hv) hmove'
          exact .inr ⟨ins, move, hallowed, by simp [hmove]⟩

theorem moveInto_steps
    (s : Propagation)
    (use : Loc) :
    ∃ moves, Steps s moves (s.moveInto use) := by
  rcases s.moveInto_cases use with hsame | ⟨ins, move, hallowed, hmoved⟩
  · exact ⟨[], hsame.symm ▸ .none s⟩
  · exact ⟨[(use, move)], hmoved ▸ .next hallowed (.none _)⟩

/-- What is a sequence of moves at each place is one over all places. -/
theorem foldl_steps
    {α : Type}
    {f : Propagation → α → Propagation}
    (h : ∀ s a, ∃ moves, Steps s moves (f s a))
    (xs : List α)
    (s : Propagation) :
    ∃ moves, Steps s moves (xs.foldl f s) := by
  induction xs generalizing s with
  | nil => exact ⟨[], .none s⟩
  | cons a xs ih =>
      obtain ⟨moves, hfirst⟩ := h s a
      obtain ⟨more, hrest⟩ := ih (f s a)
      exact ⟨moves ++ more, hfirst.append hrest⟩

theorem rounds_steps
    (bound : Nat)
    (s : Propagation) :
    ∃ moves, Steps s moves (rounds bound s) := by
  have hround : ∀ s : Propagation, ∃ moves, Steps s moves s.round := fun s =>
    foldl_steps (fun s id => foldl_steps moveInto_steps (s.graph.node id).locs s) s.graph.order s
  induction bound generalizing s with
  | zero => exact ⟨[], .none s⟩
  | succ bound ih =>
      obtain ⟨moves, hfirst⟩ := hround s
      unfold rounds
      simp only []
      split
      · exact ⟨moves, hfirst⟩
      · obtain ⟨more, hrest⟩ := ih s.round
        exact ⟨moves ++ more, hfirst.append hrest⟩

/-- Propagation is a sequence of allowed moves. -/
theorem run_steps
    (graph : FlowGraph)
    (chains : Chains) :
    ∃ moves, Steps { graph, chains, moves := 0 } moves (run graph chains) :=
  rounds_steps _ _

section Detour

/-- Take a definition away and put its value in the place of its variable at a use. -/
def moveStep (move : Move) (use : Loc) (x : RunStep) : Option RunStep :=
  (modifyAt use (fun ins => ins.substitute move.target move.value) x).bind (dropAt move.source)

/-- A value that can move from a definition to its only use, which has no other definition. -/
structure Detour (g : FlowGraph) (params : List VarId) (move : Move) (use : Loc)
    (definition reader : Instr) : Prop where
  indexed : g.Indexed
  supplied : ∀ run, g.Executes run (reader, use) → ∃ d, Supplied params move.target run d
  holds_definition : g.Holds definition move.source
  holds_reader : g.Holds reader use
  target_eq : definition.target? = some move.target
  value_eq : definition.value? = some move.value
  linked : g.Links params move.target move.source use
  only_def : ∀ e, g.Links params move.target e use → e = move.source
  only_use : ∀ y, g.Links params move.target move.source y → y = use
  source_ne : move.source ≠ use
  undisturbed : g.isUndisturbed move.value move.source use = true

variable {g g' : FlowGraph} {params : List VarId} {move : Move} {use : Loc}
  {definition reader ins : Instr} {run a b : List RunStep} {w : VarId} {d y : Loc}

theorem moveStep_source
    (hne : move.source ≠ use)
    (ins : Instr) :
    moveStep move use (ins, move.source) = none := by
  simp [moveStep, modifyAt, dropAt, hne]

theorem moveStep_use
    (hne : move.source ≠ use)
    (ins : Instr) :
    moveStep move use (ins, use) = some (ins.substitute move.target move.value, use) := by
  simp [moveStep, modifyAt, dropAt, hne.symm]

theorem moveStep_other
    {x : RunStep}
    (hsource : x.2 ≠ move.source)
    (huse : x.2 ≠ use) :
    moveStep move use x = some x := by
  simp [moveStep, modifyAt, dropAt, hsource, huse]

/-- A move takes the source away and changes no other target. -/
theorem moveStep_kept
    (hne : move.source ≠ use)
    {x : RunStep}
    (hx : x.2 ≠ move.source) :
    ∃ x', moveStep move use x = some x' ∧ x'.2 = x.2 ∧ x'.1.target? = x.1.target? := by
  obtain ⟨ins, loc⟩ := x
  by_cases huse : loc = use
  · subst huse
    exact ⟨_, moveStep_use hne ins, rfl, Instr.target?_substitute _ _ _⟩
  · exact ⟨(ins, loc), moveStep_other hx huse, rfl, rfl⟩

theorem supplied_moveStep_iff
    (hne : move.source ≠ use)
    (hlast : lastDefinition w run ≠ some move.source) :
    Supplied params w (run.filterMap (moveStep move use)) d ↔ Supplied params w run d := by
  refine supplied_filterMap_iff (fun l => l = move.source) ?_ ?_ ?_
  · exact fun x _ hx => moveStep_kept hne hx
  · rintro ⟨ins, loc⟩ - rfl x' hx'
    rw [moveStep_source hne] at hx'
    cases hx'
  · rintro e he rfl
    exact hlast he

/-- What an instruction supplies was defined by it, and is no argument. -/
theorem lastDefinition_of_supplied
    (hg : g.Indexed)
    (hholds : g.Holds definition d)
    (h : Supplied params w run d) :
    lastDefinition w run = some d := by
  refine h.resolve_right ?_
  rintro ⟨-, hargument⟩
  obtain ⟨index, -, hindex⟩ := mem_argumentSites.mp hargument
  have hnonneg := hg.nonneg_of_holds hholds
  rw [hindex] at hnonneg
  exact absurd hnonneg (Int.not_le.mpr (Reaching.argumentLoc_neg index))

namespace Detour

theorem reads_definition
    (h : Detour g params move use definition reader) :
    definition.reads = move.value.varsRead :=
  Instr.reads_of_value? h.value_eq

theorem reads
    (h : Detour g params move use definition reader) :
    move.target ∈ reader.reads := by
  obtain ⟨run, ins, hexec, hreads, -⟩ := h.linked
  rwa [h.indexed.holds_unique h.holds_reader hexec.holds]

/-- Only the use is supplied by the definition. -/
theorem not_lastDefinition
    (h : Detour g params move use definition reader)
    (hexec : g.Executes run (ins, y))
    (hreads : w ∈ ins.reads)
    (hother : ¬ (w = move.target ∧ y = use)) :
    lastDefinition w run ≠ some move.source := by
  intro hlast
  have hlink : g.Links params w move.source y := ⟨run, ins, hexec, hreads, Or.inl hlast⟩
  have htarget := hlink.target_eq h.indexed h.holds_definition
  rw [h.target_eq] at htarget
  obtain rfl := Option.some.inj htarget
  exact hother ⟨rfl, h.only_use y hlink⟩

/-- Every run to the use comes through the definition, and nothing that the value reads is
defined from there on. -/
theorem exists_split
    (h : Detour g params move use definition reader)
    (hexec : g.Executes run (reader, use)) :
    ∃ a b, run = a ++ (definition, move.source) :: b ∧
      g.Executes a (definition, move.source) ∧
      ∀ x, x ∈ b → x.2 ≠ move.source ∧ x.1.blocks move.value = false := by
  obtain ⟨d, hd⟩ := h.supplied run hexec
  obtain rfl := h.only_def d ⟨run, reader, hexec, h.reads, hd⟩
  have hlast := lastDefinition_of_supplied h.indexed h.holds_definition hd
  obtain ⟨a, ins, b, rfl, -, hb⟩ := lastDefinition_eq_some_iff.mp hlast
  obtain rfl : definition = ins :=
    h.indexed.holds_unique h.holds_definition (hexec.holds_of_mem (y := (ins, _)) (by simp))
  have hsource : ∀ x, x ∈ b → x.2 ≠ move.source := by
    rintro ⟨i, loc⟩ hx rfl
    have hi : i = definition :=
      h.indexed.holds_unique (hexec.holds_of_mem (y := (i, _)) (by simp [hx])) h.holds_definition
    exact hb _ hx (hi ▸ h.target_eq)
  refine ⟨a, b, rfl, ?_, fun x hx => ⟨hsource x hx, ?_⟩⟩
  · obtain ⟨n, nodes, after, w, htrace⟩ := hexec
    exact ⟨n, nodes, b ++ (reader, use) :: after, w, by simp [htrace]⟩
  · exact (FlowGraph.isUndisturbed_sound h.indexed h.undisturbed hexec hsource).1 x hx

theorem not_mem_of_blocks_eq_false
    {x : RunStep}
    {value : Expr}
    (h : x.1.blocks value = false)
    (hw : w ∈ value.varsRead) :
    x.1.target? ≠ some w := by
  intro htarget
  simp [Instr.blocks, htarget, hw] at h

/-- The operands of the value are supplied at the use as they were at the definition. -/
theorem supplied_operand_iff
    (h : Detour g params move use definition reader)
    (hexec : g.Executes a (definition, move.source))
    (hb : ∀ x, x ∈ b → x.2 ≠ move.source ∧ x.1.blocks move.value = false)
    (hw : w ∈ move.value.varsRead) :
    Supplied params w ((a ++ (definition, move.source) :: b).filterMap (moveStep move use)) d ↔
      Supplied params w a d := by
  have hreads : w ∈ definition.reads := h.reads_definition ▸ hw
  have hbnone : lastDefinition w (b.filterMap (moveStep move use)) = none := by
    rw [lastDefinition_eq_none_iff]
    intro x' hx'
    obtain ⟨x, hx, heq⟩ := List.mem_filterMap.mp hx'
    obtain ⟨x'', hx'', -, htarget⟩ := moveStep_kept h.source_ne (hb x hx).1
    rw [heq] at hx''
    obtain rfl := Option.some.inj hx''
    rw [htarget]
    exact not_mem_of_blocks_eq_false (hb x hx).2 hw
  rw [List.filterMap_append, List.filterMap_cons_none (moveStep_source h.source_ne _),
    Reaching.supplied_append, hbnone]
  simp only [reduceCtorEq, true_and, false_or]
  exact supplied_moveStep_iff h.source_ne
    (h.not_lastDefinition hexec hreads fun hsame => h.source_ne hsame.2)

theorem mem_reads_iff
    (h : Detour g params move use definition reader) :
    w ∈ (reader.substitute move.target move.value).reads ↔
      (w ∈ reader.reads ∧ w ≠ move.target) ∨ w ∈ definition.reads := by
  rw [Instr.mem_reads_substitute, h.reads_definition]
  simp [h.reads]

/-- The links behind a move: the source has none any more, and the use has those of the source
instead of the one to it. -/
theorem links_iff
    (h : Detour g params move use definition reader)
    (hrewrites : Rewrites g g' (moveStep move use)) :
    g'.Links params w d y ↔
      y ≠ move.source ∧
        ((¬ (w = move.target ∧ y = use) ∧ g.Links params w d y) ∨
          (y = use ∧ g.Links params w d move.source)) := by
  constructor
  · rintro ⟨run', ins', hexec', hreads, hsupplied⟩
    obtain ⟨run, ⟨ins, loc⟩, hexec, hstep, rfl⟩ := hrewrites.executes_iff.mp hexec'
    have hsource : loc ≠ move.source := by
      rintro rfl
      rw [moveStep_source h.source_ne] at hstep
      cases hstep
    by_cases huse : loc = use
    · subst huse
      obtain rfl := h.indexed.holds_unique h.holds_reader hexec.holds
      rw [moveStep_use h.source_ne] at hstep
      obtain ⟨rfl, rfl⟩ := Prod.mk.inj (Option.some.inj hstep)
      refine ⟨hsource, ?_⟩
      rcases h.mem_reads_iff.mp hreads with ⟨hw, hne⟩ | hw
      · have hother : ¬ (w = move.target ∧ loc = loc) := fun hsame => hne hsame.1
        refine Or.inl ⟨hother, run, reader, hexec, hw, ?_⟩
        exact (supplied_moveStep_iff h.source_ne (h.not_lastDefinition hexec hw hother)).mp
          hsupplied
      · obtain ⟨a, b, rfl, hexec₀, hb⟩ := h.exists_split hexec
        have hoperand : w ∈ move.value.varsRead := h.reads_definition ▸ hw
        exact Or.inr ⟨rfl, a, definition, hexec₀, hw,
          (h.supplied_operand_iff hexec₀ hb hoperand).mp hsupplied⟩
    · rw [moveStep_other hsource huse] at hstep
      obtain ⟨rfl, rfl⟩ := Prod.mk.inj (Option.some.inj hstep)
      have hother : ¬ (w = move.target ∧ loc = use) := fun hsame => huse hsame.2
      refine ⟨hsource, Or.inl ⟨hother, run, ins, hexec, hreads, ?_⟩⟩
      exact (supplied_moveStep_iff h.source_ne (h.not_lastDefinition hexec hreads hother)).mp
        hsupplied
  · rintro ⟨hsource, ⟨hother, run, ins, hexec, hreads, hsupplied⟩ |
      ⟨rfl, run, ins, hexec, hreads, hsupplied⟩⟩
    · have hsupplied' :=
        (supplied_moveStep_iff h.source_ne (h.not_lastDefinition hexec hreads hother)).mpr
          hsupplied
      by_cases huse : y = use
      · subst huse
        obtain rfl := h.indexed.holds_unique h.holds_reader hexec.holds
        refine ⟨_, _, hrewrites.executes_iff.mpr ⟨run, _, hexec, moveStep_use h.source_ne _, rfl⟩,
          ?_, hsupplied'⟩
        exact h.mem_reads_iff.mpr (Or.inl ⟨hreads, fun hsame => hother ⟨hsame, rfl⟩⟩)
      · exact ⟨_, ins, hrewrites.executes_iff.mpr
          ⟨run, _, hexec, moveStep_other hsource huse, rfl⟩, hreads, hsupplied'⟩
    · -- Any run to the source goes on to the use as some run does.
      obtain rfl := h.indexed.holds_unique h.holds_definition hexec.holds
      obtain ⟨run₀, ins₀, hexec₀, -⟩ := h.linked
      obtain rfl := h.indexed.holds_unique h.holds_reader hexec₀.holds
      obtain ⟨a, b, rfl, -, hb⟩ := h.exists_split hexec₀
      have hexec₁ := hexec₀.splice h.indexed hexec
      refine ⟨_, _, hrewrites.executes_iff.mpr ⟨_, _, hexec₁, moveStep_use h.source_ne _, rfl⟩,
        h.mem_reads_iff.mpr (Or.inr hreads), ?_⟩
      exact (h.supplied_operand_iff hexec hb (h.reads_definition ▸ hreads)).mpr hsupplied

theorem defined_move
    (h : Detour g params move use definition reader)
    (hrewrites : Rewrites g g' (moveStep move use))
    (hdefined : g.Defined params) :
    g'.Defined params := by
  intro run' ins' y w hexec' hreads
  obtain ⟨run, ⟨ins, loc⟩, hexec, hstep, rfl⟩ := hrewrites.executes_iff.mp hexec'
  by_cases huse : loc = use
  · subst huse
    obtain rfl := h.indexed.holds_unique h.holds_reader hexec.holds
    rw [moveStep_use h.source_ne] at hstep
    obtain ⟨rfl, rfl⟩ := Prod.mk.inj (Option.some.inj hstep)
    rcases h.mem_reads_iff.mp hreads with ⟨hw, hne⟩ | hw
    · obtain ⟨d, hd⟩ := hdefined run reader loc w hexec hw
      exact ⟨d, (supplied_moveStep_iff h.source_ne
        (h.not_lastDefinition hexec hw fun hsame => hne hsame.1)).mpr hd⟩
    · obtain ⟨a, b, rfl, hexec₀, hb⟩ := h.exists_split hexec
      obtain ⟨d, hd⟩ := hdefined a definition move.source w hexec₀ hw
      exact ⟨d, (h.supplied_operand_iff hexec₀ hb (h.reads_definition ▸ hw)).mpr hd⟩
  · have hsource : loc ≠ move.source := by
      rintro rfl
      rw [moveStep_source h.source_ne] at hstep
      cases hstep
    rw [moveStep_other hsource huse] at hstep
    obtain ⟨rfl, rfl⟩ := Prod.mk.inj (Option.some.inj hstep)
    obtain ⟨d, hd⟩ := hdefined run ins loc w hexec hreads
    exact ⟨d, (supplied_moveStep_iff h.source_ne
      (h.not_lastDefinition hexec hreads fun hsame => huse hsame.2)).mpr hd⟩

end Detour

end Detour

section Copy

variable {g g' : FlowGraph} {params : List VarId} {move : Move} {use : Loc}
  {run : List RunStep} {w : VarId} {d y : Loc}

/-- Put a value in the place of its variable at a use. -/
def copyStep (move : Move) (use : Loc) (x : RunStep) : Option RunStep :=
  modifyAt use (fun ins => ins.substitute move.target move.value) x

theorem supplied_copyStep_iff :
    Supplied params w (run.filterMap (copyStep move use)) d ↔ Supplied params w run d := by
  refine supplied_filterMap_iff (fun _ => False) ?_ (fun _ _ h => h.elim) (fun _ _ h => h)
  intro x _ _
  by_cases huse : x.2 = use
  · exact ⟨_, rfl, by simp [huse], by simp [huse]⟩
  · exact ⟨_, rfl, by simp [huse], by simp [huse]⟩

theorem varsRead_of_isConst
    {value : Expr}
    (h : value.isConst = true) :
    value.varsRead = [] := by
  cases value <;> simp_all [Expr.isConst, Expr.const?, Expr.varsRead, Expr.subterms, Expr.var?]

theorem mem_reads_copyStep
    {x x' : RunStep}
    (hconst : move.value.isConst = true)
    (h : copyStep move use x = some x') :
    x'.2 = x.2 ∧ (w ∈ x'.1.reads ↔ w ∈ x.1.reads ∧ ¬ (w = move.target ∧ x.2 = use)) := by
  obtain rfl := Option.some.inj h
  by_cases huse : x.2 = use
  · simp [huse, Instr.mem_reads_substitute, varsRead_of_isConst hconst]
  · simp [huse]

/-- The links behind the copy of a constant: the use does not read the variable any more. -/
theorem links_copy_iff
    (hconst : move.value.isConst = true)
    (hrewrites : Rewrites g g' (copyStep move use)) :
    g'.Links params w d y ↔ g.Links params w d y ∧ ¬ (w = move.target ∧ y = use) := by
  constructor
  · rintro ⟨run', ins', hexec', hreads, hsupplied⟩
    obtain ⟨run, ⟨ins, loc⟩, hexec, hstep, rfl⟩ := hrewrites.executes_iff.mp hexec'
    obtain ⟨hplace, hiff⟩ := mem_reads_copyStep (w := w) hconst hstep
    obtain rfl : y = loc := hplace
    obtain ⟨hreads, hother⟩ := hiff.mp hreads
    exact ⟨⟨run, ins, hexec, hreads, supplied_copyStep_iff.mp hsupplied⟩, hother⟩
  · rintro ⟨⟨run, ins, hexec, hreads, hsupplied⟩, hother⟩
    have hstep : copyStep move use (ins, y) = some _ := rfl
    obtain ⟨hplace, hiff⟩ := mem_reads_copyStep (w := w) hconst hstep
    have hexec' := hrewrites.executes_iff.mpr ⟨run, (ins, y), hexec, hstep, rfl⟩
    rw [← Prod.mk.eta (p := ite _ _ _), hplace] at hexec'
    exact ⟨_, _, hexec', hiff.mpr ⟨hreads, hother⟩, supplied_copyStep_iff.mpr hsupplied⟩

theorem defined_copy
    (hconst : move.value.isConst = true)
    (hrewrites : Rewrites g g' (copyStep move use))
    (hdefined : g.Defined params) :
    g'.Defined params := by
  intro run' ins' y w hexec' hreads
  obtain ⟨run, ⟨ins, loc⟩, hexec, hstep, rfl⟩ := hrewrites.executes_iff.mp hexec'
  obtain ⟨-, hiff⟩ := mem_reads_copyStep (w := w) hconst hstep
  obtain ⟨d, hd⟩ := hdefined run ins loc w hexec (hiff.mp hreads).1
  exact ⟨d, supplied_copyStep_iff.mpr hd⟩

end Copy

section Upkeep

variable {c : Chains} {source use : Loc} {w : VarId} {e y : Loc}

theorem mem_inherit
    (operand : VarId) :
    (e ∈ (inherit source use c operand).defs w y ↔
        e ∈ c.defs w y ∨ (w = operand ∧ y = use ∧ e ∈ c.defs w source)) ∧
      (y ∈ (inherit source use c operand).uses w e ↔
        y ∈ c.uses w e ∨ (w = operand ∧ y = use ∧ e ∈ c.defs w source)) := by
  have hadds : Chains.Adds
      (fun c' => (c.defs operand source).foldl (fun c' d => c'.link operand d use) c')
      fun v d u => v = operand ∧ u = use ∧ d ∈ c.defs v source := by
    refine (Chains.adds_foldl fun d _ => Chains.adds_link operand d use).congr fun v d u => ?_
    constructor
    · rintro ⟨d', hd', rfl, rfl, rfl⟩
      exact ⟨rfl, rfl, hd'⟩
    · rintro ⟨rfl, rfl, hd'⟩
      exact ⟨d, hd', rfl, rfl, rfl⟩
  exact hadds c w e y

/-- Operands that move bring their definitions along. -/
theorem mem_foldl_inherit
    (hne : source ≠ use)
    (operands : List VarId) :
    (e ∈ (operands.foldl (inherit source use) c).defs w y ↔
        e ∈ c.defs w y ∨ (w ∈ operands ∧ y = use ∧ e ∈ c.defs w source)) ∧
      (y ∈ (operands.foldl (inherit source use) c).uses w e ↔
        y ∈ c.uses w e ∨ (w ∈ operands ∧ y = use ∧ e ∈ c.defs w source)) := by
  induction operands generalizing c with
  | nil => simp
  | cons operand operands ih =>
      have hsame : e ∈ (inherit source use c operand).defs w source ↔ e ∈ c.defs w source := by
        rw [(mem_inherit operand).1]
        simp [hne]
      rw [List.foldl_cons, ih.1, ih.2, hsame, (mem_inherit operand).1, (mem_inherit operand).2]
      simp only [List.mem_cons]
      constructor
      · tauto
      · tauto

theorem mem_defs_foldl_forgetUse
    (operands : List VarId) :
    e ∈ (operands.foldl (fun c operand => c.forgetUse operand source) c).defs w y ↔
      e ∈ c.defs w y ∧ ¬ (w ∈ operands ∧ y = source) := by
  induction operands generalizing c with
  | nil => simp
  | cons operand operands ih =>
      rw [List.foldl_cons, ih, Chains.mem_defs_forgetUse]
      simp only [List.mem_cons]
      tauto

theorem mutual_foldl_forgetUse
    (operands : List VarId)
    (hc : c.Mutual) :
    (operands.foldl (fun c operand => c.forgetUse operand source) c).Mutual := by
  induction operands generalizing c with
  | nil => exact hc
  | cons operand operands ih => exact ih (hc.forgetUse operand source)

theorem mutual_unlink
    {v : VarId}
    {d u : Loc}
    (hc : c.Mutual) :
    (c.unlink v d u).Mutual := by
  intro w e y
  rw [Chains.mem_uses_unlink, Chains.mem_defs_unlink, hc w e y]

theorem mutual_foldl_inherit
    (hne : source ≠ use)
    (operands : List VarId)
    (hc : c.Mutual) :
    (operands.foldl (inherit source use) c).Mutual := by
  intro w e y
  rw [(mem_foldl_inherit hne operands).1, (mem_foldl_inherit hne operands).2, hc w e y]

end Upkeep

section Run

variable {s s' : Propagation} {params : List VarId} {move : Move} {use : Loc} {ins : Instr}

/-- The chains hold the links of the runs, and every read is defined. -/
def Followed (s : Propagation) (params : List VarId) : Prop :=
  s.chains.Tracks s.graph params ∧ s.graph.Defined params

theorem Allowed.links
    (h : s.Allowed use ins move)
    (hs : s.chains.Tracks s.graph params) :
    s.graph.Links params move.target move.source use ∧
      ∀ e, s.graph.Links params move.target e use → e = move.source := by
  have hmem : ∀ e, s.graph.Links params move.target e use ↔ e = move.source := by
    intro e
    rw [← hs.mem_defs_iff, h.defs_eq, List.mem_singleton]
  exact ⟨(hmem _).mpr rfl, fun e => (hmem e).mp⟩

/-- If a definition has one use only, this is the one that its value moves to. -/
theorem Allowed.uses_eq
    (h : s.Allowed use ins move)
    (hc : s.chains.Mutual)
    (hsingle : (s.chains.uses move.target move.source).length ≤ 1) :
    s.chains.uses move.target move.source = [use] := by
  have huse : use ∈ s.chains.uses move.target move.source :=
    (hc _ _ _).mpr (h.defs_eq ▸ List.mem_singleton_self _)
  match huses : s.chains.uses move.target move.source with
  | [] => simp [huses] at huse
  | [x] => simpa [huses, eq_comm] using huse
  | x :: x' :: rest => simp [huses] at hsingle

theorem Allowed.only_use
    (h : s.Allowed use ins move)
    (hs : s.chains.Tracks s.graph params)
    (hsingle : (s.chains.uses move.target move.source).length ≤ 1)
    (y : Loc)
    (hy : s.graph.Links params move.target move.source y) :
    y = use := by
  rw [← hs.mem_defs_iff, ← hs.mutually, h.uses_eq hs.mutually hsingle, List.mem_singleton] at hy
  exact hy

/-- The graph when the use reads the value in the place of its variable. -/
def movedGraph (s : Propagation) (use : Loc) (move : Move) : FlowGraph :=
  s.graph.modifyInstr use fun ins => ins.substitute move.target move.value

/-- The chains when the use has got the links of the source. -/
def movedChains (s : Propagation) (use : Loc) (move : Move) : Chains :=
  (OrderedSet.ofList move.value.varsRead).foldl (inherit move.source use)
    (s.chains.unlink move.target move.source use)

theorem mutual_movedChains
    (hc : s.chains.Mutual)
    (hne : move.source ≠ use) :
    (s.movedChains use move).Mutual :=
  mutual_foldl_inherit hne _ (mutual_unlink hc)

/-- A definition whose value has moved to its only use has none left. -/
theorem not_isUsed_movedChains
    (hc : s.chains.Mutual)
    (hne : move.source ≠ use)
    (honly : ∀ y, move.source ∈ s.chains.defs move.target y → y = use) :
    (s.movedChains use move).isUsed move.target move.source = false := by
  rw [Chains.isUsed, Bool.not_eq_false', List.isEmpty_iff]
  refine List.eq_nil_iff_forall_not_mem.mpr fun y hy => ?_
  rw [movedChains, (mem_foldl_inherit hne _).2, Chains.mem_uses_unlink,
    Chains.mem_defs_unlink, hc] at hy
  rcases hy with ⟨hlink, hnot⟩ | ⟨-, -, hself, -⟩
  · exact hnot ⟨rfl, rfl, honly y hlink⟩
  · -- the definition would be a use of itself
    exact hne (honly _ hself)

theorem movedChains_of_isConst
    (hconst : move.value.isConst = true) :
    s.movedChains use move = s.chains.unlink move.target move.source use := by
  rw [movedChains, varsRead_of_isConst hconst]
  rfl

/-- A definition that has uses left stays. -/
theorem apply_of_isUsed
    (h : (s.movedChains use move).isUsed move.target move.source = true) :
    s.apply use move =
      { graph := s.movedGraph use move
        chains := s.movedChains use move
        moves := s.moves + 1 } :=
  if_pos h

/-- A definition goes with its last use. -/
theorem apply_of_not_isUsed
    (h : (s.movedChains use move).isUsed move.target move.source = false) :
    s.apply use move =
      { graph := (s.movedGraph use move).removeInstr move.source
        chains := (OrderedSet.ofList move.value.varsRead).foldl
          (fun c operand => c.forgetUse operand move.source) (s.movedChains use move)
        moves := s.moves + 1 } :=
  if_neg (Bool.eq_false_iff.mp h)

section Copied

variable (h : s.Allowed use ins move) (hs : s.chains.Tracks s.graph params)
  (hconst : move.value.isConst = true)

include hs in
theorem rewrites_movedGraph :
    Rewrites s.graph (s.movedGraph use move) (copyStep move use) :=
  Rewrites.modifyInstr hs.indexed use _

include h hs hconst in
theorem Allowed.tracks_copied :
    (s.movedChains use move).Tracks (s.movedGraph use move) params := by
  rw [movedChains_of_isConst hconst]
  refine ⟨hs.indexed.modifyInstr use _, mutual_unlink hs.mutually, fun w e y => ?_⟩
  rw [Chains.mem_defs_unlink, links_copy_iff hconst (rewrites_movedGraph hs), hs.mem_defs_iff]
  refine and_congr_right fun hlink => not_congr ⟨fun hsame => ⟨hsame.1, hsame.2.2⟩, ?_⟩
  rintro ⟨rfl, rfl⟩
  exact ⟨rfl, (h.links hs).2 e hlink, rfl⟩

include h hs in
theorem Allowed.holds_movedGraph
    {definition : Instr}
    (hdefinition : s.graph.Holds definition move.source) :
    (s.movedGraph use move).Holds definition move.source := by
  refine ((rewrites_movedGraph hs).holds_iff (x := (definition, move.source))).mpr
    ⟨(definition, move.source), hdefinition, ?_⟩
  simp [copyStep, modifyAt, h.source_ne]

include h hs hconst in
/-- A definition that has no use left supplies nothing. -/
theorem Allowed.not_links_copied
    (hunused : (s.movedChains use move).isUsed move.target move.source = false)
    (v : VarId)
    (u : Loc) :
    ¬ (s.movedGraph use move).Links params v move.source u := by
  intro hlink
  have htracks := h.tracks_copied hs hconst
  obtain ⟨definition, hdefinition, htarget, -⟩ := h.assigns
  have hholds := h.holds_movedGraph hs (hs.indexed.instrAt_eq_some_iff.mp hdefinition)
  have hv := hlink.target_eq htracks.indexed hholds
  rw [htarget] at hv
  obtain rfl := Option.some.inj hv
  rw [← htracks.mem_defs_iff, ← htracks.mutually] at hlink
  rw [Chains.isUsed, Bool.not_eq_false', List.isEmpty_iff] at hunused
  rw [hunused] at hlink
  exact List.not_mem_nil hlink

include h hs hconst in
/-- A constant is copied to a use. -/
theorem Allowed.tracks_copy :
    (s.apply use move).chains.Tracks (s.apply use move).graph params ∧
      (s.graph.Defined params → (s.apply use move).graph.Defined params) := by
  have htracks := h.tracks_copied hs hconst
  have hdefined : s.graph.Defined params → (s.movedGraph use move).Defined params :=
    defined_copy hconst (rewrites_movedGraph hs)
  cases hused : (s.movedChains use move).isUsed move.target move.source with
  | true =>
      rw [apply_of_isUsed hused]
      exact ⟨htracks, hdefined⟩
  | false =>
      have hnone := h.not_links_copied hs hconst hused
      have hretires := FlowGraph.retires_dropAt (s.movedGraph use move) move.source
      have hremoved := Rewrites.removeInstr htracks.indexed move.source
      rw [apply_of_not_isUsed hused, varsRead_of_isConst hconst]
      refine ⟨⟨htracks.indexed.removeInstr _, htracks.mutually, fun w e y => ?_⟩,
        fun h => hretires.defined hremoved hnone (hdefined h)⟩
      change e ∈ (s.movedChains use move).defs w y ↔ _
      rw [htracks.mem_defs_iff, hretires.links_iff hremoved hnone]
      constructor
      · rintro ⟨run, ins', hexec, hreads, hsupplied⟩
        refine ⟨run, ins', hexec, hreads, hsupplied, ?_⟩
        have hy : y ≠ move.source := by
          rintro rfl
          obtain ⟨definition, hdefinition, -, hvalue⟩ := h.assigns
          have hholds := h.holds_movedGraph hs (hs.indexed.instrAt_eq_some_iff.mp hdefinition)
          obtain rfl : ins' = definition := htracks.indexed.holds_unique hexec.holds hholds
          rw [Instr.reads_of_value? hvalue, varsRead_of_isConst hconst] at hreads
          exact List.not_mem_nil hreads
        simp [dropAt, hy]
      · rintro ⟨run, ins', hexec, hreads, hsupplied, -⟩
        exact ⟨run, ins', hexec, hreads, hsupplied⟩

end Copied

theorem Allowed.detour
    (h : s.Allowed use ins move)
    (hs : s.chains.Tracks s.graph params)
    (hsupplied : ∀ run, s.graph.Executes run (ins, use) → ∃ d, Supplied params move.target run d)
    (hsingle : (s.chains.uses move.target move.source).length ≤ 1)
    (hundisturbed : s.graph.isUndisturbed move.value move.source use = true) :
    ∃ definition, Detour s.graph params move use definition ins := by
  obtain ⟨definition, hdefinition, htarget, hvalue⟩ := h.assigns
  exact ⟨definition, hs.indexed, hsupplied, hs.indexed.instrAt_eq_some_iff.mp hdefinition,
    hs.indexed.instrAt_eq_some_iff.mp h.instrAt_use, htarget, hvalue, (h.links hs).1,
    (h.links hs).2, h.only_use hs hsingle, h.source_ne, hundisturbed⟩

namespace Detour

variable {definition : Instr}

/-- The use is linked as the source was, and not with the source any more. -/
theorem mem_defs_movedChains
    (h : Detour s.graph params move use definition ins)
    (hs : s.chains.Tracks s.graph params)
    (w : VarId)
    (e y : Loc) :
    e ∈ (s.movedChains use move).defs w y ↔
      (s.graph.Links params w e y ∧ ¬ (w = move.target ∧ e = move.source ∧ y = use)) ∨
        (y = use ∧ s.graph.Links params w e move.source) := by
  rw [movedChains, (mem_foldl_inherit h.source_ne _).1, Chains.mem_defs_unlink,
    Chains.mem_defs_unlink, hs.mem_defs_iff, hs.mem_defs_iff, OrderedSet.mem_ofList,
    ← h.reads_definition]
  refine or_congr_right ⟨fun hmoved => ⟨hmoved.2.1, hmoved.2.2.1⟩, ?_⟩
  rintro ⟨rfl, hlink⟩
  refine ⟨?_, rfl, hlink, fun hsame => h.source_ne hsame.2.2⟩
  obtain ⟨run, ins', hexec, hreads, -⟩ := hlink
  obtain rfl : ins' = definition := h.indexed.holds_unique hexec.holds h.holds_definition
  exact hreads

theorem not_isUsed
    (h : Detour s.graph params move use definition ins)
    (hs : s.chains.Tracks s.graph params) :
    (s.movedChains use move).isUsed move.target move.source = false := by
  refine not_isUsed_movedChains hs.mutually h.source_ne fun y hy => h.only_use y ?_
  exact (hs.mem_defs_iff _ _ _).mp hy

/-- A move to the only use takes the definition away. -/
theorem rewrites_apply
    (h : Detour s.graph params move use definition ins)
    (hs : s.chains.Tracks s.graph params) :
    Rewrites s.graph (s.apply use move).graph (moveStep move use) := by
  rw [apply_of_not_isUsed (h.not_isUsed hs)]
  exact (Rewrites.modifyInstr h.indexed use _).trans
    (Rewrites.removeInstr (h.indexed.modifyInstr use _) move.source)

/-- A value moves to its only use. -/
theorem tracks_apply
    (h : Detour s.graph params move use definition ins)
    (hs : s.chains.Tracks s.graph params) :
    (s.apply use move).chains.Tracks (s.apply use move).graph params := by
  have hoperands : ∀ w, w ∈ OrderedSet.ofList move.value.varsRead ↔ w ∈ definition.reads := by
    intro w
    rw [OrderedSet.mem_ofList, h.reads_definition]
  have hrewrites := h.rewrites_apply hs
  rw [apply_of_not_isUsed (h.not_isUsed hs)] at hrewrites ⊢
  refine ⟨(h.indexed.modifyInstr use _).removeInstr _,
    mutual_foldl_forgetUse _ (mutual_movedChains hs.mutually h.source_ne), fun w e y => ?_⟩
  rw [mem_defs_foldl_forgetUse, h.mem_defs_movedChains hs, h.links_iff hrewrites, hoperands]
  constructor
  · rintro ⟨⟨hlink, hnot⟩ | ⟨rfl, hlink⟩, hforgotten⟩
    · refine ⟨?_, Or.inl ⟨?_, hlink⟩⟩
      · rintro rfl
        obtain ⟨run, ins', hexec, hreads, -⟩ := hlink
        obtain rfl : ins' = definition := h.indexed.holds_unique hexec.holds h.holds_definition
        exact hforgotten ⟨hreads, rfl⟩
      · rintro ⟨rfl, rfl⟩
        exact hnot ⟨rfl, h.only_def e hlink, rfl⟩
    · exact ⟨h.source_ne.symm, Or.inr ⟨rfl, hlink⟩⟩
  · rintro ⟨hsource, ⟨hother, hlink⟩ | ⟨rfl, hlink⟩⟩
    · exact ⟨Or.inl ⟨hlink, fun hsame => hother ⟨hsame.1, hsame.2.2⟩⟩,
        fun hforgotten => hsource hforgotten.2⟩
    · exact ⟨Or.inr ⟨rfl, hlink⟩, fun hforgotten => hsource hforgotten.2⟩

end Detour

theorem Followed.supplied
    (hs : s.Followed params)
    (h : s.Allowed use ins move)
    (run : List RunStep)
    (hexec : s.graph.Executes run (ins, use)) :
    ∃ d, Supplied params move.target run d :=
  hs.2 run ins use move.target hexec h.reads

/-- An allowed move keeps the chains those of the graph. -/
theorem Followed.apply
    (hs : s.Followed params)
    (h : s.Allowed use ins move) :
    (s.apply use move).Followed params := by
  rcases h.permitted with hconst | ⟨hsingle, -, hundisturbed, -⟩
  · exact (h.tracks_copy hs.1 hconst).imp_right fun hdefined => hdefined hs.2
  · obtain ⟨definition, hdetour⟩ := h.detour hs.1 (hs.supplied h) hsingle hundisturbed
    exact ⟨hdetour.tracks_apply hs.1, hdetour.defined_move (hdetour.rewrites_apply hs.1) hs.2⟩

theorem Followed.steps
    {moves : List (Loc × Move)}
    (h : Steps s moves s')
    (hs : s.Followed params) :
    s'.Followed params := by
  induction h with
  | none s => exact hs
  | next hallowed _ ih => exact ih (hs.apply hallowed)

/-- When all moves have been made, the chains are those of the graph that is left. -/
theorem run_tracks
    {g : FlowGraph}
    {c : Chains}
    (h : c.Tracks g params)
    (hdefined : g.Defined params) :
    (run g c).chains.Tracks (run g c).graph params ∧ (run g c).graph.Defined params := by
  obtain ⟨moves, hsteps⟩ := run_steps g c
  have hstart : Followed { graph := g, chains := c, moves := 0 } params := ⟨h, hdefined⟩
  exact hstart.steps hsteps

end Run

end Propagation
end DalvikDecompiler
