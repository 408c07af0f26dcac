import DalvikDecompiler.Proofs.Chains.Effects
import DalvikDecompiler.Proofs.Chains.Observations
import DalvikDecompiler.Proofs.Symbolic.Reordering

/-!
# Propagation in straight-line code

**Input.** A graph whose entry leads nowhere, with the chains of its runs, and
an interpretation in which only calls and reads of the heap depend on the heap.

A definition goes down to its only use by changing places with one instruction
after another, and is then evaluated within the use.  The variable is read
nowhere else before it is defined again.  All that may be amiss is a call that
changes places with an instruction that reads the heap: nothing looks for one
between a definition and a use.

**Results.**
* `run_delay`: a definition may come behind code that does not block its value.
* `Allowed.seenAlike`: a move leaves what is seen as it was, unless it takes a
  call past a read of the heap.
-/

namespace DalvikDecompiler

open Symbolic (VarId Expr Instr Interpretation Outcome Event Effect SameExcept)

namespace Symbolic

/-- Two runs of which the same effects are seen, with the same heap and the same values of all
variables but some behind them. -/
def SeenAlike {Value Heap : Type*} (except : VarId → Prop)
    (o o' : Outcome Value Heap (VarId → Value)) : Prop :=
  SameExcept except o.onlyEffects o'.onlyEffects

namespace SeenAlike

variable {Value Heap : Type*} {o o' o'' : Outcome Value Heap (VarId → Value)}
  {except except' : VarId → Prop}

theorem of_sameExcept
    (h : SameExcept except o o') :
    SeenAlike except o o' :=
  ⟨h.heap_eq, congrArg (List.filter Event.isEffect) h.events_eq, h.result_eq⟩

theorem of_eq
    (h : o.onlyEffects = o'.onlyEffects) :
    SeenAlike except o o' := by
  rw [SeenAlike, h]
  exact ⟨rfl, rfl, fun _ _ => rfl⟩

theorem mono
    (h : SeenAlike except o o')
    (hle : ∀ v, except v → except' v) :
    SeenAlike except' o o' :=
  SameExcept.mono h hle

theorem trans
    (h : SeenAlike except o o')
    (h' : SeenAlike except o' o'') :
    SeenAlike except o o'' :=
  (SameExcept.trans h h').mono fun _ hv => hv.elim id id

/-- A run goes on in two ways that are seen alike. -/
theorem andThen
    {next next' : (VarId → Value) → Heap → Outcome Value Heap (VarId → Value)}
    (o : Outcome Value Heap (VarId → Value))
    (h : SeenAlike except (next o.result o.heap) (next' o.result o.heap)) :
    SeenAlike except (o.andThen next) (o.andThen next') := by
  rw [SeenAlike, Outcome.onlyEffects_andThen, Outcome.onlyEffects_andThen]
  exact ⟨h.heap_eq, congrArg (_ ++ ·) h.events_eq, h.result_eq⟩

end SeenAlike

namespace Interpretation

variable {Value Heap : Type*} {I : Interpretation Value Heap} {v : VarId} {value : Expr}
  {definition reader : Instr} {source use : Loc} {a b c : List RunStep}

/-- Variables that some code does not define keep their values. -/
theorem run_result_of_ne
    (h : ∀ x, x ∈ b → x.1.target? ≠ some v)
    (env : VarId → Value)
    (heap : Heap) :
    (I.run b env heap).result v = env v := by
  induction b generalizing env heap with
  | nil => rfl
  | cons x b ih =>
      have hrest := ih (fun y hy => h y (by simp [hy])) (I.exec env x.1 heap).result
        (I.exec env x.1 heap).heap
      exact hrest.trans (exec_result_of_ne (h x (by simp)) heap)

/-- Code that does not read a variable before it defines it does not depend on it. -/
theorem run_of_not_readNext
    (h : ¬ ReadNext v c)
    {env env' : VarId → Value}
    (henv : ∀ w, w ≠ v → env' w = env w)
    (heap : Heap) :
    SameExcept (fun w => w = v) (I.run c env heap) (I.run c env' heap) := by
  induction c generalizing env env' heap with
  | nil => exact ⟨rfl, rfl, henv⟩
  | cons x c ih =>
      obtain ⟨hreads, hrest⟩ := not_or.mp h
      have hexec : SameExcept (fun w => w = v ∧ x.1.target? ≠ some w) (I.exec env x.1 heap)
          (I.exec env' x.1 heap) :=
        exec_congr (fun w hw => henv w fun heq : w = v => hreads (heq ▸ hw)) henv heap
      refine hexec.andThen ?_
      by_cases htarget : x.1.target? = some v
      · have hsame : (I.exec env' x.1 heap).result = (I.exec env x.1 heap).result :=
          funext fun w => hexec.result_eq w fun hw => hw.2 (hw.1 ▸ htarget)
        rw [hsame]
        exact ⟨rfl, rfl, fun _ _ => rfl⟩
      · exact ih (fun hread => hrest ⟨htarget, hread⟩)
          (fun w hw => hexec.result_eq w fun h => hw h.1) _

/-- A definition may come behind code that does not block its value. -/
theorem run_delay
    (hI : I.Local)
    (htarget : definition.target? = some v)
    (hvalue : definition.value? = some value)
    (hb : ∀ x, x ∈ b → x.1.blocks value = false ∧ v ∉ x.1.reads ∧ x.1.target? ≠ some v ∧
      (value.hasEffect = true → x.1.readsHeap = false))
    (env : VarId → Value)
    (heap : Heap) :
    (I.run ((definition, source) :: b) env heap).onlyEffects =
      (I.run (b ++ [(definition, source)]) env heap).onlyEffects := by
  induction b generalizing env heap with
  | nil => rfl
  | cons x b ih =>
      obtain ⟨hblocks, hreads, hother, hclear⟩ := hb x (by simp)
      have hswap := exec_swap hI htarget hvalue hblocks hreads hother hclear env heap
      have hrest := ih fun y hy => hb y (by simp [hy])
      have hsplit : I.run ((definition, source) :: x :: b) env heap =
          ((I.exec env definition heap).andThen fun env => I.exec env x.1).andThen (I.run b) := by
        rw [Outcome.andThen_andThen]
        rfl
      have hfirst : I.run (x :: (b ++ [(definition, source)])) env heap =
          (I.exec env x.1 heap).andThen (I.run (b ++ [(definition, source)])) := rfl
      rw [hsplit, Outcome.onlyEffects_andThen, hswap, ← Outcome.onlyEffects_andThen,
        List.cons_append, hfirst, Outcome.andThen_andThen, Outcome.onlyEffects_andThen,
        Outcome.onlyEffects_andThen]
      congr 1
      funext env heap
      exact hrest env heap

/-- A definition with the use that its value moves into, and the use with the value. -/
theorem run_definition_reader
    (hI : I.Local)
    (htarget : definition.target? = some v)
    (hvalue : definition.value? = some value)
    (hread : v ∈ reader.reads)
    (hcount : reader.readsOf v ≤ 1)
    (horder : reader.preservesOrder v value = true)
    (hc : reader.target? ≠ some v → ¬ ReadNext v c)
    (env : VarId → Value)
    (heap : Heap) :
    SameExcept (fun w => w = v) (I.run ((definition, source) :: (reader, use) :: c) env heap)
      (I.run ((reader.substitute v value, use) :: c) env heap) := by
  have hreader := exec_substitute_of_preservesOrder hI hread hcount horder env heap
  have hfirst : I.run ((definition, source) :: (reader, use) :: c) env heap =
      ((I.eval env value heap).andThen fun y => I.exec (Function.update env v y) reader).andThen
        (I.run c) := by
    simp only [run, exec_of_value? htarget hvalue, Outcome.andThen_andThen, Outcome.of_andThen]
  rw [hfirst]
  refine hreader.andThen ?_
  by_cases hsame : reader.target? = some v
  · have heq := funext fun w => hreader.result_eq w fun hw => hw.2 hsame
    rw [heq]
    exact ⟨rfl, rfl, fun _ _ => rfl⟩
  · exact run_of_not_readNext (hc hsame) (fun w hw => hreader.result_eq w fun h => hw h.1) _

/-- A value moves from its definition over other code into its only use. -/
theorem run_move
    (hI : I.Local)
    (htarget : definition.target? = some v)
    (hvalue : definition.value? = some value)
    (hb : ∀ x, x ∈ b → x.1.blocks value = false ∧ v ∉ x.1.reads ∧ x.1.target? ≠ some v ∧
      (value.hasEffect = true → x.1.readsHeap = false))
    (hread : v ∈ reader.reads)
    (hcount : reader.readsOf v ≤ 1)
    (horder : reader.preservesOrder v value = true)
    (hc : reader.target? ≠ some v → ¬ ReadNext v c)
    (env : VarId → Value)
    (heap : Heap) :
    SeenAlike (fun w => w = v)
      (I.run (a ++ (definition, source) :: (b ++ (reader, use) :: c)) env heap)
      (I.run (a ++ (b ++ (reader.substitute v value, use) :: c)) env heap) := by
  rw [run_append, run_append]
  refine SeenAlike.andThen _ ?_
  generalize (I.run a env heap).result = env'
  generalize (I.run a env heap).heap = heap'
  have hdelayed :
      (I.run ((definition, source) :: (b ++ (reader, use) :: c)) env' heap').onlyEffects =
        (I.run (b ++ (definition, source) :: (reader, use) :: c) env' heap').onlyEffects := by
    have hfront : (definition, source) :: (b ++ (reader, use) :: c) =
        ((definition, source) :: b) ++ (reader, use) :: c := rfl
    have hbehind : b ++ (definition, source) :: (reader, use) :: c =
        (b ++ [(definition, source)]) ++ (reader, use) :: c := by simp
    rw [hfront, hbehind, run_append, run_append, Outcome.onlyEffects_andThen,
      run_delay hI htarget hvalue hb, ← Outcome.onlyEffects_andThen]
  refine (SeenAlike.of_eq hdelayed).trans ?_
  rw [run_append, run_append]
  exact .andThen _ (.of_sameExcept
    (run_definition_reader hI htarget hvalue hread hcount horder hc _ _))

/-- A constant is read for the variable that holds it. -/
theorem run_copy
    (hI : I.Local)
    (htarget : definition.target? = some v)
    (hvalue : definition.value? = some value)
    (hconst : value.isConst = true)
    (hb : ∀ x, x ∈ b → x.1.target? ≠ some v)
    (env : VarId → Value)
    (heap : Heap) :
    I.run (a ++ (definition, source) :: (b ++ (reader.substitute v value, use) :: c)) env heap =
      I.run (a ++ (definition, source) :: (b ++ (reader, use) :: c)) env heap := by
  obtain ⟨k, rfl⟩ : ∃ k, value = .const k := by
    cases value <;> simp_all [Expr.isConst, Expr.const?]
  have hstill : ∀ env heap', I.eval env (.const k) heap' =
      .of (I.value (.const k) [] heap) heap' := by
    intro env heap'
    rw [hI (.const k) rfl rfl [] heap heap']
    rfl
  have hsplit : ∀ i : Instr, a ++ (definition, source) :: (b ++ (i, use) :: c) =
      (a ++ (definition, source) :: b) ++ (i, use) :: c := by simp
  have hholds : (I.run (a ++ (definition, source) :: b) env heap).result v =
      I.value (.const k) [] heap := by
    rw [run_append]
    refine (run_result_of_ne hb _ _).trans ?_
    rw [exec_of_value? htarget hvalue, hstill, Outcome.of_andThen]
    exact Function.update_self _ _ _
  have hcopied : ∀ heap', I.run ((reader.substitute v (.const k), use) :: c)
        (I.run (a ++ (definition, source) :: b) env heap).result heap' =
      I.run ((reader, use) :: c)
        (I.run (a ++ (definition, source) :: b) env heap).result heap' := by
    intro heap'
    rw [run, run, exec_substitute fun heap' => (hstill _ heap').trans (by rw [hholds])]
  rw [hsplit, hsplit, I.run_append (a ++ (definition, source) :: b),
    I.run_append (a ++ (definition, source) :: b)]
  simp only [Outcome.andThen, hcopied]

end Interpretation
end Symbolic

namespace FlowGraph

variable {g : FlowGraph} {params : List VarId} {n : NodeId} {nodes : List NodeId}
  {a b m : List RunStep} {x : RunStep} {v : VarId} {definition : Instr} {source : Loc}

section Straight

variable (hline : g.flowSuccs g.entry = [])

include hline in
/-- No walk leaves an entry that leads nowhere. -/
theorem walk_eq_of_straight
    (w : g.toDigraph.Walk g.entry n nodes) :
    nodes = [g.entry] := by
  induction w with
  | here => rfl
  | @step p c nodes w hc ih =>
      obtain rfl : p = g.entry := by simpa [ih] using w.target_mem
      have hmem : c ∈ g.flowSuccs g.entry := hc
      rw [hline] at hmem
      cases hmem

include hline in
theorem executes_iff_of_straight :
    g.Executes a x ↔ ∃ after, g.code g.entry = a ++ x :: after := by
  constructor
  · rintro ⟨n, nodes, after, w, htrace⟩
    rw [walk_eq_of_straight hline w, trace_singleton] at htrace
    exact ⟨after, htrace⟩
  · rintro ⟨after, hcode⟩
    exact ⟨g.entry, [g.entry], after, .here, by rw [trace_singleton, hcode]⟩

include hline in
/-- A definition supplies a read in front of which its variable is not defined again. -/
theorem links_of_straight
    (htarget : definition.target? = some v)
    (hcode : g.code g.entry = a ++ (definition, source) :: (b ++ x :: m))
    (hb : ∀ y, y ∈ b → y.1.target? ≠ some v)
    (hread : v ∈ x.1.reads) :
    g.Links params v source x.2 := by
  refine ⟨a ++ (definition, source) :: b, x.1, ?_, hread, Or.inl ?_⟩
  · exact (executes_iff_of_straight hline).mpr ⟨m, by simp [hcode]⟩
  · exact lastDefinition_eq_some_iff.mpr ⟨a, definition, b, rfl, htarget, hb⟩

end Straight

end FlowGraph

namespace Propagation

open FlowGraph (Holds Links Rewrites)
open Symbolic (SeenAlike)

/-- The code between two places. -/
def codeBetween (code : List RunStep) (source use : Loc) : List RunStep :=
  ((code.dropWhile fun x => x.2 != source).drop 1).takeWhile fun x => x.2 != use

/-- Whether a call moves past an instruction that reads the heap. -/
def passesRead (g : FlowGraph) (use : Loc) (move : Move) : Bool :=
  move.value.hasEffect &&
    (codeBetween (g.code g.entry) move.source use).any fun x => x.1.readsHeap

/-- No call moves past an instruction that reads the heap. -/
def AvoidsReads : Propagation → List (Loc × Move) → Prop
  | _, [] => True
  | s, (use, move) :: moves =>
      passesRead s.graph use move = false ∧ AvoidsReads (s.apply use move) moves

/-- The code of the entry around a definition and the use that its value moves into. -/
structure Passage (g : FlowGraph) (move : Move) (use : Loc) (definition reader : Instr)
    (a b c : List RunStep) : Prop where
  code_eq : g.code g.entry = a ++ (definition, move.source) :: (b ++ (reader, use) :: c)
  target_eq : definition.target? = some move.target
  value_eq : definition.value? = some move.value
  not_defined : ∀ x, x ∈ b → x.1.target? ≠ some move.target

variable {s : Propagation} {params : List VarId} {move : Move} {use : Loc}
  {definition ins : Instr} {a b c : List RunStep}

namespace Passage

variable (hp : Passage s.graph move use definition ins a b c) (hg : s.graph.Indexed)

include hp hg in
theorem ne_source
    {x : RunStep}
    (hx : x ∈ a ∨ x ∈ b ++ (ins, use) :: c) :
    x.2 ≠ move.source :=
  hg.place_ne hp.code_eq hx

include hp in
theorem code_eq' :
    s.graph.code s.graph.entry = (a ++ (definition, move.source) :: b) ++ (ins, use) :: c := by
  rw [hp.code_eq]
  simp

include hp hg in
theorem ne_use
    {x : RunStep}
    (hx : x ∈ a ++ (definition, move.source) :: b ∨ x ∈ c) :
    x.2 ≠ use :=
  hg.place_ne hp.code_eq' hx

include hp hg in
/-- What is between the two places is found. -/
theorem codeBetween_eq :
    codeBetween (s.graph.code s.graph.entry) move.source use = b := by
  have ha : ∀ x, x ∈ a → (x.2 != move.source) = true := fun x hx => by
    simpa using hp.ne_source hg (.inl hx)
  have hb : ∀ x, x ∈ b → (x.2 != use) = true := fun x hx => by
    simpa using hp.ne_use hg (.inl (by simp [hx]))
  rw [codeBetween, hp.code_eq, List.dropWhile_append_of_pos ha,
    List.dropWhile_cons_of_neg (by simp), List.drop_one, List.tail_cons,
    List.takeWhile_append_of_pos hb, List.takeWhile_cons_of_neg (by simp), List.append_nil]

include hp hg in
/-- Steps at other places are those around the definition and the use. -/
theorem filterMap_eq
    {f : RunStep → Option RunStep}
    (hf : ∀ x, x.2 ≠ move.source → x.2 ≠ use → f x = some x) :
    (s.graph.code s.graph.entry).filterMap f =
      a ++ ((f (definition, move.source)).toList ++ (b ++ ((f (ins, use)).toList ++ c))) := by
  have hkept : ∀ l : List RunStep, (∀ x, x ∈ l → x ∈ a ∨ x ∈ b ∨ x ∈ c) → l.filterMap f = l := by
    intro l hl
    rw [List.filterMap_congr fun x hx => hf x ?_ ?_]
    · exact List.filterMap_some
    · rcases hl x hx with hx | hx | hx
      · exact hp.ne_source hg (.inl hx)
      · exact hp.ne_source hg (.inr (by simp [hx]))
      · exact hp.ne_source hg (.inr (by simp [hx]))
    · rcases hl x hx with hx | hx | hx
      · exact hp.ne_use hg (.inl (by simp [hx]))
      · exact hp.ne_use hg (.inl (by simp [hx]))
      · exact hp.ne_use hg (.inr hx)
  have hcons : ∀ (x : RunStep) (l : List RunStep),
      (x :: l).filterMap f = (f x).toList ++ l.filterMap f := by
    intro x l
    cases hx : f x <;> simp [hx]
  rw [hp.code_eq, List.filterMap_append, hcons, List.filterMap_append, hcons,
    hkept a fun x hx => .inl hx, hkept b fun x hx => .inr (.inl hx),
    hkept c fun x hx => .inr (.inr hx)]

include hp hg in
theorem filterMap_moveStep
    (hne : move.source ≠ use) :
    (s.graph.code s.graph.entry).filterMap (moveStep move use) =
      a ++ (b ++ (ins.substitute move.target move.value, use) :: c) := by
  rw [hp.filterMap_eq hg fun x => moveStep_other, moveStep_source hne, moveStep_use hne]
  rfl

include hp hg in
theorem filterMap_copyStep
    (hne : move.source ≠ use) :
    (s.graph.code s.graph.entry).filterMap (copyStep move use) =
      a ++ (definition, move.source) ::
        (b ++ (ins.substitute move.target move.value, use) :: c) := by
  rw [hp.filterMap_eq hg fun x _ hx => by simp [copyStep, modifyAt, hx]]
  simp [copyStep, modifyAt, hne]

variable (hline : s.graph.flowSuccs s.graph.entry = [])
  (honly : ∀ y, s.graph.Links params move.target move.source y → y = use)

include hp hline honly in
/-- In front of another definition only the use reads the variable. -/
theorem not_read_of_split
    (front behind : List RunStep)
    {x : RunStep}
    (hsplit : b ++ (ins, use) :: c = front ++ x :: behind)
    (hfront : ∀ y, y ∈ front → y.1.target? ≠ some move.target)
    (hx : x.2 ≠ use) :
    move.target ∉ x.1.reads := by
  intro hread
  have hcode := hp.code_eq
  rw [hsplit] at hcode
  exact hx (honly _ (FlowGraph.links_of_straight hline hp.target_eq hcode hfront hread))

include hp hg hline honly in
/-- No instruction on the way reads the variable. -/
theorem not_read
    {x : RunStep}
    (hx : x ∈ b) :
    move.target ∉ x.1.reads := by
  have hne := hp.ne_use hg (x := x) (.inl (by simp [hx]))
  have hdefined := hp.not_defined
  obtain ⟨front, behind, rfl⟩ := List.append_of_mem hx
  exact hp.not_read_of_split hline honly front (behind ++ (ins, use) :: c) (by simp)
    (fun y hy => hdefined y (by simp [hy])) hne

include hp hg hline honly in
/-- No instruction behind the use reads the variable before it is defined again. -/
theorem not_readNext
    (hother : ins.target? ≠ some move.target) :
    ¬ ReadNext move.target c := by
  intro hread
  obtain ⟨front, x, behind, rfl, hx, hfront⟩ := readNext_iff.mp hread
  refine hp.not_read_of_split hline honly (b ++ (ins, use) :: front) behind (by simp)
    (fun y hy => ?_) (hp.ne_use hg (.inr (by simp))) hx
  rcases List.mem_append.mp hy with hy | hy
  · exact hp.not_defined y hy
  · rcases List.mem_cons.mp hy with rfl | hy
    · exact hother
    · exact hfront y hy

end Passage

section Move

variable (hs : s.chains.Tracks s.graph params)
  (hline : s.graph.flowSuccs s.graph.entry = []) (h : s.Allowed use ins move)

include hs hline h in
theorem Allowed.exists_passage :
    ∃ definition a b c, s.graph.Holds definition move.source ∧
      Passage s.graph move use definition ins a b c := by
  obtain ⟨definition, hdefinition, htarget, hvalue⟩ := h.assigns
  have hholds := hs.indexed.instrAt_eq_some_iff.mp hdefinition
  obtain ⟨run, reader, hexec, hreads, hsupplied⟩ := (h.links hs).1
  obtain rfl : reader = ins := hs.indexed.holds_unique hexec.holds
    (hs.indexed.instrAt_eq_some_iff.mp h.instrAt_use)
  obtain ⟨a, other, b, rfl, -, hb⟩ := lastDefinition_eq_some_iff.mp
    (lastDefinition_of_supplied hs.indexed hholds hsupplied)
  obtain rfl : definition = other :=
    hs.indexed.holds_unique hholds (hexec.holds_of_mem (y := (other, _)) (by simp))
  obtain ⟨c, hcode⟩ := (FlowGraph.executes_iff_of_straight hline).mp hexec
  exact ⟨definition, a, b, c, hholds, by simp [hcode], htarget, hvalue, hb⟩

include hline in
/-- The use is run behind the definition only. -/
theorem Passage.supplied
    (hp : Passage s.graph move use definition ins a b c)
    (hg : s.graph.Indexed)
    (run : List RunStep)
    (hexec : s.graph.Executes run (ins, use)) :
    ∃ d, Supplied params move.target run d := by
  obtain ⟨after, hcode⟩ := (FlowGraph.executes_iff_of_straight hline).mp hexec
  obtain ⟨-, rfl, -⟩ := hg.split_unique hcode hp.code_eq'
  exact ⟨move.source, Or.inl
    (lastDefinition_eq_some_iff.mpr ⟨a, definition, b, rfl, hp.target_eq, hp.not_defined⟩)⟩

include hs hline h in
theorem Allowed.exists_detour
    (hconst : move.value.isConst = false) :
    ∃ definition a b c, Passage s.graph move use definition ins a b c ∧
      Detour s.graph params move use definition ins := by
  obtain ⟨hsingle, -, hundisturbed, -⟩ := h.permitted.resolve_left (by simp [hconst])
  obtain ⟨definition, a, b, c, hholds, hp⟩ := h.exists_passage hs hline
  obtain ⟨other, hdetour⟩ := h.detour hs (hp.supplied hline hs.indexed) hsingle hundisturbed
  obtain rfl : other = definition := hs.indexed.holds_unique hdetour.holds_definition hholds
  exact ⟨other, a, b, c, hp, hdetour⟩

include hs hline h in
/-- An allowed move keeps the chains those of the graph, whether all reads are defined or not. -/
theorem Allowed.tracks_of_straight :
    (s.apply use move).chains.Tracks (s.apply use move).graph params ∧
      (s.apply use move).graph.toDigraph = s.graph.toDigraph := by
  cases hconst : move.value.isConst with
  | true =>
      refine ⟨(h.tracks_copy hs hconst).1, ?_⟩
      have hcopied : (s.movedGraph use move).toDigraph = s.graph.toDigraph :=
        (rewrites_movedGraph hs).toDigraph_eq
      cases hused : (s.movedChains use move).isUsed move.target move.source with
      | true =>
          rw [apply_of_isUsed hused]
          exact hcopied
      | false =>
          rw [apply_of_not_isUsed hused]
          have hg := (h.tracks_copied hs hconst).indexed
          exact (Rewrites.removeInstr hg move.source).toDigraph_eq.trans hcopied
  | false =>
      obtain ⟨definition, a, b, c, -, hdetour⟩ := h.exists_detour hs hline hconst
      exact ⟨hdetour.tracks_apply hs, (hdetour.rewrites_apply hs).toDigraph_eq⟩

variable {Value Heap : Type*} {I : Interpretation Value Heap}

include hs hline h in
/-- A value that moves to its only use is evaluated there as it was before, if it is no call that
passes a read of the heap. -/
theorem Allowed.seenAlike_move
    (hI : I.Local)
    (hconst : move.value.isConst = false)
    (hclear : passesRead s.graph use move = false)
    (env : VarId → Value)
    (heap : Heap) :
    SeenAlike (fun w => w = move.target) (I.run (s.graph.code s.graph.entry) env heap)
      (I.run ((s.apply use move).graph.code s.graph.entry) env heap) := by
  have hg := hs.indexed
  obtain ⟨hsingle, hcount, hundisturbed, horder⟩ := h.permitted.resolve_left (by simp [hconst])
  obtain ⟨definition, a, b, c, hp, hdetour⟩ := h.exists_detour hs hline hconst
  have hexec : s.graph.Executes (a ++ (definition, move.source) :: b) (ins, use) :=
    (FlowGraph.executes_iff_of_straight hline).mpr ⟨c, hp.code_eq'⟩
  have hblocks := (FlowGraph.isUndisturbed_sound hg hundisturbed hexec
    fun x hx => hp.ne_source hg (.inr (by simp [hx]))).1
  have hreads : move.value.hasEffect = true → ∀ x, x ∈ b → x.1.readsHeap = false := by
    intro heffect x hx
    rw [passesRead, heffect, Bool.true_and, hp.codeBetween_eq hg, List.any_eq_false] at hclear
    simpa using hclear x hx
  rw [(hdetour.rewrites_apply hs).code_eq, hp.filterMap_moveStep hg h.source_ne, hp.code_eq]
  exact Interpretation.run_move hI hp.target_eq hp.value_eq
    (fun x hx => ⟨hblocks x hx, hp.not_read hg hline (h.only_use hs hsingle) hx,
      hp.not_defined x hx, fun heffect => hreads heffect x hx⟩)
    h.reads hcount horder (hp.not_readNext hg hline (h.only_use hs hsingle)) env heap

include hs hline h in
/-- A copied constant is the value of the variable. -/
theorem Allowed.run_movedGraph
    (hI : I.Local)
    (hconst : move.value.isConst = true)
    (env : VarId → Value)
    (heap : Heap) :
    I.run ((s.movedGraph use move).code s.graph.entry) env heap =
      I.run (s.graph.code s.graph.entry) env heap := by
  obtain ⟨definition, a, b, c, -, hp⟩ := h.exists_passage hs hline
  rw [(rewrites_movedGraph hs).code_eq, hp.filterMap_copyStep hs.indexed h.source_ne, hp.code_eq]
  exact Interpretation.run_copy hI hp.target_eq hp.value_eq hconst hp.not_defined env heap

include hs hline h in
/-- A constant is copied to a use, and its definition goes with the last one. -/
theorem Allowed.seenAlike_copy
    (hI : I.Local)
    (hconst : move.value.isConst = true)
    (env : VarId → Value)
    (heap : Heap) :
    SeenAlike (fun _ => True) (I.run (s.graph.code s.graph.entry) env heap)
      (I.run ((s.apply use move).graph.code s.graph.entry) env heap) := by
  rw [← h.run_movedGraph hs hline hI hconst env heap]
  cases hused : (s.movedChains use move).isUsed move.target move.source with
  | true =>
      rw [apply_of_isUsed hused]
      exact .of_eq rfl
  | false =>
      rw [apply_of_not_isUsed hused]
      have hg := (h.tracks_copied hs hconst).indexed
      obtain ⟨definition, hdefinition, htarget, hvalue⟩ := h.assigns
      have hholds := h.holds_movedGraph hs (hs.indexed.instrAt_eq_some_iff.mp hdefinition)
      have hnone := (Expr.calls_eq_nil_iff move.value).mp (calls_of_isConst hconst)
      have hquiet : definition.hasEffect = false := by
        cases definition <;> simp_all [Instr.value?, Instr.hasEffect]
      have hentry : (s.movedGraph use move).entry = s.graph.entry :=
        congrArg Digraph.entry (rewrites_movedGraph hs).toDigraph_eq
      have hbegins :
          (s.movedGraph use move).Begins ((s.movedGraph use move).code s.graph.entry) := by
        rw [← hentry, ← FlowGraph.trace_singleton]
        exact FlowGraph.begins_trace .here
      rw [(Rewrites.removeInstr hg move.source).code_eq]
      refine (SeenAlike.of_sameExcept ((FlowGraph.retires_dropAt _ _).run_sameExcept
        (h.not_links_copied hs hconst hused) (fun other env heap hother => ?_) hbegins env
        heap)).mono fun _ _ => trivial
      obtain rfl := hg.holds_unique hholds hother
      simpa [dropAt, Interpretation.run] using
        Interpretation.exec_of_not_hasEffect (I := I) (by simp [htarget]) hquiet env heap

include hs hline h in
/-- What is seen of straight-line code is the same behind an allowed move, unless a call passes a
read of the heap. -/
theorem Allowed.seenAlike
    (hI : I.Local)
    (hclear : passesRead s.graph use move = false)
    (env : VarId → Value)
    (heap : Heap) :
    SeenAlike (fun _ => True) (I.run (s.graph.code s.graph.entry) env heap)
      (I.run ((s.apply use move).graph.code s.graph.entry) env heap) := by
  cases hconst : move.value.isConst with
  | true => exact h.seenAlike_copy hs hline hI hconst env heap
  | false => exact (h.seenAlike_move hs hline hI hconst hclear env heap).mono fun _ _ => trivial

end Move

end Propagation
end DalvikDecompiler
