import DalvikDecompiler.Proofs.Chains.StraightLine

/-!
# What propagated straight-line code does

**Input.** A graph whose entry leads nowhere, with the chains of its runs.

Code is run until it leaves the method.  What it does are its effects, with the
values that they are given; the last one returns or throws a value.  Code behind
the exit is not run, but as exits keep every other effect from passing them, it
makes no difference to look at it, too.

**Results.**
* `perform_eq`: what code does is what is seen of it up to its first exit.
* `run_performs`: propagated code does what it did before, as long as no call
  passes a read of the heap.
* `callThenRead_performs`: where a call passes one, the value read is another.
-/

namespace DalvikDecompiler

open Symbolic (VarId Expr Instr Interpretation Outcome Event Effect Operator SeenAlike)

namespace Symbolic

/-- Whether an effect leaves the method. -/
def Effect.isExit : Effect → Bool
  | .ret => true
  | .throw => true
  | _ => false

/-- Whether an instruction leaves the method. -/
def Instr.isExit (ins : Instr) : Bool :=
  ins.ownEffect?.any Effect.isExit

/-- An effect with the values that it is given, if an event is one. -/
def Event.effect? {Value : Type*} : Event Value → Option (Effect × List Value)
  | .effect seen values => some (seen, values)
  | .compared .. => none
  | .switched .. => none

/-- The effects up to the first that leaves the method. -/
def untilExit {Value : Type*} : List (Event Value) → List (Effect × List Value)
  | [] => []
  | event :: rest =>
      match event.effect? with
      | none => untilExit rest
      | some (effect, values) =>
          (effect, values) :: if effect.isExit then [] else untilExit rest

section UntilExit

variable {Value : Type*} {events rest : List (Event Value)}

theorem untilExit_append
    (h : ∀ effect values, Event.effect effect values ∈ events → effect.isExit = false) :
    untilExit (events ++ rest) = events.filterMap Event.effect? ++ untilExit rest := by
  induction events with
  | nil => rfl
  | cons event events ih =>
      have hrest := ih fun effect values hmem => h effect values (by simp [hmem])
      cases event with
      | effect effect values =>
          have hexit := h effect values (by simp)
          have hfirst : (Event.effect effect values).effect? = some (effect, values) := rfl
          rw [List.filterMap_cons_some hfirst]
          simp [untilExit, Event.effect?, hexit, hrest]
      | compared relation values =>
          rw [List.filterMap_cons_none rfl]
          exact hrest
      | switched values =>
          rw [List.filterMap_cons_none rfl]
          exact hrest

theorem untilExit_filter
    (events : List (Event Value)) :
    untilExit (events.filter Event.isEffect) = untilExit events := by
  induction events with
  | nil => rfl
  | cons event events ih =>
      cases event with
      | effect effect values =>
          rw [List.filter_cons_of_pos rfl]
          simp [untilExit, Event.effect?, ih]
      | compared relation values => exact ih
      | switched values => exact ih

end UntilExit

namespace Interpretation

variable {Value Heap : Type*} (I : Interpretation Value Heap)

/-- Run code until it leaves the method. -/
def perform : List RunStep → (VarId → Value) → Heap → List (Effect × List Value)
  | [], _, _ => []
  | x :: rest, env, heap =>
      let o := I.exec env x.1 heap
      o.events.filterMap Event.effect? ++
        if x.1.isExit then [] else perform rest o.result o.heap

variable {I} {env : VarId → Value} {e : Expr} {es : List Expr}

theorem evalAll_events
    (h : ∀ e, e ∈ es → ∀ heap effect values,
      Event.effect effect values ∈ (I.eval env e heap).events → effect.isExit = false)
    (heap : Heap)
    (effect : Effect)
    (values : List Value)
    (hmem : Event.effect effect values ∈ (I.evalAll env es heap).events) :
    effect.isExit = false := by
  induction es generalizing heap with
  | nil => simp [evalAll, Outcome.of] at hmem
  | cons e es ih =>
      simp only [evalAll, Outcome.andThen, Outcome.of, List.append_nil, List.mem_append] at hmem
      rcases hmem with hmem | hmem
      · exact h e (by simp) heap effect values hmem
      · exact ih (fun c hc => h c (by simp [hc])) _ hmem

/-- No expression leaves the method. -/
theorem eval_events
    (e : Expr)
    (heap : Heap)
    (effect : Effect)
    (values : List Value)
    (hmem : Event.effect effect values ∈ (I.eval env e heap).events) :
    effect.isExit = false := by
  induction e using Expr.children_induction generalizing heap effect values with
  | step e ih =>
      cases hop : e.operator? with
      | none =>
          obtain ⟨v, rfl⟩ := operator?_eq_none_iff.mp hop
          simp [eval, Outcome.of] at hmem
      | some op =>
          rw [eval_eq hop, Outcome.andThen, List.mem_append] at hmem
          rcases hmem with hmem | hmem
          · exact evalAll_events ih heap effect values hmem
          · cases op <;> simp [apply, Operator.effect?] at hmem
            obtain ⟨rfl, -⟩ := hmem
            rfl

/-- What code does is what is seen of it up to its first exit. -/
theorem perform_eq
    (code : List RunStep)
    (env : VarId → Value)
    (heap : Heap) :
    I.perform code env heap = untilExit (I.run code env heap).events := by
  induction code generalizing env heap with
  | nil => rfl
  | cons x rest ih =>
      obtain ⟨ins, loc⟩ := x
      let o := I.evalAll env ins.operands heap
      obtain ⟨quiet, hquiet⟩ : ∃ quiet, quiet = o.events ++ ins.tests o.result := ⟨_, rfl⟩
      have hoperands : ∀ effect values, Event.effect effect values ∈ quiet →
          effect.isExit = false := by
        intro effect values hmem
        rw [hquiet] at hmem
        rcases List.mem_append.mp hmem with hmem | hmem
        · exact evalAll_events (fun e _ => eval_events e) heap effect values hmem
        · cases ins <;> simp [Instr.tests] at hmem
      have hexec : (I.exec env ins heap).events =
          quiet ++ ins.ownEffect?.toList.map (Event.effect · o.result) := by
        simp [exec, Outcome.andThen, conclude, o, hquiet]
      have hrun : (I.run ((ins, loc) :: rest) env heap).events = (I.exec env ins heap).events ++
          (I.run rest (I.exec env ins heap).result (I.exec env ins heap).heap).events := rfl
      rw [hrun, perform, ih, hexec, List.append_assoc, untilExit_append hoperands,
        List.filterMap_append, List.append_assoc]
      congr 1
      cases hown : ins.ownEffect? with
      | none => simp [Instr.isExit, hown]
      | some effect =>
          cases hexit : effect.isExit with
          | true => simp [Instr.isExit, hown, hexit, untilExit, Event.effect?]
          | false => simp [Instr.isExit, hown, hexit, untilExit, Event.effect?]

end Interpretation
end Symbolic

namespace Propagation

variable {s s' : Propagation} {params : List VarId} {moves : List (Loc × Move)}
  {Value Heap : Type*} {I : Interpretation Value Heap}

/-- What is seen of straight-line code is the same behind allowed moves, as long as no call passes
a read of the heap. -/
theorem Steps.seenAlike
    (h : Steps s moves s')
    (hs : s.chains.Tracks s.graph params)
    (hline : s.graph.flowSuccs s.graph.entry = [])
    (hI : I.Local)
    (havoids : AvoidsReads s moves)
    (env : VarId → Value)
    (heap : Heap) :
    SeenAlike (fun _ => True) (I.run (s.graph.code s.graph.entry) env heap)
      (I.run (s'.graph.code s.graph.entry) env heap) := by
  induction h with
  | none s => exact .of_eq rfl
  | next hallowed hrest ih =>
      obtain ⟨htracks, hdigraph⟩ := hallowed.tracks_of_straight hs hline
      obtain ⟨hclear, havoids⟩ := havoids
      have hentry := congrArg Digraph.entry hdigraph
      have hsuccs := congrArg Digraph.succs hdigraph
      simp only [FlowGraph.toDigraph] at hentry hsuccs
      have hlater := ih htracks (by rw [hentry, hsuccs, hline]) havoids
      rw [hentry] at hlater
      exact (hallowed.seenAlike hs hline hI hclear env heap).trans hlater

universe u v

/-- **Propagated straight-line code does what it did before.**  Propagation in a graph whose entry
leads nowhere is a sequence of allowed moves.  If there is one in which no call moves past an
instruction that reads the heap, then the code that is left makes the same calls, writes and other
effects with the same values, and returns or throws the same value, whatever operators, calls,
reads and writes mean, as long as nothing but calls and reads of the heap depends on the heap. -/
theorem run_performs
    (g : FlowGraph)
    (params : List VarId)
    (c : Chains)
    (h : c.Tracks g params)
    (hline : g.flowSuccs g.entry = []) :
    let start : Propagation := { graph := g, chains := c, moves := 0 }
    (∃ moves, Steps start moves (run g c)) ∧
    ∀ moves, Steps start moves (run g c) → AvoidsReads start moves →
      ∀ (Value : Type u) (Heap : Type v) (I : Interpretation Value Heap), I.Local → ∀ env heap,
        I.perform ((run g c).graph.code g.entry) env heap =
          I.perform (g.code g.entry) env heap := by
  refine ⟨run_steps g c, fun moves hmoves havoids Value Heap I hI env heap => ?_⟩
  have hsame := hmoves.seenAlike h hline hI havoids env heap
  rw [Interpretation.perform_eq, Interpretation.perform_eq, ← Symbolic.untilExit_filter,
    ← Symbolic.untilExit_filter (I.run (g.code g.entry) env heap).events]
  exact congrArg Symbolic.untilExit hsame.events_eq

open FlowGraph (placedSlot)

/-- The field and the method of the examples. -/
def exampleField : Bytecode.FieldRef := ⟨"LP;", "x", "I"⟩

def exampleCall : Expr := .staticCall ⟨"LP;", "tick", "()I"⟩ []

/-- A read of the heap and a call behind it, with the sum of the two returned. -/
def readThenCall : FlowGraph :=
  { FlowGraph.empty with
    slots := #[placedSlot .statement
      [(.assign (some 0) (.staticFieldRead exampleField), 0), (.assign (some 1) exampleCall, 1),
        (.ret (some (.binary .add (.var 0) (.var 1) "I")), 2)] [] []]
    order := [0]
    locIndex := [(0, 0), (1, 0), (2, 0)] }

theorem readThenCall_indexed :
    readThenCall.Indexed := by
  refine .of_lt ⟨FlowGraph.wellFormed_of_lt (by decide) (by decide), ?_, by decide, by decide,
    by decide⟩ (by decide) (by decide)
  simp [readThenCall, FlowGraph.toDigraph, Digraph.reversePostorder, Digraph.postorder,
    Digraph.leaveOrder, FlowGraph.size, FlowGraph.flowSuccs, FlowGraph.succs,
    FlowGraph.handlerSuccs, FlowGraph.empty, placedSlot]

/-- The state in which propagation starts in the example. -/
def readThenCallStart : Propagation :=
  { graph := readThenCall, chains := Chains.ofGraph readThenCall [], moves := 0 }

/-- The call moves into the sum, and then the read of the heap in front of it. -/
def readThenCallMoves : List (Loc × Move) :=
  [(2, ⟨1, 1, exampleCall⟩), (2, ⟨0, 0, .staticFieldRead exampleField⟩)]

theorem readThenCall_steps :
    Steps readThenCallStart readThenCallMoves
      (run readThenCall (Chains.ofGraph readThenCall [])) := by
  have hcall : readThenCallStart.Allowed 2 (.ret (some (.binary .add (.var 0) (.var 1) "I")))
      ⟨1, 1, exampleCall⟩ :=
    allowed_of_moveOf? (v := 1) (by cbv) (by decide) (by cbv)
  have hread : (readThenCallStart.apply 2 ⟨1, 1, exampleCall⟩).Allowed 2
      (.ret (some (.binary .add (.var 0) exampleCall "I"))) ⟨0, 0, .staticFieldRead exampleField⟩ :=
    allowed_of_moveOf? (v := 0) (by cbv) (by decide) (by cbv)
  have hrun : run readThenCall (Chains.ofGraph readThenCall []) =
      readThenCallMoves.foldl (fun s x => s.apply x.1 x.2) readThenCallStart := by
    cbv
  rw [hrun]
  exact .next hcall (.next hread (.none _))

/-- The field is still read in front of the call. -/
theorem run_performs_readThenCall :
    (Chains.ofGraph readThenCall []).Tracks readThenCall [] ∧
      Steps readThenCallStart readThenCallMoves
        (run readThenCall (Chains.ofGraph readThenCall [])) ∧
      AvoidsReads readThenCallStart readThenCallMoves ∧
      ∀ I : Interpretation Int Int, I.Local → ∀ env heap,
        I.perform ((run readThenCall (Chains.ofGraph readThenCall [])).graph.code 0) env heap =
          I.perform (readThenCall.code 0) env heap := by
  have htracks : (Chains.ofGraph readThenCall []).Tracks readThenCall [] :=
    .ofGraph readThenCall_indexed
  have havoids : AvoidsReads readThenCallStart readThenCallMoves :=
    ⟨by cbv, by cbv, trivial⟩
  have hperforms := (run_performs readThenCall [] _ htracks (by decide)).2 readThenCallMoves
    readThenCall_steps havoids Int Int
  exact ⟨htracks, readThenCall_steps, havoids, hperforms⟩

/-- A call and a read of the heap behind it, with the sum of the two returned. -/
def callThenRead : FlowGraph :=
  { FlowGraph.empty with
    slots := #[placedSlot .statement
      [(.assign (some 0) exampleCall, 0), (.assign (some 1) (.staticFieldRead exampleField), 1),
        (.ret (some (.binary .add (.var 0) (.var 1) "I")), 2)] [] []]
    order := [0]
    locIndex := [(0, 0), (1, 0), (2, 0)] }

theorem callThenRead_indexed :
    callThenRead.Indexed := by
  refine .of_lt ⟨FlowGraph.wellFormed_of_lt (by decide) (by decide), ?_, by decide, by decide,
    by decide⟩ (by decide) (by decide)
  simp [callThenRead, FlowGraph.toDigraph, Digraph.reversePostorder, Digraph.postorder,
    Digraph.leaveOrder, FlowGraph.size, FlowGraph.flowSuccs, FlowGraph.succs,
    FlowGraph.handlerSuccs, FlowGraph.empty, placedSlot]

/-- Calls count up a static field and return 0, and operators add. -/
def countingCalls : Interpretation Int Int where
  value
    | .staticFieldRead _, _, heap => heap
    | .binary .., values, _ => values.sum
    | _, _, _ => 0
  heapAfter
    | .call .., _, heap => heap + 1
    | _, _, heap => heap

theorem countingCalls_local :
    countingCalls.Local := by
  intro op _ hread values heap heap'
  cases op <;> first | rfl | cases hread

/-- A call that moves past a read of the heap is made behind it: the field is read before the call
has counted it up. -/
theorem callThenRead_performs :
    (Chains.ofGraph callThenRead []).Tracks callThenRead [] ∧
      callThenRead.flowSuccs callThenRead.entry = [] ∧
      (run callThenRead (Chains.ofGraph callThenRead [])).graph.code 0 =
        [(.assign (some 1) (.staticFieldRead exampleField), 1),
          (.ret (some (.binary .add exampleCall (.var 1) "I")), 2)] ∧
      countingCalls.Local ∧
      countingCalls.perform (callThenRead.code 0) (fun _ => 0) 0 =
        [(.call none ⟨"LP;", "tick", "()I"⟩, []), (.ret, [1])] ∧
      countingCalls.perform ((run callThenRead (Chains.ofGraph callThenRead [])).graph.code 0)
        (fun _ => 0) 0 = [(.call none ⟨"LP;", "tick", "()I"⟩, []), (.ret, [0])] := by
  have hcode : (run callThenRead (Chains.ofGraph callThenRead [])).graph.code 0 =
      [(.assign (some 1) (.staticFieldRead exampleField), 1),
        (.ret (some (.binary .add exampleCall (.var 1) "I")), 2)] := by cbv
  refine ⟨.ofGraph callThenRead_indexed, by decide, hcode, countingCalls_local, by decide, ?_⟩
  rw [hcode]
  decide

end Propagation
end DalvikDecompiler
