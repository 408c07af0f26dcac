import DalvikDecompiler.Proofs.Emission.Course
import DalvikDecompiler.Proofs.OrderedSet

/-!
# Two walks side by side

What is written for a node depends on how a walk goes on from other nodes.  Two walks that go on
alike write a node alike, whatever labels are printed.

What it means to be alike is left open.  Two walks may only take the same way, and name types and
declare variables differently, or they may agree in all they do.

The names and the declarations of variables have no influence on which way a walk takes.  A second
pass over a body therefore meets the same nodes again as the first one.

**Results.**
* `Coupling`: states that correspond, and what this has to respect.
* `parallel_enterNode`: two walks that go on alike write a node alike.
* `emit_eq`: the labels of a method are those of the nodes that the pass that has written it meets
  again.
-/

namespace DalvikDecompiler
namespace Emission

open Symbolic (VarId Variables Instr)
open Java (Block)

/-- A step on the way of a walk: what it does to the course depends on the course alone, and no
visited node is forgotten. -/
structure Proceeds (step : Progress → Progress) : Prop where
  course : ∀ {s s'}, SameCourse s s' → SameCourse (step s) (step s')
  visited : ∀ s, s.visited ⊆ (step s).visited

/-- A correspondence between the states of two walks that write the same code. -/
structure Coupling where
  /-- The states that correspond to each other. -/
  Relates : Progress → Progress → Prop
  /-- Whether states correspond only to themselves. -/
  exact : Prop
  same : exact → ∀ {s s'}, Relates s s' → s = s'
  course : ∀ {s s'}, Relates s s' → SameCourse s s'
  steady : ∀ {α : Type} {m m' : EmitM α}, Steady m → Steady m' → (exact → m = m') →
    ∀ {s s'}, Relates s s' → Relates (m.run s).2 (m'.run s').2
  proceed : ∀ {step}, Proceeds step → ∀ {s s'}, Relates s s' → Relates (step s) (step s')

/-- Two computations that lead from corresponding states to corresponding states, with related
results. -/
def Alike (c : Coupling) {α β : Type} (related : α → β → Prop) (m : EmitM α)
    (m' : EmitM β) : Prop :=
  ∀ s s', c.Relates s s' →
    related (m.run s).1 (m'.run s').1 ∧ c.Relates (m.run s).2 (m'.run s').2

/-- Two computations that lead from corresponding states to corresponding states. -/
abbrev Parallel (c : Coupling) {α : Type} (m m' : EmitM α) : Prop :=
  Alike c (fun a a' => c.exact → a = a') m m'

variable {c : Coupling}

namespace Alike

variable {α α' β β' : Type}
variable {r : α → α' → Prop} {q : β → β' → Prop}
variable {m : EmitM α} {m' : EmitM α'} {f : α → EmitM β} {f' : α' → EmitM β'}

theorem pure
    {a : α}
    {a' : α'}
    (h : r a a') :
    Alike c r (Pure.pure a) (Pure.pure a') :=
  fun _ _ hs => ⟨h, hs⟩

theorem bind
    (h : Alike c r m m')
    (hf : ∀ a a', r a a' → Alike c q (f a) (f' a')) :
    Alike c q (m >>= f) (m' >>= f') := by
  intro s s' hs
  obtain ⟨hr, hs⟩ := h s s' hs
  exact hf _ _ hr _ _ hs

theorem get_bind
    {f : Progress → EmitM β}
    {f' : Progress → EmitM β'}
    (hf : ∀ s s', c.Relates s s' → Alike c q (f s) (f' s')) :
    Alike c q (get >>= f) (get >>= f') :=
  fun s s' hs => hf s s' hs s s' hs

theorem modify
    {step : Progress → Progress}
    (h : Proceeds step) :
    Parallel c (modify step : EmitM Unit) (modify step : EmitM Unit) :=
  fun _ _ hs => ⟨fun _ => rfl, c.proceed h hs⟩

theorem of_steady
    {m' : EmitM α}
    (h : Steady m)
    (h' : Steady m')
    (hsame : c.exact → m = m') :
    Parallel c m m' :=
  fun _ _ hs => ⟨fun hexact => by rw [hsame hexact, c.same hexact hs], c.steady h h' hsame hs⟩

end Alike

section Steps

theorem proceeds_markVisited
    (id : NodeId) :
    Proceeds fun s => { s with visited := OrderedSet.insert s.visited id } where
  course h := ⟨by simp [h.visited], h.gotoTargets, h.nextCase, h.needBreak⟩
  visited _ _ hmem := OrderedSet.mem_insert.2 (.inl hmem)

theorem proceeds_addGoto
    (id : NodeId) :
    Proceeds fun s => { s with gotoTargets := OrderedSet.insert s.gotoTargets id } where
  course h := ⟨h.visited, by simp [h.gotoTargets], h.nextCase, h.needBreak⟩
  visited _ := List.Subset.refl _

theorem proceeds_setNextCase
    (target : Option NodeId) :
    Proceeds fun s => { s with nextCase := target } where
  course h := ⟨h.visited, h.gotoTargets, rfl, h.needBreak⟩
  visited _ := List.Subset.refl _

theorem proceeds_setNeedBreak
    (needBreak : Bool) :
    Proceeds fun s => { s with needBreak } where
  course h := ⟨h.visited, h.gotoTargets, h.nextCase, rfl⟩
  visited _ := List.Subset.refl _

end Steps

/-- The same code with other labels. -/
def Source.relabel (src : Source) (labels : List NodeId) : Source :=
  { src with labels }

section Writing

variable {src : Source} {labels : List NodeId} (hsame : c.exact → labels = src.labels)
variable {visit visit' : Walk} {ctx : Context} {id : NodeId}

theorem parallel_markVisited
    (id : NodeId) :
    Parallel c (Source.markVisited id) (Source.markVisited id) :=
  .modify (proceeds_markVisited id)

theorem parallel_mention
    (types : List String) :
    Parallel c (Source.mention types) (Source.mention types) :=
  .of_steady (steady_mention types) (steady_mention types) fun _ => rfl

include hsame

/-- What does not change the course may be done with other labels. -/
theorem parallel_of_steady
    {α : Type}
    {m : Source → EmitM α}
    (h : ∀ src, Steady (m src)) :
    Parallel c (m src) (m (src.relabel labels)) :=
  .of_steady (h _) (h _) fun hexact => by
    rw [hsame hexact]
    rfl

theorem parallel_conditionOf
    (id : NodeId)
    (negate : Bool) :
    Parallel c (src.conditionOf id negate) ((src.relabel labels).conditionOf id negate) :=
  parallel_of_steady hsame fun src => steady_conditionOf src id negate

theorem parallel_latchCondition
    (latch : Option NodeId) :
    Parallel c (src.latchCondition id latch) ((src.relabel labels).latchCondition id latch) := by
  unfold Source.latchCondition
  rw [show (src.relabel labels).node = src.node from rfl]
  split
  · exact (parallel_markVisited _).bind fun _ _ _ => parallel_conditionOf hsame _ _
  · exact (parallel_mention _).bind fun _ _ _ => .pure fun _ => rfl

theorem alike_isReversed
    (follow : NodeId)
    (b : BranchTargets) :
    Alike c Eq (src.isReversed id follow b) ((src.relabel labels).isReversed id follow b) := by
  refine .get_bind fun s s' hs => ?_
  rw [(c.course hs).nextCase]
  split
  · exact .pure rfl
  · exact (parallel_of_steady hsame fun src => steady_requireSlot src b.onTrue).bind fun _ _ _ =>
      .pure rfl

section Visiting

variable (hv : ∀ ctx id, Parallel c (visit ctx id) (visit' ctx id))
include hv

omit hsame in
theorem parallel_writeNext
    (next : Option NodeId) :
    Parallel c (Source.writeNext visit ctx next) (Source.writeNext visit' ctx next) := by
  cases next with
  | none => exact .pure fun _ => rfl
  | some id => exact hv ctx id

theorem parallel_preTestLoop
    (b : BranchTargets) :
    Parallel c (src.preTestLoop visit ctx id b)
      ((src.relabel labels).preTestLoop visit' ctx id b) :=
  (parallel_conditionOf hsame id _).bind fun _ _ hcondition => (hv _ _).bind fun _ _ hbody =>
    .pure fun hexact => by rw [hcondition hexact, hbody hexact]

omit hv in
theorem parallel_postTestLoop
    {head head' : Context → EmitM Block}
    (hh : ∀ ctx, Parallel c (head ctx) (head' ctx)) :
    Parallel c (src.postTestLoop head ctx id) ((src.relabel labels).postTestLoop head' ctx id) := by
  have hslots (src : Source) (latch : Option NodeId) : Steady (latch.forM src.requireSlot) := by
    cases latch with
    | none => exact .pure _
    | some l => exact steady_requireSlot src l
  exact (parallel_of_steady hsame fun src => hslots src _).bind fun _ _ _ => (hh _).bind
    fun _ _ hbody => (parallel_latchCondition hsame _).bind fun _ _ hcondition =>
      .pure fun hexact => by rw [hcondition hexact, hbody hexact]

omit hsame in
theorem parallel_endlessLoop
    {head head' : Context → EmitM Block}
    (hh : ∀ ctx, Parallel c (head ctx) (head' ctx)) :
    Parallel c (src.endlessLoop visit head ctx id)
      ((src.relabel labels).endlessLoop visit' head' ctx id) := by
  refine (hh _).bind fun _ _ hfirst => .get_bind fun s s' hs => ?_
  rw [(c.course hs).visited]
  exact (parallel_writeNext hv _).bind fun _ _ hlast => (parallel_mention _).bind fun _ _ _ =>
    .pure fun hexact => by rw [hfirst hexact, hlast hexact]

theorem parallel_writeLoop
    {head head' : Context → EmitM Block}
    (hh : ∀ ctx, Parallel c (head ctx) (head' ctx))
    (inner : NodeKind)
    (type : LoopTest) :
    Parallel c (src.writeLoop visit head ctx id inner type)
      ((src.relabel labels).writeLoop visit' head' ctx id inner type) := by
  have hfollowed {loop loop' : EmitM Java.Statement} (h : Parallel c loop loop') :
      Parallel c
        (do
          let loop ← loop
          let rest ← Source.writeNext visit ctx (src.node id).loopFollow
          return loop :: rest)
        (do
          let loop ← loop'
          let rest ← Source.writeNext visit' ctx (src.node id).loopFollow
          return loop :: rest) :=
    h.bind fun _ _ hfirst => (parallel_writeNext hv _).bind fun _ _ hrest =>
      .pure fun hexact => by rw [hfirst hexact, hrest hexact]
  unfold Source.writeLoop
  dsimp only
  split
  · exact hfollowed (parallel_preTestLoop hsame hv _)
  · exact hfollowed (parallel_postTestLoop hsame hh)
  · exact hfollowed (parallel_endlessLoop hv hh)

theorem parallel_writeBranch
    (b : BranchTargets) :
    Parallel c (src.writeBranch visit ctx id b)
      ((src.relabel labels).writeBranch visit' ctx id b) := by
  have hbreaking (negate : Bool) (other : NodeId) :
      Parallel c (src.breakingBranch visit ctx id negate other)
        ((src.relabel labels).breakingBranch visit' ctx id negate other) :=
    (parallel_conditionOf hsame id negate).bind fun _ _ hcondition =>
      (hv _ _).bind fun _ _ hblock =>
      .pure fun hexact => by rw [hcondition hexact, hblock hexact]
  have hcontinuing (negate : Bool) (other : NodeId) :
      Parallel c (src.continuingBranch visit ctx id negate other)
        ((src.relabel labels).continuingBranch visit' ctx id negate other) :=
    (parallel_conditionOf hsame id negate).bind fun _ _ hcondition => (hv _ _).bind fun _ _ hrest =>
      .pure fun hexact => by rw [hcondition hexact, hrest hexact]
  have hjoined (follow : NodeId) :
      Parallel c (src.joinedBranch visit ctx id follow b)
        ((src.relabel labels).joinedBranch visit' ctx id follow b) := by
    refine (alike_isReversed hsame follow b).bind fun reversed _ halike => ?_
    subst halike
    refine (parallel_conditionOf hsame id reversed).bind fun _ _ hcondition =>
      (hv _ _).bind fun _ _ honTrue => ?_
    have hrest := hv ctx follow
    dsimp only
    split
    · exact hrest.bind fun _ _ hrest =>
        .pure fun hexact => by rw [hcondition hexact, honTrue hexact, hrest hexact]
    · exact (hv _ _).bind fun _ _ honFalse => hrest.bind fun _ _ hrest =>
        .pure fun hexact => by rw [hcondition hexact, honTrue hexact, honFalse hexact, hrest hexact]
  unfold Source.writeBranch
  dsimp only
  split
  · exact (parallel_conditionOf hsame id false).bind fun _ _ hcondition =>
      (hv _ _).bind fun _ _ hrest => .pure fun hexact => by rw [hcondition hexact, hrest hexact]
  split
  · exact hbreaking _ _
  split
  · exact hbreaking _ _
  split
  · exact hcontinuing _ _
  split
  · exact hcontinuing _ _
  rw [show (src.relabel labels).node = src.node from rfl]
  split
  · exact hjoined _
  · exact (parallel_conditionOf hsame id false).bind fun _ _ hcondition =>
      (hv _ _).bind fun _ _ honTrue => (hv _ _).bind fun _ _ honFalse =>
        .pure fun hexact => by rw [hcondition hexact, honTrue hexact, honFalse hexact]

omit hsame in
theorem parallel_armBody
    (target : NodeId) :
    Parallel c (Source.armBody visit ctx target) (Source.armBody visit' ctx target) := by
  refine (hv _ _).bind fun body body' halike => .get_bind fun s s' hs => ?_
  rw [(c.course hs).needBreak]
  refine (Alike.modify (proceeds_setNeedBreak true)).bind fun _ _ _ => ?_
  by_cases hexact : c.exact
  · rw [halike hexact]
    split <;> exact .pure fun _ => rfl
  · split <;> split <;> exact .pure fun h => absurd h hexact

omit hsame in
theorem alike_writeArms
    (cases : SwitchTable)
    (targets : List NodeId)
    (fallback : Option NodeId) :
    Alike c (fun a a' => a.2 = a'.2 ∧ (c.exact → a.1 = a'.1))
      (Source.writeArms visit ctx cases targets fallback)
      (Source.writeArms visit' ctx cases targets fallback) := by
  induction targets generalizing fallback with
  | nil => exact .pure ⟨rfl, fun _ => rfl⟩
  | cons target rest ih =>
      refine .get_bind fun s s' hs => ?_
      rw [(c.course hs).visited]
      split
      · exact ih fallback
      · exact (Alike.modify (proceeds_setNextCase _)).bind fun _ _ _ =>
          (parallel_armBody hv target).bind fun _ _ hbody => (ih _).bind fun _ _ harms =>
            .pure ⟨harms.1, fun hexact => by rw [hbody hexact, harms.2 hexact]⟩

omit hsame in
theorem parallel_defaultArm
    (fallback : Option NodeId) :
    Parallel c (Source.defaultArm visit ctx fallback) (Source.defaultArm visit' ctx fallback) := by
  cases fallback with
  | none => exact .pure fun _ => rfl
  | some target => exact (hv _ _).bind fun _ _ hbody => .pure fun hexact => by rw [hbody hexact]

theorem parallel_writeSwitch
    (cases : SwitchTable) :
    Parallel c (src.writeSwitch visit ctx id cases)
      ((src.relabel labels).writeSwitch visit' ctx id cases) := by
  unfold Source.writeSwitch
  rw [show (src.relabel labels).node = src.node from rfl]
  split
  · exact .pure fun _ => rfl
  · refine (parallel_of_steady hsame fun src => steady_instructions src _).bind fun _ _ hbefore =>
      (parallel_of_steady hsame fun src => steady_selectorOf src _).bind fun _ _ hselector =>
        (alike_writeArms hv cases cases.cases cases.fallback).bind fun arms arms' halike =>
          (Alike.modify (proceeds_setNextCase none)).bind fun _ _ _ => ?_
    rw [halike.1]
    exact (parallel_defaultArm hv _).bind fun _ _ hmore =>
      (parallel_writeNext hv _).bind fun _ _ hrest => .pure fun hexact => by
        rw [hbefore hexact, hselector hexact, halike.2 hexact, hmore hexact, hrest hexact]

theorem parallel_writeStraight :
    Parallel c (src.writeStraight visit ctx id)
      ((src.relabel labels).writeStraight visit' ctx id) := by
  refine (parallel_of_steady hsame fun src => steady_instructions src _).bind fun _ _ hown => ?_
  rw [show (src.relabel labels).graph = src.graph from rfl]
  split
  · split
    · exact .pure fun hexact => by rw [hown hexact]
    · refine .get_bind fun s s' hs => ?_
      rw [(c.course hs).nextCase]
      split
      · exact (Alike.modify (proceeds_setNeedBreak false)).bind fun _ _ _ => .pure hown
      · exact (hv _ _).bind fun _ _ hrest => .pure fun hexact => by rw [hown hexact, hrest hexact]
  · exact .pure hown

theorem parallel_writeHandlers
    (handlers : List NodeId) :
    Parallel c (src.writeHandlers visit ctx handlers)
      ((src.relabel labels).writeHandlers visit' ctx handlers) := by
  induction handlers with
  | nil => exact .pure fun _ => rfl
  | cons id rest ih =>
      refine (parallel_markVisited id).bind fun _ _ _ => ?_
      rw [show (src.relabel labels).node = src.node from rfl]
      split
      · exact (parallel_of_steady hsame fun _ => steady_catchDeclaration _ _).bind fun _ _ hdecl =>
          (hv _ _).bind fun _ _ hbody => ih.bind fun _ _ hmore =>
            .pure fun hexact => by rw [hdecl hexact, hbody hexact, hmore hexact]
      · exact ih

theorem parallel_writeRegion
    (start : NodeId)
    (catches : List NodeId)
    (follow : Option NodeId) :
    Parallel c (src.writeRegion visit ctx start catches follow)
      ((src.relabel labels).writeRegion visit' ctx start catches follow) :=
  (hv _ _).bind fun _ _ hbody => (parallel_writeHandlers hsame hv catches).bind fun _ _ hclauses =>
    (parallel_writeNext hv follow).bind fun _ _ hrest =>
      .pure fun hexact => by rw [hbody hexact, hclauses hexact, hrest hexact]

theorem parallel_writeKind
    (kind : NodeKind)
    (ctx : Context) :
    Parallel c (src.writeKind visit id kind ctx)
      ((src.relabel labels).writeKind visit' id kind ctx) := by
  have htwoWay (ctx : Context) :
      Parallel c (src.writeCond visit ctx id) ((src.relabel labels).writeCond visit' ctx id) := by
    unfold Source.writeCond
    rw [show (src.relabel labels).node = src.node from rfl]
    split
    · exact .pure fun _ => rfl
    · exact parallel_writeBranch hsame hv _
  induction kind generalizing ctx with
  | loop inner type ih => exact parallel_writeLoop hsame hv ih inner type
  | statement => exact parallel_writeStraight hsame hv
  | ret => exact parallel_of_steady hsame fun src => steady_instructions src _
  | throw => exact parallel_of_steady hsame fun src => steady_instructions src _
  | conditional => exact htwoWay ctx
  | shortCircuit => exact htwoWay ctx
  | switch cases => exact parallel_writeSwitch hsame hv cases
  | tryBlock start catches follow => exact parallel_writeRegion hsame hv start catches follow
  | catchBlock start => exact hv ctx start

theorem parallel_writeNode :
    Parallel c (src.writeNode visit ctx id) ((src.relabel labels).writeNode visit' ctx id) :=
  (parallel_markVisited id).bind fun _ _ _ =>
    (parallel_of_steady hsame fun _ => steady_declareVars _).bind fun _ _ hdeclared =>
      (parallel_writeKind hsame hv _ ctx).bind fun _ _ hbody => .pure fun hexact => by
        rw [hdeclared hexact, hbody hexact, hsame hexact]
        rfl

/-- **Two walks that go on alike write a node alike.** -/
theorem parallel_enterNode :
    Parallel c (src.enterNode visit ctx id) ((src.relabel labels).enterNode visit' ctx id) := by
  unfold Source.enterNode
  split
  · exact .pure fun _ => rfl
  split
  · exact .pure fun _ => rfl
  refine (parallel_of_steady hsame fun src => steady_requireSlot src id).bind fun _ _ _ =>
    .get_bind fun s s' hs => ?_
  rw [(c.course hs).visited, show (src.relabel labels).node = src.node from rfl]
  split
  · exact (Alike.modify (proceeds_addGoto id)).bind fun _ _ _ => .pure fun _ => rfl
  · exact parallel_writeNode hsame hv

end Visiting

end Writing

/-- States correspond that show the same course. -/
def Coupling.onCourse : Coupling where
  Relates := SameCourse
  exact := False
  same := False.elim
  course h := h
  steady h h' _ _ _ hs := (h _).symm.trans (hs.trans (h' _))
  proceed h _ _ hs := h.course hs

theorem parallel_walk
    (src : Source)
    (labels : List NodeId)
    (depth : Nat)
    (ctx : Context)
    (id : NodeId) :
    Parallel .onCourse (src.walk depth ctx id) ((src.relabel labels).walk depth ctx id) := by
  induction depth generalizing ctx id with
  | zero => exact .pure fun _ => rfl
  | succ depth ih => exact parallel_enterNode False.elim ih

/-- A second pass with labels meets the same nodes again. -/
theorem gotoTargets_relabel
    (src : Source)
    (labels : List NodeId)
    (vars : Variables)
    (naming naming' : Java.Naming) :
    ((src.relabel labels).body.run (.start vars naming')).2.gotoTargets =
      (src.body.run (.start vars naming)).2.gotoTargets :=
  have hstart := parallel_walk src labels _ _ _ (.start vars naming) (.start vars naming')
    ⟨rfl, rfl, rfl, rfl⟩
  hstart.2.gotoTargets

/-- A method is what one pass writes whose labels are those of the nodes it meets again. -/
theorem emit_eq
    (w : Writing)
    (g : FlowGraph)
    (vars : Variables)
    (naming : Java.Naming) :
    ∃ (src : Source) (naming' : Java.Naming) (block : Block) (s : Progress),
      src.writing = w ∧ src.graph = g ∧ src.body.run (.start vars naming') = (block, s) ∧
        s.gotoTargets = src.labels ∧
        (emit w g vars naming).method.body = some block ∧
        (emit w g vars naming).visited = s.visited ∧
        (emit w g vars naming).dangling = s.dangling := by
  unfold emit
  dsimp only
  split
  · next honce =>
      exact ⟨⟨w, g, []⟩, _, _, _, rfl, rfl, rfl, List.isEmpty_iff.1 honce, rfl, rfl, rfl⟩
  · exact ⟨⟨w, g, _⟩, _, _, _, rfl, rfl, rfl, gotoTargets_relabel ⟨w, g, []⟩ .., rfl, rfl, rfl⟩

section Samples

/-- A slot of an example. -/
def sampleSlot (num : Nat) (ifFollow : Option NodeId) (kind : NodeKind) (code : List Instr)
    (succs preds : List NodeId) : Slot :=
  { node := { Node.plain "" kind with ins := code, num, ifFollow }
    live := true
    succs
    preds
    handlerSuccs := []
    handlerPreds := [] }

/-- A comparison with zero. -/
def sampleTest (v : VarId) : Instr :=
  .ifCompareZero .eq (.var v)

/-- An assignment. -/
def sampleAssignment (value : Int32) : Instr :=
  .assign (some 1) (.const (.int value))

/-- A static method without code. -/
def sampleWriting : Writing :=
  { method :=
      { owner := "LT;"
        name := "f"
        descriptor := "()V"
        access := ⟨AccessFlags.staticBit⟩
        registers := 2
        blocks := []
        exceptions := .empty }
    skipSuper := false }

/-- The statement of an assignment. -/
def sampleStatement (value : Int32) : Block :=
  (statement sampleWriting .empty (sampleAssignment value)).1.toList

end Samples

end Emission
end DalvikDecompiler
