import DalvikDecompiler.Proofs.Emission.Jumps
import DalvikDecompiler.Proofs.Java.Labels

/-!
# Code that goes along with walks

**Input.** Code that stands at some place, and a node of the graph.

Code mirrors a node if running it shows a trip from the node, which ends at the node that Java goes
on with.  The other way round, the code goes along with each walk from the node until the walk comes
to such a node.  This is said of all that code may do, whether it is run from its start or entered
at one of its labels.

A jump goes on with a node only if the label of this node is known to stand somewhere.

**Results.**
* `Mirrors.straight`, `Mirrors.branch`, `Mirrors.pass`, `Mirrors.leave`: the code of a node.
* `Mirrors.append`, `Mirrors.seq`: code with more code behind it.
* `Mirrors.either`: code that may be entered at two labels of the same name.
-/

namespace DalvikDecompiler
namespace Emission

open Symbolic (Variables Instr)
open Java (Block Statement Expression Action Run Does Outcome)

/-- Java goes on with the code of a node where some code ends. -/
inductive Arrives (src : Source) (marked : NodeId → Prop) (place : Place) : Outcome → NodeId → Prop
  | done {id : NodeId}
      (h : place.next = some id) :
      Arrives src marked place .done id
  | broke {id : NodeId}
      (h : place.breaks.bind Scope.follow = some id) :
      Arrives src marked place .broke id
  | continued {id : NodeId}
      (h : place.continues.bind Scope.again = some id) :
      Arrives src marked place .continued id
  | jumped {id : NodeId}
      (h : marked id) :
      Arrives src marked place (.jumped (src.labelOf id)) id

/-- What happens on a walk from a node while code ends in some way. -/
inductive Fares (src : Source) (marked : NodeId → Prop) (place : Place) (id : NodeId) :
    List FlowEvent → Outcome → Prop
  | arrives {k : Nat} {m : NodeId} {flow : List FlowEvent} {o : Outcome}
      (htrip : src.graph.Trip k id flow (some m))
      (harrives : Arrives src marked place o m) :
      Fares src marked place id flow o
  | leaves {k : Nat} {flow : List FlowEvent}
      (htrip : src.graph.Trip k id flow none) :
      Fares src marked place id flow .left
  | cut {k : Nat} {flow more : List FlowEvent} {fate : Option NodeId}
      (htrip : src.graph.Trip k id (flow ++ more) fate) :
      Fares src marked place id flow .cut

/-- What code does is what happens on a walk. -/
def Shown
    (src : Source)
    (vars : Variables)
    (marked : NodeId → Prop)
    (place : Place)
    (id : NodeId)
    (events : List Action)
    (o : Outcome) : Prop :=
  ∃ flow, Renders src.writing vars flow events ∧ Fares src marked place id flow o

/-- How far code goes along with a walk: to the end of it, or until Java goes on with the code of a
node that the walk has come to. -/
inductive Keeps (src : Source) (vars : Variables) (marked : NodeId → Prop) (place : Place)
    (id : NodeId) (run : Run) (moves : Bool) : Nat → List FlowEvent → Option NodeId → Prop
  | arrives {k k' n : Nat} {m : NodeId} {flow flow' walk : List FlowEvent} {fate : Option NodeId}
      {o : Outcome} {events : List Action}
      (hmoved : moves = true → 0 < k)
      (htrip : src.graph.Trip k id flow (some m))
      (harrives : Arrives src marked place o m)
      (hdoes : run events o)
      (hshown : Renders src.writing vars flow events)
      (honward : src.graph.Trip k' m flow' fate)
      (hsteps : n = k + k')
      (hparts : walk = flow ++ flow') :
      Keeps src vars marked place id run moves n walk fate
  | leaves {n : Nat} {walk : List FlowEvent} {events : List Action}
      (hdoes : run events .left)
      (hshown : Renders src.writing vars walk events) :
      Keeps src vars marked place id run moves n walk none
  | cut {n : Nat} {m : NodeId} {walk : List FlowEvent} {events : List Action}
      (hdoes : run events .cut)
      (hshown : Renders src.writing vars walk events) :
      Keeps src vars marked place id run moves n walk (some m)

/-- Code goes along with the walks from a node, and with nothing else.  Where it moves, it does not
end before the walk has made a step. -/
structure Mirrors
    (src : Source)
    (vars : Variables)
    (marked : NodeId → Prop)
    (place : Place)
    (id : NodeId)
    (moves : Bool)
    (run : Run) : Prop where
  shows : ∀ events o, run events o → Shown src vars marked place id events o
  keeps : ∀ n walk fate, src.graph.Trip n id walk fate →
    Keeps src vars marked place id run moves n walk fate

section Instructions

variable {w : Writing} {vars : Variables} {code : List Instr} {block rest : Block}
variable {events later : List Action} {o : Outcome}

theorem Renders.split
    {flow : List FlowEvent}
    (h : Renders w vars flow (events ++ later)) :
    ∃ first more, flow = first ++ more ∧ Renders w vars first events := by
  generalize hall : events ++ later = all at h
  induction h generalizing events with
  | nil =>
      obtain ⟨rfl, -⟩ := List.append_eq_nil_iff.1 hall
      exact ⟨[], [], rfl, .nil⟩
  | silent hunwritten _ ih =>
      obtain ⟨first, more, rfl, hshown⟩ := ih hall
      exact ⟨_, more, rfl, .silent hunwritten hshown⟩
  | performed hsame hwritten _ ih =>
      rcases List.append_eq_cons_iff.1 hall with ⟨rfl, -⟩ | ⟨events, rfl, rfl⟩
      · exact ⟨[], _, rfl, .nil⟩
      · obtain ⟨first, more, rfl, hshown⟩ := ih rfl
        exact ⟨_, more, rfl, .performed hsame hwritten hshown⟩
  | tested negate hsame _ ih =>
      rcases List.append_eq_cons_iff.1 hall with ⟨rfl, -⟩ | ⟨events, rfl, rfl⟩
      · exact ⟨[], _, rfl, .nil⟩
      · obtain ⟨first, more, rfl, hshown⟩ := ih rfl
        exact ⟨_, more, rfl, .tested negate hsame hshown⟩
  | discarded hsame _ ih =>
      rcases List.append_eq_cons_iff.1 hall with ⟨rfl, -⟩ | ⟨events, rfl, rfl⟩
      · exact ⟨[], _, rfl, .nil⟩
      · obtain ⟨first, more, rfl, hshown⟩ := ih rfl
        exact ⟨_, more, rfl, .discarded hsame hshown⟩

/-- Instructions that stay in the method are done one after the other. -/
theorem Spells.does
    (h : Spells w vars code block)
    (hstays : ∀ ins ∈ code, ins.leaves = false)
    (honward : Does rest later o) :
    Does (block ++ rest) (ranAll block ++ later) o := by
  induction h with
  | nil => exact honward
  | silent _ _ ih => exact ih fun ins hins => hstays ins (List.mem_cons_of_mem _ hins)
  | @cons vars' _ _ _ _ _ hwritten _ ih =>
      have hplain := plain_of_statement vars' w (hstays _ List.mem_cons_self) hwritten
      exact (Java.does_plain_iff hplain).2
        (.inr ⟨_, rfl, ih fun ins hins => hstays ins (List.mem_cons_of_mem _ hins)⟩)

theorem Spells.of_does
    (h : Spells w vars code block)
    (hstays : ∀ ins ∈ code, ins.leaves = false)
    (hwhole : Does (block ++ rest) events o) :
    (∃ unseen, ranAll block = events ++ unseen ∧ o = .cut) ∨
      ∃ later, events = ranAll block ++ later ∧ Does rest later o := by
  induction h generalizing events with
  | nil => exact .inr ⟨events, rfl, hwhole⟩
  | silent _ _ ih => exact ih (fun ins hins => hstays ins (List.mem_cons_of_mem _ hins)) hwhole
  | @cons vars' _ s _ _ _ hwritten _ ih =>
      have hplain := plain_of_statement vars' w (hstays _ List.mem_cons_self) hwritten
      rcases (Java.does_plain_iff hplain).1 hwhole with ⟨rfl, rfl⟩ | ⟨more, rfl, hbehind⟩
      · exact .inl ⟨_, rfl, rfl⟩
      · rcases ih (fun ins hins => hstays ins (List.mem_cons_of_mem _ hins)) hbehind with
          ⟨unseen, hsame, rfl⟩ | ⟨later, rfl, hdoes⟩
        · exact .inl ⟨unseen, congrArg (List.cons (Action.ran s)) hsame, rfl⟩
        · exact .inr ⟨later, rfl, hdoes⟩

/-- Code that ends by leaving the method ends with a statement that does. -/
theorem Spells.exists_leaving
    {ahead : List Instr}
    {last : Instr}
    (h : Spells w vars (ahead ++ [last]) block)
    (hleaves : last.leaves = true) :
    ∃ own s, block = own ++ [s] ∧ Spells w vars ahead own ∧ s.Leaving := by
  induction ahead generalizing block with
  | nil =>
      cases h with
      | silent hunwritten _ =>
          obtain ⟨s, hwritten, -⟩ := leaving_of_statement vars w hleaves
          simp [hwritten] at hunwritten
      | @cons vars' _ s _ _ _ hwritten h =>
          cases h
          obtain ⟨_, hsame, hleaving⟩ := leaving_of_statement vars' w hleaves
          obtain rfl := Option.some.inj (hwritten.symm.trans hsame)
          exact ⟨[], _, rfl, .nil, hleaving⟩
  | cons ins ahead ih =>
      cases h with
      | silent hunwritten h =>
          obtain ⟨own, s, rfl, hspells, hleaving⟩ := ih h
          exact ⟨own, s, rfl, .silent hunwritten hspells, hleaving⟩
      | cons hsame hwritten h =>
          obtain ⟨own, s, rfl, hspells, hleaving⟩ := ih h
          exact ⟨_, s, rfl, .cons hsame hwritten hspells, hleaving⟩

end Instructions

section Places

variable {src : Source} {vars : Variables} {marked : NodeId → Prop} {place : Place}
variable {id m : NodeId} {o : Outcome} {flow flow' : List FlowEvent}

/-- The ways to go on that do not depend on what comes directly behind. -/
theorem Arrives.of_before
    {follow : Option NodeId}
    (h : Arrives src marked (place.before follow) o m)
    (hstops : o ≠ .done) :
    Arrives src marked place o m := by
  cases h with
  | done => exact absurd rfl hstops
  | broke h => exact .broke h
  | continued h => exact .continued h
  | jumped h => exact .jumped h

theorem Arrives.of_escapes
    {place' : Place}
    (h : Arrives src marked place' o m)
    (hescapes : o.escapes = true) :
    Arrives src marked place o m := by
  cases h with
  | done | broke | continued => cases hescapes
  | jumped h => exact .jumped h

theorem Fares.trans
    {k : Nat}
    (htrip : src.graph.Trip k id flow (some m))
    (h : Fares src marked place m flow' o) :
    Fares src marked place id (flow ++ flow') o := by
  cases h with
  | arrives htrip' harrives => exact .arrives (htrip.trans htrip') harrives
  | leaves htrip' => exact .leaves (htrip.trans htrip')
  | cut htrip' => exact .cut (List.append_assoc .. ▸ htrip.trans htrip')

/-- Code that ends before it has made a step. -/
theorem Shown.start :
    Shown src vars marked place id [] .cut :=
  ⟨[], .nil, @Fares.cut src marked place id 0 [] [] _ .here⟩

theorem Shown.trans
    {k : Nat}
    {before events : List Action}
    (htrip : src.graph.Trip k id flow (some m))
    (hshown : Renders src.writing vars flow before)
    (h : Shown src vars marked place m events o) :
    Shown src vars marked place id (before ++ events) o := by
  obtain ⟨more, hshown', hfares⟩ := h
  exact ⟨flow ++ more, hshown.append hshown', .trans htrip hfares⟩

/-- What is seen of a trip shows a walk, wherever watching stops. -/
theorem Shown.cut
    {k : Nat}
    {fate : Option NodeId}
    {events : List Action}
    (htrip : src.graph.Trip k id flow fate)
    (hshown : Renders src.writing vars flow events) :
    Shown src vars marked place id events .cut :=
  ⟨flow, hshown, .cut (List.append_nil flow ▸ htrip)⟩

variable {run run' : Run} {moves moves' : Bool} {n k : Nat} {walk : List FlowEvent}
variable {fate : Option NodeId}

/-- Code goes along with a walk if it comes to some node and goes along from there. -/
theorem Keeps.trans
    {before : List Action}
    (htrip : src.graph.Trip k id flow (some m))
    (hshown : Renders src.writing vars flow before)
    (hmoved : moves = true → 0 < k ∨ moves' = true)
    (hdoes : ∀ events o, run' events o → run (before ++ events) o)
    (h : Keeps src vars marked place m run' moves' n walk fate) :
    Keeps src vars marked place id run moves (k + n) (flow ++ walk) fate := by
  cases h with
  | arrives hmoved' htrip' harrives hdoes' hshown' honward hsteps hparts =>
      refine .arrives (fun h => ?_) (htrip.trans htrip') harrives (hdoes _ _ hdoes')
        (hshown.append hshown') honward (by rw [hsteps, Nat.add_assoc])
        (by rw [hparts, List.append_assoc])
      rcases hmoved h with hnow | hlater
      · exact Nat.add_pos_left hnow _
      · exact Nat.add_pos_right _ (hmoved' hlater)
  | leaves hdoes' hshown' => exact .leaves (hdoes _ _ hdoes') (hshown.append hshown')
  | cut hdoes' hshown' => exact .cut (hdoes _ _ hdoes') (hshown.append hshown')

theorem Keeps.mono
    (h : Keeps src vars marked place id run moves n walk fate)
    (hdoes : ∀ events o, run events o → run' events o) :
    Keeps src vars marked place id run' moves n walk fate := by
  cases h with
  | arrives hmoved htrip harrives hdoes' hshown honward hsteps hparts =>
      exact .arrives hmoved htrip harrives (hdoes _ _ hdoes') hshown honward hsteps hparts
  | leaves hdoes' hshown => exact .leaves (hdoes _ _ hdoes') hshown
  | cut hdoes' hshown => exact .cut (hdoes _ _ hdoes') hshown

end Places

namespace Mirrors

variable {src : Source} {vars : Variables} {marked : NodeId → Prop} {place : Place}
variable {id next : NodeId} {moves moves' : Bool} {run run' : Run} {block rest : Block}

theorem weaken
    (h : Mirrors src vars marked place id moves run) :
    Mirrors src vars marked place id false run where
  shows := h.shows
  keeps n walk fate htrip := by
    cases h.keeps n walk fate htrip with
    | arrives _ htrip harrives hdoes hshown honward hsteps hparts =>
        exact .arrives (fun h => by cases h) htrip harrives hdoes hshown honward hsteps hparts
    | leaves hdoes hshown => exact .leaves hdoes hshown
    | cut hdoes hshown => exact .cut hdoes hshown

theorem congr
    (h : Mirrors src vars marked place id moves run)
    (hsame : ∀ events o, run' events o ↔ run events o) :
    Mirrors src vars marked place id moves run' where
  shows events o hdoes := h.shows events o ((hsame events o).1 hdoes)
  keeps n walk fate htrip := (h.keeps n walk fate htrip).mono fun events o => (hsame events o).2

/-- Where code can be entered in two ways, each of which mirrors the node. -/
theorem either
    (hfirst : ∀ events o, run events o → Mirrors src vars marked place id moves run)
    (hsecond : ∀ events o, run' events o → Mirrors src vars marked place id moves run')
    (hsome : ∃ events o, run events o ∨ run' events o) :
    Mirrors src vars marked place id moves fun events o => run events o ∨ run' events o where
  shows events o hdoes := by
    rcases hdoes with hdoes | hdoes
    · exact (hfirst events o hdoes).shows events o hdoes
    · exact (hsecond events o hdoes).shows events o hdoes
  keeps n walk fate htrip := by
    obtain ⟨events, o, hdoes | hdoes⟩ := hsome
    · exact ((hfirst events o hdoes).keeps n walk fate htrip).mono fun _ _ => .inl
    · exact ((hsecond events o hdoes).keeps n walk fate htrip).mono fun _ _ => .inr

/-- Code that does nothing but go on with the node. -/
theorem stop
    {o : Outcome}
    (harrives : Arrives src marked place o id)
    (honly : ∀ events o', run events o' ↔ events = [] ∧ (o' = o ∨ o' = .cut)) :
    Mirrors src vars marked place id false run where
  shows events o' hdoes := by
    obtain ⟨rfl, rfl | rfl⟩ := (honly _ _).1 hdoes
    · exact ⟨[], .nil, .arrives .here harrives⟩
    · exact .start
  keeps n walk fate htrip :=
    .arrives (fun h => by cases h) .here harrives ((honly _ _).2 ⟨rfl, .inl rfl⟩) .nil htrip
      (Nat.zero_add n).symm rfl

theorem nil
    (h : place.next = some id) :
    Mirrors src vars marked place id false (Does []) :=
  stop (.done h) fun _ _ => Java.does_nil_iff

theorem jump
    {o : Outcome}
    {kind : Java.JumpKind}
    {label : Option String}
    (harrives : Arrives src marked place o id)
    (hdoes : Does (.jump kind label :: rest) [] o)
    (honly : ∀ events o', Does (.jump kind label :: rest) events o' →
      events = [] ∧ (o' = o ∨ o' = .cut)) :
    Mirrors src vars marked place id false (Does (.jump kind label :: rest)) := by
  refine stop harrives fun events o' => ⟨honly events o', ?_⟩
  rintro ⟨rfl, rfl | rfl⟩
  · exact hdoes
  · exact .cut

theorem «break»
    (h : place.breaks.bind Scope.follow = some id) :
    Mirrors src vars marked place id false (Does (plainJump .break :: rest)) := by
  refine jump (.broke h) .break fun events o hdoes => ?_
  cases hdoes
  · exact ⟨rfl, .inr rfl⟩
  · exact ⟨rfl, .inl rfl⟩

theorem «continue»
    (h : place.continues.bind Scope.again = some id) :
    Mirrors src vars marked place id false (Does (plainJump .continue :: rest)) := by
  refine jump (.continued h) .continue fun events o hdoes => ?_
  cases hdoes
  · exact ⟨rfl, .inr rfl⟩
  · exact ⟨rfl, .inl rfl⟩

theorem goto
    (h : marked id) :
    Mirrors src vars marked place id false
      (Does (.jump .goto (some (src.labelOf id)) :: rest)) := by
  refine jump (.jumped h) .goto fun events o hdoes => ?_
  cases hdoes
  · exact ⟨rfl, .inr rfl⟩
  · exact ⟨rfl, .inl rfl⟩

/-- Labels and declarations do not matter. -/
theorem silent
    {front : Block}
    (hsilent : ∀ s ∈ front, s.Silent)
    (h : Mirrors src vars marked place id moves (Does block)) :
    Mirrors src vars marked place id moves (Does (front ++ block)) :=
  h.congr fun _ _ => Java.does_silent_iff hsilent

/-- Code that makes a step and goes on with what mirrors the next node. -/
theorem step
    (hstays : ∀ flow, ¬ src.graph.Step id flow none)
    (hforward : ∀ flow next, src.graph.Step id flow (some next) →
      ∃ before onward, Renders src.writing vars flow before ∧
        Mirrors src vars marked place next false onward ∧
        ∀ events o, onward events o → run (before ++ events) o)
    (hbackward : ∀ events o, run events o →
      Shown src vars marked place id events o ∨
        ∃ flow next before onward later, src.graph.Step id flow (some next) ∧
          Renders src.writing vars flow before ∧ Mirrors src vars marked place next false onward ∧
          events = before ++ later ∧ onward later o)
    (hwaits : run [] .cut) :
    Mirrors src vars marked place id true run where
  shows events o hdoes := by
    rcases hbackward events o hdoes with
      hearly | ⟨flow, next, before, onward, later, hfirst, hshown, hmirrors, rfl, hbehind⟩
    · exact hearly
    · exact .trans hfirst.trip hshown (hmirrors.shows later o hbehind)
  keeps n walk fate htrip := by
    cases htrip with
    | here => exact .cut hwaits .nil
    | leave hlast => exact absurd hlast (hstays _)
    | @step k _ next flow _ _ hfirst honward =>
        obtain ⟨before, block', hshown, hmirrors, hdoes⟩ := hforward _ _ hfirst
        rw [Nat.add_comm k 1]
        exact .trans hfirst.trip hshown (fun _ => .inl Nat.one_pos) hdoes
          (hmirrors.keeps _ _ _ honward)

theorem straight
    {own : Block}
    (hkind : (src.node id).kind.base = .statement)
    (hsuccs : src.graph.succs id = [next])
    (hstays : ∀ ins ∈ (src.node id).ins, ins.leaves = false)
    (hspells : Spells src.writing vars (src.node id).ins own)
    (h : Mirrors src vars marked place next moves (Does rest)) :
    Mirrors src vars marked place id true (Does (own ++ rest)) := by
  have hsteps {flow : List FlowEvent} {n : Option NodeId} :=
    @FlowGraph.step_straight_iff src.graph id flow n next hkind hsuccs
  refine step (fun flow h => by cases (hsteps.1 h).2) (fun flow n hfirst => ?_)
    (fun events o hdoes => ?_) .cut
  · obtain ⟨rfl, hsame⟩ := hsteps.1 hfirst
    obtain rfl := Option.some.inj hsame
    exact ⟨_, Does rest, hspells.renders, h.weaken, fun _ _ => hspells.does hstays⟩
  · rcases hspells.of_does hstays hdoes with ⟨unseen, hsame, rfl⟩ | ⟨later, rfl, hbehind⟩
    · obtain ⟨flow, more, hparts, hshown⟩ := (hsame ▸ hspells.renders).split
      exact .inl ⟨flow, hshown, .cut (hparts ▸ (hsteps.2 ⟨rfl, rfl⟩).trip)⟩
    · exact .inr ⟨_, next, _, Does rest, later, hsteps.2 ⟨rfl, rfl⟩, hspells.renders, h.weaken, rfl,
        hbehind⟩

theorem leave
    {own : Block}
    {ahead : List Instr}
    {last : Instr}
    (hkind : (src.node id).kind.isExit = true)
    (hcode : (src.node id).ins = ahead ++ [last])
    (hstays : ∀ ins ∈ ahead, ins.leaves = false)
    (hleaves : last.leaves = true)
    (hspells : Spells src.writing vars (src.node id).ins own) :
    Mirrors src vars marked place id true (Does own) := by
  have hsteps {flow : List FlowEvent} {n : Option NodeId} :=
    @FlowGraph.step_leave_iff src.graph id flow n hkind
  have hexits : src.graph.Trip 1 id ((src.node id).ins.map .performs) none :=
    .leave (hsteps.2 ⟨rfl, rfl⟩)
  obtain ⟨front, s, rfl, hahead_spells, hleaving⟩ := (hcode ▸ hspells).exists_leaving hleaves
  have hwholly : ranAll (front ++ [s]) = ranAll front ++ [.ran s] := List.map_append
  have hcut {events unseen : List Action} (hsame : ranAll (front ++ [s]) = events ++ unseen) :
      Shown src vars marked place id events .cut := by
    obtain ⟨flow, more, hparts, hshown⟩ := (hsame ▸ hspells.renders).split
    exact ⟨flow, hshown, .cut (hparts ▸ hexits)⟩
  constructor
  · intro events o hdoes
    rcases hahead_spells.of_does hstays hdoes with ⟨unseen, hsame, rfl⟩ | ⟨later, rfl, hbehind⟩
    · exact hcut (by rw [hwholly, hsame, List.append_assoc])
    · rcases (Java.does_leaving_iff hleaving).1 hbehind with ⟨rfl, rfl⟩ | ⟨rfl, rfl⟩
      · have hlast : ranAll (front ++ [s]) = ranAll front ++ [] ++ [.ran s] := by
          rw [hwholly, List.append_nil]
        exact hcut hlast
      · exact ⟨_, hwholly ▸ hspells.renders, .leaves hexits⟩
  · intro n walk fate htrip
    cases htrip with
    | here => exact .cut .cut .nil
    | step hfirst => cases (hsteps.1 hfirst).2
    | leave hlast =>
        obtain ⟨rfl, -⟩ := hsteps.1 hlast
        have hends : Does [s] [.ran s] .left := (Java.does_leaving_iff hleaving).2 (.inr ⟨rfl, rfl⟩)
        exact .leaves (hahead_spells.does hstays hends) (hwholly ▸ hspells.renders)

section Branch

variable {b : BranchTargets} {vars' : Variables}
variable (htargets : (src.node id).kind.targets? = some b)
variable (hcondition : src.graph.Testable id) (hsame : SameVars vars vars')
include htargets hcondition hsame

theorem branch
    {negate : Bool}
    {thenBlock : Block}
    {elseBlock : Option Block}
    (honTrue : Mirrors src vars marked place (b.toward !negate) false (Does thenBlock))
    (honFalse : Mirrors src vars marked place (b.toward negate) false
      (Does (elseBlock.getD []))) :
    Mirrors src vars marked place id true
      (Does [.ifThen (src.test vars' id negate) thenBlock elseBlock]) := by
  have hconveys := conveys_condition hcondition hsame negate
  have hsteps {flow : List FlowEvent} {n : Option NodeId} :=
    @FlowGraph.step_branch_iff src.graph id flow n b htargets
  have hselected (holds : Bool) :
      Mirrors src vars marked place (b.toward (holds != negate)) false
        (Does ((if holds then thenBlock else elseBlock.getD []) ++ [])) := by
    rw [List.append_nil]
    cases holds
    · simpa using honFalse
    · simpa using honTrue
  have hundone (holds : Bool) : ((holds != negate) != negate) = holds := by
    cases holds <;> cases negate <;> rfl
  refine step (fun flow h => ?_) (fun flow n hfirst => ?_) (fun events o hdoes => ?_) .cut
  · obtain ⟨_, _, hnone⟩ := hsteps.1 h
    cases hnone
  · obtain ⟨holds, hdecided, hsame'⟩ := hsteps.1 hfirst
    obtain rfl := Option.some.inj hsame'
    obtain ⟨before, hevaluated, hshown⟩ := hconveys.evaluates _ _ hdecided
    refine ⟨before, _, hshown, ?_, fun _ _ => .ifThen hevaluated⟩
    have honward := hselected (holds != negate)
    rwa [hundone] at honward
  · rcases Java.does_ifThen_iff.1 hdoes with
      ⟨rfl, rfl⟩ | ⟨before, later, holds, rfl, hevaluated, hbehind⟩
    · exact .inl .start
    · obtain ⟨flow, hdecided, hshown⟩ := hconveys.decides _ _ hevaluated
      exact .inr ⟨flow, _, before, _, later, hsteps.2 ⟨_, hdecided, rfl⟩, hshown,
        hselected holds, rfl,
        hbehind⟩

/-- A condition that is tested for nothing. -/
theorem pass
    (hsingle : b.onTrue = b.onFalse)
    (h : Mirrors src vars marked place b.onTrue moves (Does rest)) :
    Mirrors src vars marked place id true
      (Does (.expression (src.test vars' id false) :: rest)) := by
  have htoward (holds : Bool) : b.toward holds = b.onTrue := by
    cases holds <;> simp [BranchTargets.toward, hsingle]
  have hsteps {flow : List FlowEvent} {n : Option NodeId} :=
    @FlowGraph.step_branch_iff src.graph id flow n b htargets
  have hconveys := conveys_condition hcondition hsame false
  have hstays (flow : List FlowEvent) : ¬ src.graph.Step id flow none := by
    intro h
    obtain ⟨_, _, hnone⟩ := hsteps.1 h
    cases hnone
  cases hcondition with
  | @single _ ins hplain hcode =>
      rw [Source.test, conditionWithin_single vars' _ false hplain hcode]
      have hstatement : (Statement.expression
          (Emission.condition vars' src.writing.method.owner ins false)).Plain :=
        .expression (joined?_condition ..)
      refine step hstays (fun flow n hfirst => ?_) (fun events o hdoes => ?_) .cut
      · obtain ⟨holds, hdecided, hsame'⟩ := hsteps.1 hfirst
        obtain rfl := Option.some.inj hsame'
        obtain rfl := (FlowGraph.decides_single_iff hplain hcode).1 hdecided
        refine ⟨_, Does rest, .discarded hsame .nil, (htoward holds).symm ▸ h.weaken,
          fun _ _ hdoes => ?_⟩
        exact (Java.does_plain_iff hstatement).2 (.inr ⟨_, rfl, hdoes⟩)
      · rcases (Java.does_plain_iff hstatement).1 hdoes with ⟨rfl, rfl⟩ | ⟨later, rfl, hbehind⟩
        · exact .inl .start
        · have hdecided := (@FlowGraph.decides_single_iff _ _ _ true _ hplain hcode).2 rfl
          exact .inr ⟨_, _, [_], Does rest, later, hsteps.2 ⟨_, hdecided, rfl⟩,
            .discarded hsame .nil, (htoward true).symm ▸ h.weaken, rfl, hbehind⟩
  | joined hjoined =>
      have htwoParts := joined?_conditionWithin vars' src.graph.size false hjoined
      refine step hstays (fun flow n hfirst => ?_) (fun events o hdoes => ?_) .cut
      · obtain ⟨holds, hdecided, hsame'⟩ := hsteps.1 hfirst
        obtain rfl := Option.some.inj hsame'
        obtain ⟨before, hevaluated, hshown⟩ := hconveys.evaluates _ _ hdecided
        exact ⟨before, Does rest, hshown, (htoward holds).symm ▸ h.weaken,
          fun _ _ => .tests (by simp [Source.test, htwoParts]) hevaluated⟩
      · cases hdoes with
        | cut => exact .inl .start
        | expression hplain => simp [Source.test, htwoParts] at hplain
        | @tests _ holds _ before later _ _ hevaluated hbehind =>
            obtain ⟨flow, hdecided, hshown⟩ := hconveys.decides _ _ hevaluated
            exact .inr ⟨flow, _, before, Does rest, later, hsteps.2 ⟨_, hdecided, rfl⟩, hshown,
              (htoward _).symm ▸ h.weaken, rfl, hbehind⟩

end Branch

/-- Code at one place, and behind it the code of the nodes that it comes to.  Where it goes on in
any other way, both places agree. -/
theorem append
    {inner : Place}
    (hothers : ∀ o m, o ≠ .done → Arrives src marked inner o m → Arrives src marked place o m)
    (hfirst : Mirrors src vars marked inner id moves run)
    (hsecond : ∀ k flow m, inner.next = some m → src.graph.Trip k id flow (some m) →
      Mirrors src vars marked place m false (Does rest)) :
    Mirrors src vars marked place id moves (Java.Splits run rest) := by
  have hnext {k : Nat} {flow : List FlowEvent} {m : NodeId}
      (htrip : src.graph.Trip k id flow (some m)) (h : Arrives src marked inner .done m) :
      Mirrors src vars marked place m false (Does rest) := by
    cases h with
    | done h => exact hsecond k flow m h htrip
  constructor
  · intro events o hdoes
    cases hdoes with
    | onward here hbehind =>
        obtain ⟨flow, hshown, hfares⟩ := hfirst.shows _ _ here
        cases hfares with
        | arrives htrip harrives =>
          exact .trans htrip hshown ((hnext htrip harrives).shows _ _ hbehind)
    | ends hstops here =>
        obtain ⟨flow, hshown, hfares⟩ := hfirst.shows _ _ here
        refine ⟨flow, hshown, ?_⟩
        cases hfares with
        | arrives htrip harrives => exact .arrives htrip (hothers _ _ hstops harrives)
        | leaves htrip => exact .leaves htrip
        | cut htrip => exact .cut htrip
  · intro n walk fate htrip
    cases hfirst.keeps n walk fate htrip with
    | @arrives _ _ _ _ _ _ _ _ o _ hmoved htrip harrives hdoes hshown honward hsteps hparts =>
        by_cases hdone : o = .done
        · subst hdone
          rw [hsteps, hparts]
          exact .trans htrip hshown (fun h => .inl (hmoved h)) (fun _ _ => .onward hdoes)
            ((hnext htrip harrives).keeps _ _ _ honward)
        · exact .arrives hmoved htrip (hothers _ _ hdone harrives) (.ends hdone hdoes) hshown
            honward hsteps
            hparts
    | leaves hdoes hshown => exact .leaves (.ends (fun h => by cases h) hdoes) hshown
    | cut hdoes hshown => exact .cut (.ends (fun h => by cases h) hdoes) hshown

/-- Code inside a statement, and the code behind this statement. -/
theorem seq
    {follow : Option NodeId}
    (hfirst : Mirrors src vars marked (place.before follow) id moves run)
    (hsecond : ∀ k flow m, (place.before follow).next = some m →
      src.graph.Trip k id flow (some m) → Mirrors src vars marked place m false (Does rest)) :
    Mirrors src vars marked place id moves (Java.Splits run rest) :=
  append (fun _ _ hstops harrives => harrives.of_before hstops) hfirst hsecond

end Mirrors

end Emission
end DalvikDecompiler
