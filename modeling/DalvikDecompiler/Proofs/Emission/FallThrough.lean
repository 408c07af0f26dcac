import DalvikDecompiler.Proofs.Emission.Dispatch
import DalvikDecompiler.Proofs.Emission.Loops

/-!
# How the arms of a switch end

**Input.** A graph without loops and protected regions, with one switch.

An arm that runs off its end goes on with the next arm, and one that breaks with what follows the
switch.  Each arm goes along with the walks from its target, and these have come to the target of
the next arm or to what follows the switch.

This needs that the node which is to follow where a block ends is the one behind it, and that the
arm is not mixed: it gets no break as soon as one of its nodes runs on into the next target,
whatever its other nodes do.  Both can be told from the graph.

**Results.**
* `Selects.mirrors`: one arm, whether a break closes it or not.
* `arms_fall_through`: all arms of the switch of a method.
* `mixedArm_fallsIntoNext`: an arm that is mixed.
-/

namespace DalvikDecompiler
namespace Emission

open Symbolic (Variables Instr)
open Java (Block SwitchArm Statement Does Outcome Run)

/-- In front of the code of an arm that a node comes behind. -/
def Spot.arm
    (g : FlowGraph)
    (place : Place)
    (ctx : Context)
    (id target : NodeId)
    (next : Option NodeId) : Spot :=
  ⟨place.inSwitch id (g.node id).switchFollow next, ctx.push .switchEnd (g.node id).switchFollow,
    target, .node⟩

/-- What follows a switch. -/
def switchExit (g : FlowGraph) (place : Place) (id : NodeId) : Option NodeId :=
  (g.node id).switchFollow.or place.next

/-- The blocks of an arm end where they should: in front of what follows the switch or, if it may
run on into the next arm of the table, in front of the arm that stands behind it. -/
structure Unmixed
    (g : FlowGraph)
    (case : Option NodeId)
    (place : Place)
    (ctx : Context)
    (id target : NodeId)
    (behind : Option NodeId) : Prop where
  resumes : Resumes g case (.arm g place ctx id target (switchExit g place id))
  runsOn : (∃ inner n, RunsOn g case (.arm g place ctx id target (switchExit g place id)) inner n) →
    Resumes g case (.arm g place ctx id target behind) ∧
      Crosses g case (.arm g place ctx id target behind)

/-- The arm of the last target of a table runs on into no other one. -/
theorem Unmixed.of_outer
    {g : FlowGraph}
    {place : Place}
    {ctx : Context}
    {id target : NodeId}
    {behind : Option NodeId}
    (h : Resumes g none (.arm g place ctx id target (switchExit g place id))) :
    Unmixed g none place ctx id target behind :=
  ⟨h, fun ⟨_, _, hruns⟩ => absurd hruns not_runsOn⟩

/-- What stands behind an arm: the next one, or what follows the switch. -/
def behindArm (g : FlowGraph) (place : Place) (id : NodeId) (later : List Turn) : Option NodeId :=
  (later.head?.map Turn.target).or (switchExit g place id)

/-- The place of an arm, in front of the arms that come later. -/
def armPlace (g : FlowGraph) (place : Place) (id : NodeId) (later : List Turn) : Place :=
  place.inSwitch id (switchExit g place id) (behindArm g place id later)

/-- How the arms of a switch end: each one belongs to a target of the node, and if it is not mixed
it goes along with the walks from this target, at its place in front of the next arm. -/
structure FallsThrough
    (src : Source)
    (vars : Variables)
    (marked : NodeId → Prop)
    (place : Place)
    (ctx : Context)
    (id : NodeId)
    (cases : SwitchTable)
    (turns : List Turn) : Prop where
  kind : (src.node id).kind.switch? = some cases
  targets : ∀ turn ∈ turns,
    turn.target ∈ cases.cases ∧ turn.keys = cases.keysOf turn.target ∨
      turn.keys = [] ∧ cases.fallback = some turn.target
  mirrors : ∀ ahead turn later, turns = ahead ++ turn :: later →
    Unmixed src.graph turn.begin.nextCase place ctx id turn.target
        (behindArm src.graph place id later) →
      Mirrors src vars marked (armPlace src.graph place id later) turn.target false
        (Does turn.arm.body)

/-- Each switch of a layout falls through where the graph does. -/
def Falling (src : Source) (vars : Variables) (marked : NodeId → Prop) : Place → Stop → Prop
  | place, .selects ctx id cases _ turns more _ =>
      FallsThrough src vars marked place ctx id cases (turns ++ more)
  | place, stop => Whole src.graph place stop

section Ends

variable {src : Source} {vars : Variables} {marked : NodeId → Prop} {place inner : Place}
variable {id m : NodeId} {moves : Bool} {run : Run} {block : Block} {o : Outcome} {turn : Turn}

/-- A block whose last statement does not complete does not run off its end. -/
theorem not_done_of_neverCompletes
    {events : List Java.Action}
    (h : block.getLast?.any Statement.neverCompletes = true) :
    ¬ Does block events .done := by
  intro hdoes
  obtain ⟨last, hfound, hnever⟩ := (Option.any_eq_true ..).1 h
  obtain ⟨ahead, rfl⟩ := List.getLast?_eq_some_iff.1 hfound
  cases Java.does_append_iff.1 hdoes with
  | ends hstops => exact hstops rfl
  | onward _ hdoes =>
      cases last with
      | ret | throw | jump => cases hdoes
      | _ => cases hnever

/-- Code that ends in no other ways goes along with walks at another place too. -/
theorem Mirrors.elsewhere
    (h : Mirrors src vars marked inner id moves run)
    (harrives : ∀ events o m, run events o → Arrives src marked inner o m →
      Arrives src marked place o m) :
    Mirrors src vars marked place id moves run where
  shows events o hdoes := by
    obtain ⟨flow, hshown, hfares⟩ := h.shows events o hdoes
    refine ⟨flow, hshown, ?_⟩
    cases hfares with
    | arrives htrip harrives' => exact .arrives htrip (harrives _ _ _ hdoes harrives')
    | leaves htrip => exact .leaves htrip
    | cut htrip => exact .cut htrip
  keeps n walk fate htrip := by
    cases h.keeps n walk fate htrip with
    | arrives hmoved htrip harrives' hdoes hshown honward hsteps hparts =>
        exact .arrives hmoved htrip (harrives _ _ _ hdoes harrives') hdoes hshown
          honward hsteps hparts
    | leaves hdoes hshown => exact .leaves hdoes hshown
    | cut hdoes hshown => exact .cut hdoes hshown

end Ends

section Arms

variable {src : Source} {vars : Variables} {marked : NodeId → Prop} {place : Place} {ctx : Context}
variable {id m : NodeId} {cases : SwitchTable} {turn : Turn} {later turns more : List Turn}
variable {s s' last : Progress} {o : Outcome}

/-- Where an arm ends, Java goes on in the same way at all its places, but for its last
statement. -/
theorem Arrives.of_arm
    {next : Option NodeId}
    (hdone : o = .done → next = behindArm src.graph place id later)
    (h : Arrives src marked (place.inSwitch id (src.node id).switchFollow next) o m) :
    Arrives src marked (armPlace src.graph place id later) o m := by
  cases h with
  | done hbehind =>
      obtain rfl := hdone rfl
      exact .done hbehind
  | broke hbehind =>
      have hfollow : (src.node id).switchFollow = some m := hbehind
      exact .broke (congrArg (Option.or · place.next) hfollow)
  | continued hagain => exact .continued hagain
  | jumped hlabelled => exact .jumped hlabelled

/-- What an arm does, if its body goes along with walks up to what follows the switch.  An arm
without a break does not run off its end, or it is the last one. -/
theorem Mirrors.ends
    (hturn : turn.closed = true ∨ turn.body.getLast?.any Statement.neverCompletes = true ∨
      switchExit src.graph place id = behindArm src.graph place id later)
    (h : Mirrors src vars marked
      (place.inSwitch id (src.node id).switchFollow (switchExit src.graph place id)) turn.target
      false (Does turn.body)) :
    Mirrors src vars marked (armPlace src.graph place id later) turn.target false
      (Does turn.arm.body) := by
  show Mirrors _ _ _ _ _ _ (Does (turn.body ++ if turn.closed then [plainJump .break] else []))
  cases hclosed : turn.closed with
  | true =>
      have hstops (o : Outcome) (m : NodeId) (h : o ≠ .done) :=
        @Arrives.of_arm src marked place id m
        later o (switchExit src.graph place id) fun hsame => absurd hsame h
      exact (h.append hstops fun _ _ _ hnext _ => .break hnext).congr fun _ _ =>
        Java.does_append_iff
  | false =>
      simp only [Bool.false_eq_true, if_false, List.append_nil]
      refine h.elsewhere fun events o m hdoes => Arrives.of_arm fun hdone => ?_
      rcases hturn with hisClosed | hnever | hlastArm
      · simp [hclosed] at hisClosed
      · exact absurd (hdone ▸ hdoes) (not_done_of_neverCompletes hnever)
      · exact hlastArm

/-- What an arm does, if its body goes along with walks up to the arm behind it. -/
theorem Mirrors.runsOn
    (hclosed : turn.closed = false)
    (h : Mirrors src vars marked (place.inSwitch id (src.node id).switchFollow
      (behindArm src.graph place id later)) turn.target false (Does turn.body)) :
    Mirrors src vars marked (armPlace src.graph place id later) turn.target false
      (Does turn.arm.body) := by
  show Mirrors _ _ _ _ _ _ (Does (turn.body ++ if turn.closed then [plainJump .break] else []))
  rw [hclosed, if_neg Bool.false_ne_true, List.append_nil]
  exact h.elsewhere fun _ _ _ _ => .of_arm fun _ => rfl

/-- An arm has no break only if one of its nodes has run on or its end is not reached. -/
theorem Turns.closed_eq
    {targets : List NodeId}
    {fallback left : Option NodeId}
    (h : Turns cases targets fallback s turns left s') :
    ∀ turn ∈ turns, turn.closed =
      (turn.finish.needBreak && !turn.body.getLast?.any Statement.neverCompletes) := by
  induction h with
  | nil => exact fun _ h => absurd h List.not_mem_nil
  | skip _ _ ih => exact ih
  | write _ _ ih =>
      intro turn hturn
      rcases List.mem_cons.1 hturn with rfl | hturn
      · rfl
      · exact ih turn hturn

theorem LastTurn.eq_nil
    {left follow : Option NodeId}
    {ahead : List Turn}
    (h : LastTurn follow left s more s')
    (hsplit : more = ahead ++ turn :: later) :
    later = [] ∧ turn.closed = false := by
  cases h with
  | skip => simp at hsplit
  | write =>
      obtain ⟨-, hrest⟩ | ⟨_, -, hrest⟩ := List.cons_eq_append_iff.1 hsplit
      · obtain ⟨rfl, rfl⟩ := List.cons.inj hrest
        exact ⟨rfl, rfl⟩
      · simp at hrest

namespace Selects

/-- The arms with all that is known of their stops. -/
theorem told
    (h : Selects src vars (Whole src.graph) place ctx id cases s turns more s')
    (hlast : Advances s' last) :
    Selects src vars (Told src vars last) place ctx id cases s turns more s' := by
  have hswitch := Option.isSome_iff_exists.2 ⟨_, h.kind⟩
  refine { h with bodies := fun ahead turn later hsplit => ?_ }
  have hmem : turn ∈ turns ++ more := hsplit ▸ List.mem_append_right ahead List.mem_cons_self
  have hvisited := (h.begins turn hmem).visited h.begun.1
  exact (h.bodies ahead turn later hsplit).map (h.around.inSwitch hswitch)
    (.of_switch hswitch hvisited) ((h.finishes turn hmem).trans hlast)
    fun _ _ hwhole htells => ⟨hwhole, htells⟩

variable {ok : Place → Stop → Prop} {ahead : List Turn}
variable (h : Selects src vars ok place ctx id cases s turns more s')
include h

/-- The targets that have arms, and their keys. -/
theorem targets :
    ∀ turn ∈ turns ++ more, turn.target ∈ cases.cases ∧ turn.keys = cases.keysOf turn.target ∨
      turn.keys = [] ∧ cases.fallback = some turn.target := by
  obtain ⟨_, _, htaken, hlastTaken⟩ := h.taken
  intro turn hturn
  rcases List.mem_append.1 hturn with hturn | hturn
  · obtain ⟨hmem, hkeys, -⟩ := htaken.of_mem turn hturn
    exact .inl ⟨hmem, hkeys⟩
  · obtain ⟨hkeys, hremains⟩ := hlastTaken.of_mem turn hturn
    refine .inr ⟨hkeys, ?_⟩
    rcases htaken.left_eq.1 with hsame | hlost
    · exact hsame ▸ hremains
    · simp [hlost] at hremains

/-- Each arm is written as one that needs a break, if it is not inside another switch. -/
theorem needBreak
    (hidle : Idle s)
    (hturn : turn ∈ turns ++ more) :
    turn.begin.needBreak = true := by
  obtain ⟨_, _, htaken, hlastTaken⟩ := h.taken
  obtain ⟨hends, hbegins⟩ := htaken.needBreak hidle.needBreak
  have hlastArm := hlastTaken.idle (fun turn hturn => by
    obtain ⟨ahead, later, hsplit⟩ := List.append_of_mem (List.mem_append_right turns hturn)
    exact (h.bodies ahead turn later hsplit).idle) hends
  exact (List.mem_append.1 hturn).elim (hbegins turn) (hlastArm.2 turn)

/-- An arm that still needs a break is closed by one, does not run off its end or is the last one;
an arm that needs none gets none. -/
theorem closed_cases
    (hsplit : turns ++ more = ahead ++ turn :: later) :
    (turn.finish.needBreak = true → turn.closed = true ∨
        turn.body.getLast?.any Statement.neverCompletes = true ∨ later = []) ∧
      (turn.finish.needBreak = false → turn.closed = false) := by
  obtain ⟨_, _, htaken, hlastTaken⟩ := h.taken
  have hofLast {front : List Turn} (hsplit' : more = front ++ turn :: later) :
      (turn.finish.needBreak = true → turn.closed = true ∨
        turn.body.getLast?.any Statement.neverCompletes = true ∨ later = []) ∧
      (turn.finish.needBreak = false → turn.closed = false) := by
    obtain ⟨rfl, hopen⟩ := hlastTaken.eq_nil hsplit'
    exact ⟨fun _ => .inr (.inr rfl), fun _ => hopen⟩
  rcases List.append_eq_append_iff.1 hsplit with ⟨front, -, hsplit'⟩ | ⟨part, hsplit', hsplit''⟩
  · exact hofLast hsplit'
  rcases List.cons_eq_append_iff.1 hsplit'' with ⟨-, hsame⟩ | ⟨rest, rfl, -⟩
  · exact @hofLast [] hsame
  · have hclosed := htaken.closed_eq turn (hsplit' ▸ List.mem_append_right ahead List.mem_cons_self)
    rw [hclosed]
    refine ⟨fun hneeds => ?_, fun hneedless => by rw [hneedless, Bool.false_and]⟩
    cases turn.body.getLast?.any Statement.neverCompletes with
    | true => exact .inr (.inl rfl)
    | false => exact .inl (by rw [hneeds, Bool.not_false, Bool.and_self])

end Selects

end Arms

section Methods

variable {src : Source} {vars : Variables} {marked : NodeId → Prop} {place : Place} {ctx : Context}
variable {id : NodeId} {cases : SwitchTable} {turns more : List Turn} {s s' last : Progress}

/-- The arms of the only switch fall through where the graph does. -/
theorem Selects.fallsThrough
    (h : Selects src vars (Told src vars last) place ctx id cases s turns more s')
    (hunprotected : src.graph.Unprotected)
    (hloopFree : ∀ n, (src.graph.node n).kind.isLoop = false)
    (hlive : src.graph.isLive id = true)
    (hsingle : ∀ n, (src.graph.node n).kind.isSwitch = true → n = id)
    (hlabels : ∀ n ∈ last.gotoTargets, marked n) :
    FallsThrough src vars marked place ctx id cases (turns ++ more) := by
  have hswitch := Option.isSome_iff_exists.2 ⟨_, h.kind⟩
  have hidle : Idle s :=
    h.begun.2.resolve_right fun ⟨n, hother, hswitch, _⟩ => hother (hsingle n hswitch)
  refine ⟨h.kind, h.targets, fun ahead turn later hsplit hunmixed => ?_⟩
  have hmem : turn ∈ turns ++ more := hsplit ▸ List.mem_append_right ahead List.mem_cons_self
  have htarget : src.graph.isLive turn.target = true :=
    (hunprotected.ending id hlive).of_select h.kind ((h.targets turn hmem).imp And.left And.right)
  have hseen : SwitchesSeen src turn.begin := fun n hswitch =>
    hsingle n hswitch ▸ (h.begins turn hmem).visited h.begun.1
  have hfitting {next : Option NodeId}
      (hresumes : Resumes src.graph turn.begin.nextCase
        (.arm src.graph place ctx id turn.target next)) :
      Fitting src (Told src vars last) marked turn.begin.nextCase
        (.arm src.graph place ctx id turn.target next) :=
    { unprotected := hunprotected
      unmixed := .inr hloopFree
      stands := ⟨htarget, h.around.inSwitch hswitch, fun _ h => by cases h⟩
      whole := fun _ _ hstop => hstop.1 fun n _ => hloopFree n
      labelled := fun _ _ n _ _ _ hstop => hlabels n hstop.2
      lands := hresumes }
  have hmirrors {next : Option NodeId}
      (hright : Lays src vars (Right marked) (place.inSwitch id (src.node id).switchFollow next)
        (ctx.push .switchEnd (src.node id).switchFollow) turn.target .node turn.begin turn.body
        turn.finish) :
      Mirrors src vars marked (place.inSwitch id (src.node id).switchFollow next) turn.target false
        (Does turn.body) := by
    have hterrain : Terrain src (fun _ => True) (fun _ => False) :=
      ⟨fun _ _ _ _ _ => trivial, fun _ h => h.elim, fun _ _ h => h.elim⟩
    exact (hright.mirrors hunprotected hterrain ⟨htarget, hseen, trivial⟩).does trivial
  have hbody := h.bodies ahead turn later hsplit
  have hcarries := hbody.right (hfitting hunmixed.resumes) .refl trivial ⟨hseen, rfl⟩
  obtain ⟨hcloses, hruns⟩ := h.closed_cases hsplit
  cases hneed : turn.finish.needBreak with
  | true =>
      refine (hmirrors (hcarries.laid (.inl hneed))).ends
        ((hcloses hneed).imp_right (.imp_right ?_))
      rintro rfl
      rfl
  | false =>
      -- The arm has begun as one that needs a break, and so it has run on.
      obtain ⟨hresumes, hcrosses⟩ := hunmixed.runsOn <| by
        rcases hcarries.needBreak with hsame | ⟨-, hruns⟩
        · simp [hneed, h.needBreak hidle hmem] at hsame
        · exact hruns
      have hcarries' := hbody.right (hfitting hresumes) .refl trivial ⟨hseen, rfl⟩
      exact (hmirrors (hcarries'.laid (.inr hcrosses))).runsOn (hruns hneed)

/-- In a method without loops and protected regions, with one switch, the arms that are not mixed go
along with the walks from their targets, where they stand in the layout of the body. -/
theorem arms_fall_through
    (w : Writing)
    (g : FlowGraph)
    (vars : Variables)
    (naming : Java.Naming)
    (switch : NodeId)
    (hunprotected : g.Unprotected)
    (hloopFree : ∀ id, (g.node id).kind.isLoop = false)
    (hregionFree : ∀ id start handlers follow,
      (g.node id).kind.base ≠ .tryBlock start handlers follow)
    (hlive : g.isLive switch = true)
    (hsingle : ∀ id, (g.node id).kind.isSwitch = true → id = switch) :
    ∃ (src : Source) (naming' : Java.Naming) (body : Block) (s : Progress),
      src.writing = w ∧ src.graph = g ∧ (emit w g vars naming).method.body = some body ∧
        Lays src vars (Falling src vars (InFront src (Java.blockMarks body))) .outermost .outermost
          g.entry .node (.start vars naming') body s := by
  obtain ⟨src, naming', body, s, rfl, rfl, hbody, -, hinFront, hlays⟩ := told_emit w g vars naming
  have hwritten (id : NodeId) : ¬ OnlyMarked src.graph id := by
    intro honly
    cases honly with
    | latch hloop => exact Bool.eq_false_iff.1 (hloopFree _) hloop.isLoop
    | handler hkind => exact hregionFree _ _ _ _ hkind
  refine ⟨src, naming', body, s, rfl, rfl, hbody, ?_⟩
  refine hlays.map .outermost .start (.refl s) fun place stop htold _ => ?_
  cases stop with
  | selects ctx id cases _ turns more =>
      obtain ⟨hselects, hadvances⟩ := htold.2
      obtain rfl := hsingle id (Option.isSome_iff_exists.2 ⟨cases, hselects.kind⟩)
      exact (hselects.told hadvances).fallsThrough hunprotected hloopFree hlive hsingle
        fun n hn => (hinFront n hn).resolve_right (hwritten n)
  | _ => exact htold.1

end Methods

/-- `switch (a) { case 1: …; case 2: …; break; default: … }` -/
def fallThrough : FlowGraph :=
  { FlowGraph.empty with
    slots := #[
      sampleSlot 1 none (.switch (.unordered [1, 2] [1, 2, 3])) [.switch (.var 0)] [1, 2, 3] [],
      sampleSlot 4 none .statement [sampleAssignment 3] [4] [0],
      sampleSlot 2 none .statement [sampleAssignment 1] [3] [0],
      sampleSlot 3 none .statement [sampleAssignment 2] [4] [0, 2],
      sampleSlot 5 none .ret [sampleAssignment 4, .ret none] [] [1, 3]]
    order := [0, 2, 3, 1, 4] }

def fallThroughTable : SwitchTable :=
  (SwitchTable.unordered [1, 2] [1, 2, 3]).order

/-- The same graph with the marks of the structuring stages. -/
def fallThroughMarked : FlowGraph :=
  { fallThrough with
    slots := fallThrough.slots.set 0
      (markedSlot
        (sampleSlot 1 none (.switch fallThroughTable) [.switch (.var 0)] [1, 2, 3] [])
        fun node => { node with switchFollow := some 4 }) }

theorem structured_fallThrough :
    sampleStructured fallThrough = fallThroughMarked := by cbv

theorem unprotected_fallThrough :
    (sampleStructured fallThrough).Unprotected := by
  rw [structured_fallThrough]
  refine ⟨rfl, fun id hlive => ?ending, fun id hlive n h => ?marked⟩
  all_goals
    have hknown : id < 5 := FlowGraph.lt_size_of_isLive hlive
    interval_cases id
  case ending.«0» =>
    have htable : (fallThroughMarked.node 0).kind.switch? = some fallThroughTable := rfl
    refine .select htable fun n h => ?_
    rcases h with h | h
    · fin_cases h <;> rfl
    · cases h; rfl
  case ending.«4» =>
    have hcode : (fallThroughMarked.node 4).ins = [sampleAssignment 4] ++ [.ret none] := rfl
    exact .leave (.inl rfl) hcode (by decide) rfl
  case ending.«1» => exact .straight rfl rfl rfl (by decide)
  case ending.«2» => exact .straight rfl rfl rfl (by decide)
  case ending.«3» => exact .straight rfl rfl rfl (by decide)
  all_goals rcases h with h | h | h | h <;> cases h <;> rfl

theorem kinds_fallThrough
    (id : NodeId) :
    ((sampleStructured fallThrough).node id).kind.isLoop = false ∧
      (∀ start handlers follow,
        ((sampleStructured fallThrough).node id).kind.base ≠ .tryBlock start handlers follow) ∧
      (((sampleStructured fallThrough).node id).kind.isSwitch = true → id = 0) := by
  rw [structured_fallThrough]
  rcases Nat.lt_or_ge id 5 with hknown | hunknown
  · interval_cases id
    all_goals
      refine ⟨rfl, fun _ _ _ h => ?_, by decide⟩
      cases h
  · rw [FlowGraph.node_of_size_le hunknown]
    refine ⟨rfl, fun _ _ _ h => ?_, fun h => by cases h⟩
    cases h

/-- The first arm runs on into the second one, and the others come to what follows the switch. -/
theorem unmixed_fallThrough :
    let g := sampleStructured fallThrough
    Unmixed g (some 3) .outermost .outermost 0 2 (some 3) ∧
      Unmixed g none .outermost .outermost 0 3 (some 1) ∧
      Unmixed g none .outermost .outermost 0 1 (some 4) := by
  rw [structured_fallThrough]
  refine ⟨⟨?_, fun _ => ⟨?_, ?_⟩⟩, .of_outer ?_, .of_outer ?_⟩
  · exact .of_check 5 (by decide)
  · exact .of_check 5 (by decide)
  · exact .of_check 5 (by decide)
  · exact .of_check 5 (by decide)
  · exact .of_check 5 (by decide)

theorem arms_fall_through_fallThrough :
    let g := sampleStructured fallThrough
    (∃ (src : Source) (naming' : Java.Naming) (body : Block) (s : Progress),
      src.writing = sampleWriting ∧ src.graph = g ∧
        (emit sampleWriting g .empty .empty).method.body = some body ∧
        Lays src .empty (Falling src .empty (InFront src (Java.blockMarks body))) .outermost
          .outermost g.entry .node (.start .empty naming') body s) ∧
      Unmixed g (some 3) .outermost .outermost 0 2 (some 3) ∧
      Unmixed g none .outermost .outermost 0 3 (some 1) ∧
      Unmixed g none .outermost .outermost 0 1 (some 4) :=
  ⟨arms_fall_through sampleWriting (sampleStructured fallThrough) .empty .empty 0
      unprotected_fallThrough (fun id => (kinds_fallThrough id).1)
      (fun id => (kinds_fallThrough id).2.1) (by cbv) fun id => (kinds_fallThrough id).2.2,
    unmixed_fallThrough⟩

/-- `switch (a) { case 1: if (b == 0) { …; break; } …; case 2: …; break; default: … }` -/
def mixedArm : FlowGraph :=
  { FlowGraph.empty with
    slots := #[
      sampleSlot 1 none (.switch (.unordered [1, 2] [1, 2, 3])) [.switch (.var 0)] [1, 2, 3] [],
      sampleSlot 6 none .statement [sampleAssignment 4] [4] [0],
      sampleSlot 2 none (.conditional ⟨6, 5⟩) [sampleTest 1] [5, 6] [0],
      sampleSlot 5 none .statement [sampleAssignment 3] [4] [0, 5],
      sampleSlot 7 none .ret [sampleAssignment 5, .ret none] [] [1, 3, 6],
      sampleSlot 4 none .statement [sampleAssignment 1] [3] [2],
      sampleSlot 3 none .statement [sampleAssignment 2] [4] [2]]
    order := [0, 2, 6, 5, 3, 1, 4] }

/-- The same graph with the marks of the structuring stages. -/
def mixedArmMarked : FlowGraph :=
  { mixedArm with
    slots := mixedArm.slots.set 0
      (markedSlot
        (sampleSlot 1 none (.switch fallThroughTable) [.switch (.var 0)] [1, 2, 3] [])
        fun node => { node with switchFollow := some 4 }) }

theorem structured_mixedArm :
    sampleStructured mixedArm = mixedArmMarked := by cbv

/-- One node of the arm runs on into the next one, and another one comes to what follows. -/
theorem not_unmixed_mixedArm :
    ¬ Unmixed (sampleStructured mixedArm) (some 3) .outermost .outermost 0 2 (some 3) := by
  rw [structured_mixedArm]
  intro hunmixed
  have hsplits : Splits mixedArmMarked 2 (.conditional ⟨6, 5⟩) ⟨6, 5⟩ := ⟨rfl, rfl, rfl, by decide⟩
  have hbranch (next : Option NodeId) (holds : Bool) :
      Meets mixedArmMarked (some 3) (.arm mixedArmMarked .outermost .outermost 0 2 next) _ :=
    (Relation.ReflTransGen.single (.code rfl rfl)).tail (.opened holds hsplits (by decide) rfl)
  have hruns (next : Option NodeId) := (hbranch next false).tail (.code rfl rfl)
  obtain ⟨hresumes, -⟩ := hunmixed.runsOn ⟨_, _, _, hruns _, .through rfl (by decide) rfl⟩
  have hstraight := (hbranch (some 3) true).tail (.code rfl rfl)
  have hends := hstraight.tail (.straight rfl (by decide) (by decide))
  have hnext := hresumes _ _ ⟨_, hends, .behind rfl rfl⟩
  exact absurd hnext (by decide)

/-- The first arm as it is written. -/
def mixedArmFirst : Block :=
  [.ifThen (writtenTest 1 false) (sampleStatement 2) (some (sampleStatement 1))]

/-- A walk that runs straight on to an exit comes to no other node. -/
theorem not_trip_of_exit
    {g : FlowGraph}
    {k : Nat}
    {id next m : NodeId}
    {flow : List FlowEvent}
    (hkind : (g.node id).kind.base = .statement)
    (hsuccs : g.succs id = [next])
    (hexit : (g.node next).kind.isExit = true)
    (hothers : m ≠ id ∧ m ≠ next) :
    ¬ g.Trip k id flow (some m) := by
  intro htrip
  generalize hm : some m = fate at htrip
  cases htrip with
  | here => exact hothers.1 (Option.some.inj hm)
  | leave => cases hm
  | step hfirst htrip =>
      obtain ⟨-, hsame⟩ := (FlowGraph.step_straight_iff hkind hsuccs).1 hfirst
      obtain rfl := Option.some.inj hsame
      cases htrip with
      | here => exact hothers.2 (Option.some.inj hm)
      | leave => cases hm
      | step hsecond =>
          obtain ⟨-, hnone⟩ := (FlowGraph.step_leave_iff hexit).1 hsecond
          cases hnone

theorem nodes_mixedArm :
    let g := sampleStructured mixedArm
    ((g.node 2).kind.base = .conditional ⟨6, 5⟩ ∧ (g.node 2).ins = [sampleTest 1]) ∧
      ((g.node 6).kind.base = .statement ∧ g.succs 6 = [4]) ∧ (g.node 4).kind.isExit = true := by
  cbv

/-- The first arm is mixed, and it runs off its end into the second one where every walk from its
target leads to what follows the switch. -/
theorem mixedArm_fallsIntoNext :
    let g := sampleStructured mixedArm
    ¬ Unmixed g (some 3) .outermost .outermost 0 2 (some 3) ∧
      ((g.node 0).kind.switch?.map fun cases => (cases.keysOf 2, cases.keysOf 3)) =
        some ([1], [2]) ∧
      (emit sampleWriting g .empty .empty).method.body = some
        (.switch (expression .empty "LT;" (.var 0) (some "I"))
          [.mk [1] false mixedArmFirst,
            .mk [2] false (sampleStatement 3 ++ [plainJump .break]),
            .mk [] true (sampleStatement 4)] ::
          (sampleStatement 5 ++ [.ret none])) ∧
      ∃ events, Does mixedArmFirst events .done ∧ ∀ k flow, g.Trip k 2 flow (some 3) →
        ¬ Renders sampleWriting .empty flow events := by
  refine ⟨not_unmixed_mixedArm, by cbv, by cbv, ?_⟩
  have hevaluates : Java.Evaluates (writtenTest 1 false) [.tested (writtenTest 1 false).bare true]
      true :=
    .single true (joined?_condition ..)
  refine ⟨_, .ifThen hevaluates (.expression rfl .nil), fun k flow htrip hshown => ?_⟩
  obtain ⟨htest, ⟨hkind, hsuccs⟩, hexit⟩ := nodes_mixedArm
  rw [← List.append_nil flow] at htrip
  obtain ⟨_, _, htrip, -⟩ := exists_trip_of_renders htest htrip hshown
  exact not_trip_of_exit hkind hsuccs hexit (by decide) htrip

end Emission
end DalvikDecompiler
