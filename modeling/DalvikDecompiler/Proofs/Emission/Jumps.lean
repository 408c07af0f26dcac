import DalvikDecompiler.Proofs.Emission.WalkLayout
import DalvikDecompiler.Proofs.FlowGraph.Trips

/-!
# What jumps bind to

Java binds a break to the innermost loop or switch around it and a continue to the innermost loop.
A walk that comes to what follows a loop, or to the node that a loop continues with, asks for the
innermost loop only.  A continue is therefore bound to the loop it is meant for.  So is a break,
unless a switch has been opened inside the loop: then it leaves the switch and no more.

A jump with a label leads to a node that the method needs a label for, and a switch goes on with the
arms that the targets of its node have got in turn.

Main statements: `Lays.map` and `jumps_bind`, for graphs of all kinds.
-/

namespace DalvikDecompiler
namespace Emission

open Symbolic (Variables)
open Java (Block)

namespace Scope

/-- Whether a statement is a loop. -/
def isLoop : Scope → Bool
  | .loop .. => true
  | .switch .. => false

/-- What follows a statement. -/
def follow : Scope → Option NodeId
  | .loop _ _ follow => follow
  | .switch _ follow => follow

/-- The node that a loop continues with. -/
def again : Scope → Option NodeId
  | .loop _ again _ => some again
  | .switch .. => none

/-- The statement is the one that is written for a loop or a switch of the graph. -/
inductive Of (g : FlowGraph) : Scope → Prop
  | loop {head again : NodeId}
      (hkind : (g.node head).kind.isLoop = true)
      (htarget : again = head ∨ (g.node head).latch = some again) :
      Of g (.loop head again (g.node head).loopFollow)
  | switch {id : NodeId}
      (hkind : (g.node id).kind.isSwitch = true) :
      Of g (.switch id (g.node id).switchFollow)

end Scope

namespace Place

/-- The statement that a break without a label binds to. -/
def breaks (place : Place) : Option Scope :=
  place.scopes.head?

/-- The statement that a continue without a label binds to. -/
def continues (place : Place) : Option Scope :=
  place.scopes.find? Scope.isLoop

end Place

/-- What is bound where a walk stops.  A break out of a loop is meant for the innermost loop, but
may be caught by a switch in it. -/
def Binds (g : FlowGraph) (place : Place) : Stop → Prop
  | .exits id => ∃ loop, place.continues = some loop ∧ loop.Of g ∧ loop.follow = some id ∧
      (place.breaks = some loop ∨
        ∃ switch, place.breaks = some switch ∧ switch.isLoop = false ∧ switch.Of g)
  | .continues id => ∃ loop, place.continues = some loop ∧ loop.Of g ∧ loop.again = some id
  | .closes switch => place.breaks = some (.switch switch (g.node switch).switchFollow)
  | .falls _ => True
  | .jumps _ => True
  | .selects .. => True
  | .cut _ => True

/-- The loops and switches around a place are those of the graph, and the context knows the
innermost loop. -/
structure Around (g : FlowGraph) (ctx : Context) (scopes : List Scope) : Prop where
  genuine : ∀ scope ∈ scopes, scope.Of g
  loopEnd : ctx.top .loopEnd = (scopes.find? Scope.isLoop).bind Scope.follow
  loopStart : ctx.top .loopStart = (scopes.find? Scope.isLoop).bind Scope.again

/-- No arm is being written, unless a switch has been begun that others does not count. -/
def IdleBut (src : Source) (others : NodeId → Prop) (s : Progress) : Prop :=
  Idle s ∨ ∃ n, others n ∧ (src.node n).kind.isSwitch = true ∧ n ∈ s.visited

/-- In which states something is written for a node. -/
def Begun (src : Source) (id : NodeId) (s : Progress) : Part → Prop
  | .node => IdleBut src (fun _ => True) s
  | .kind _ => id ∈ s.visited ∧ IdleBut src (· ≠ id) s

/-- The arms of a switch are those that its targets get in turn between two states. -/
structure Selects
    (src : Source)
    (vars : Variables)
    (ok : Place → Stop → Prop)
    (place : Place)
    (ctx : Context)
    (id : NodeId)
    (cases : SwitchTable)
    (s : Progress)
    (turns more : List Turn)
    (s' : Progress) : Prop where
  kind : (src.node id).kind.switch? = some cases
  around : Around src.graph ctx place.scopes
  begun : Begun src id s (.kind (src.node id).kind)
  taken : ∃ left s₁, Turns cases cases.cases cases.fallback s turns left s₁ ∧
    LastTurn (src.node id).switchFollow left s₁ more s'
  bodies : ∀ ahead turn later, turns ++ more = ahead ++ turn :: later →
    Lays src vars ok
      (place.inSwitch id (src.node id).switchFollow
        ((if turn.closed then none else (later.head?.map Turn.target)).or
          ((src.node id).switchFollow.or place.next)))
      (ctx.push .switchEnd (src.node id).switchFollow) turn.target .node turn.begin turn.body
      turn.finish

/-- What the layout of some code tells about a stop in it, if no state of the code comes behind a
last one. -/
def Tells
    (src : Source)
    (vars : Variables)
    (ok : Place → Stop → Prop)
    (last : Progress)
    (place : Place) :
    Stop → Prop
  | .jumps id => id ∈ last.gotoTargets
  | .selects ctx id cases s turns more s' =>
      Selects src vars ok place ctx id cases s turns more s' ∧ Advances s' last
  | stop => Binds src.graph place stop

theorem Tells.binds
    {src : Source}
    {vars : Variables}
    {ok : Place → Stop → Prop}
    {last : Progress}
    {place : Place}
    {stop : Stop}
    (h : Tells src vars ok last place stop) :
    Binds src.graph place stop := by
  cases stop with
  | jumps | selects => trivial
  | _ => exact h

namespace Selects

variable {src : Source} {vars : Variables} {ok : Place → Stop → Prop} {place : Place}
variable {ctx : Context} {id : NodeId} {cases : SwitchTable} {s s' : Progress}
variable {turns more : List Turn}

theorem advances
    (h : Selects src vars ok place ctx id cases s turns more s') :
    ∀ turn ∈ turns ++ more, Advances turn.begin turn.finish := by
  intro turn hturn
  obtain ⟨ahead, later, hsplit⟩ := List.append_of_mem hturn
  exact (h.bodies ahead turn later hsplit).advances

theorem begins
    (h : Selects src vars ok place ctx id cases s turns more s') :
    ∀ turn ∈ turns ++ more, Advances s turn.begin := by
  obtain ⟨_, _, htaken, hlastTaken⟩ := h.taken
  have harms := fun turn hturn => h.advances turn (List.mem_append_left more hturn)
  intro turn hturn
  rcases List.mem_append.1 hturn with hturn | hturn
  · exact htaken.begins harms turn hturn
  · exact (htaken.advances harms).trans (hlastTaken.begins turn hturn)

theorem finishes
    (h : Selects src vars ok place ctx id cases s turns more s') :
    ∀ turn ∈ turns ++ more, Advances turn.finish s' := by
  obtain ⟨_, _, htaken, hlastTaken⟩ := h.taken
  have harms := fun turn hturn => h.advances turn (List.mem_append_left more hturn)
  have hlastArm := fun turn hturn => h.advances turn (List.mem_append_right turns hturn)
  intro turn hturn
  rcases List.mem_append.1 hturn with hturn | hturn
  · exact (htaken.finishes harms turn hturn).trans (hlastTaken.advances hlastArm)
  · exact hlastTaken.finishes turn hturn

theorem closes
    (h : Selects src vars ok place ctx id cases s turns more s') :
    Advances s s' := by
  obtain ⟨_, _, htaken, hlastTaken⟩ := h.taken
  exact (htaken.advances fun turn hturn => h.advances turn (List.mem_append_left more hturn)).trans
    (hlastTaken.advances fun turn hturn => h.advances turn (List.mem_append_right turns hturn))

end Selects

theorem Context.top_push
    (ctx : Context)
    (m other : Marker)
    (node : Option NodeId) :
    (ctx.push m node).top other = if other = m then node else ctx.top other := by
  by_cases h : other = m <;> simp [Context.top, Context.push, Context.setStack, h]

theorem Inside.isLoop
    {inner outer : NodeKind}
    {type : LoopTest}
    (h : Inside (.loop inner type) outer) :
    outer.isLoop = true := by
  generalize hloop : NodeKind.loop inner type = kind at h
  induction h generalizing inner type with
  | refl => exact hloop ▸ rfl
  | loop _ ih => exact ih rfl

theorem Inside.switch?_eq
    {inner outer : NodeKind}
    (h : Inside inner outer) :
    inner.switch? = outer.switch? := by
  induction h with
  | refl => rfl
  | loop _ ih => exact ih

namespace Around

variable {g : FlowGraph} {ctx : Context} {scopes : List Scope} {place : Place} {id : NodeId}

theorem outermost :
    Around g .outermost [] :=
  ⟨fun _ h => absurd h List.not_mem_nil, rfl, rfl⟩

/-- Branches, regions and latches do not count. -/
theorem push
    (h : Around g ctx scopes)
    {m : Marker}
    (hother : m ≠ .loopEnd ∧ m ≠ .loopStart)
    (node : Option NodeId) :
    Around g (ctx.push m node) scopes where
  genuine := h.genuine
  loopEnd := by rw [Context.top_push, if_neg hother.1.symm, h.loopEnd]
  loopStart := by rw [Context.top_push, if_neg hother.2.symm, h.loopStart]

theorem inLoop
    (h : Around g ctx scopes)
    {head again : NodeId}
    (hkind : (g.node head).kind.isLoop = true)
    (hagain : again = head ∨ (g.node head).latch = some again) :
    Around g (loopContext ctx (g.node head).loopFollow again)
      (.loop head again (g.node head).loopFollow :: scopes) where
  genuine scope hscope := by
    rcases List.mem_cons.1 hscope with rfl | hscope
    · exact .loop hkind hagain
    · exact h.genuine scope hscope
  loopEnd := by
    simp only [loopContext, Context.top_push]
    rfl
  loopStart := by
    simp only [loopContext, Context.top_push]
    rfl

theorem inSwitch
    (h : Around g ctx scopes)
    (hkind : (g.node id).kind.isSwitch = true) :
    Around g (ctx.push .switchEnd (g.node id).switchFollow)
      (.switch id (g.node id).switchFollow :: scopes) where
  genuine scope hscope := by
    rcases List.mem_cons.1 hscope with rfl | hscope
    · exact .switch hkind
    · exact h.genuine scope hscope
  loopEnd := by rw [Context.top_push, if_neg (by decide), h.loopEnd]; rfl
  loopStart := by rw [Context.top_push, if_neg (by decide), h.loopStart]; rfl

/-- A walk breaks out of the innermost loop. -/
theorem exits
    (h : Around g ctx place.scopes)
    (hleaves : some id = ctx.top .loopEnd) :
    Binds g place (.exits id) := by
  obtain ⟨loop, hfound, hfollow⟩ := Option.bind_eq_some_iff.1 (hleaves.trans h.loopEnd).symm
  refine ⟨loop, hfound, h.genuine loop (List.mem_of_find?_eq_some hfound), hfollow, ?_⟩
  obtain ⟨next, scopes⟩ := place
  cases scopes with
  | nil => simp at hfound
  | cons scope outer =>
      cases hloop : scope.isLoop with
      | true =>
          obtain rfl : scope = loop := by simpa [Place.continues, hloop] using hfound
          exact .inl rfl
      | false => exact .inr ⟨scope, rfl, hloop, h.genuine scope List.mem_cons_self⟩

/-- A walk continues the innermost loop. -/
theorem continues
    (h : Around g ctx place.scopes)
    (hagain : ctx.continuesLoop id = true) :
    Binds g place (.continues id) := by
  have hstart : ctx.top .loopStart = some id := by
    simpa using (Bool.and_eq_true_iff.1 hagain).1
  obtain ⟨loop, hfound, htarget⟩ := Option.bind_eq_some_iff.1 (h.loopStart.symm.trans hstart)
  exact ⟨loop, hfound, h.genuine loop (List.mem_of_find?_eq_some hfound), htarget⟩

end Around

section Mapping

variable {src : Source} {vars : Variables} {ok ok' : Place → Stop → Prop} {place : Place}
variable {ctx : Context} {id : NodeId} {part : Part} {s s' last : Progress} {block rest : Block}

namespace Begun

theorem start
    {naming : Java.Naming} :
    Begun src id (.start vars naming) .node :=
  .inl ⟨rfl, rfl⟩

theorem rests
    (h : Begun src id s part)
    (hrests : Rests s s') :
    Begun src id s' part := by
  have hfurther {others : NodeId → Prop} (h : IdleBut src others s) : IdleBut src others s' :=
    h.imp hrests.idle fun ⟨n, hcounts, hswitch, hvisited⟩ =>
      ⟨n, hcounts, hswitch, hrests.visited hvisited⟩
  cases part with
  | node => exact hfurther h
  | kind => exact ⟨hrests.visited h.1, hfurther h.2⟩

theorem node
    {other : NodeId}
    (h : Begun src id s part) :
    Begun src other s .node := by
  cases part with
  | node => exact h
  | kind => exact h.2.imp_right fun ⟨n, _, hswitch, hvisited⟩ => ⟨n, trivial, hswitch, hvisited⟩

/-- A switch is visited when its arms are written. -/
theorem of_switch
    {other : NodeId}
    (hkind : (src.node id).kind.isSwitch = true)
    (hvisited : id ∈ s.visited) :
    Begun src other s .node :=
  .inr ⟨id, trivial, hkind, hvisited⟩

/-- A node is marked before its code is written. -/
theorem enter
    {kind : NodeKind}
    (h : Begun src id s .node)
    (hfirst : (src.node id).kind.isExit = true ∨ id ∉ s.visited) :
    Begun src id { s with visited := OrderedSet.insert s.visited id } (.kind kind) := by
  refine ⟨OrderedSet.mem_insert.2 (.inr rfl), h.imp (Rests.visit s id).idle ?_⟩
  rintro ⟨n, -, hswitch, hvisited⟩
  refine ⟨n, ?_, hswitch, (Rests.visit s id).visited hvisited⟩
  rintro rfl
  rcases hfirst with hexit | hnew
  · simp [NodeKind.isSwitch_of_isExit hexit] at hswitch
  · exact hnew hvisited

end Begun

/-- However code is laid out, its stops are as described, so that more can be asked of them. -/
theorem Lays.map
    (h : Lays src vars ok place ctx id part s block s')
    (haround : Around src.graph ctx place.scopes)
    (hbegun : Begun src id s part)
    (hlast : Advances s' last)
    (hstop : ∀ place stop, ok place stop → Tells src vars ok last place stop → ok' place stop) :
    Lays src vars ok' place ctx id part s block s' := by
  have hfalls {place : Place} {id : NodeId} (hstop' : ok place (.falls id)) : ok' place
    (.falls id) :=
    hstop _ _ hstop' trivial
  induction h with
  | cut hstop' => exact .cut (hstop _ _ hstop' trivial)
  | again hagain hstop' => exact .again hagain (hstop _ _ hstop' (haround.continues hagain))
  | behind hagain hbehind hstop' => exact .behind hagain hbehind (hfalls hstop')
  | jump hagain hbehind hstays hvisited hcalm hstop' =>
      have hknown := hlast.gotoTargets (OrderedSet.mem_insert.2 (.inr rfl))
      exact .jump hagain hbehind hstays hvisited hcalm (hstop _ _ hstop' hknown)
  | node hagain hbehind hfirst hcalm hbare _ ih =>
      exact .node hagain hbehind hfirst hcalm hbare
        (ih haround ((hbegun.enter hfirst).rests hcalm.rests) hlast)
  | leave hleaves hspells hcalm => exact .leave hleaves hspells hcalm
  | stuck hsuccs hspells hcalm => exact .stuck hsuccs hspells hcalm
  | exit hsuccs hleaves hspells hcalm hstop' =>
      exact .exit hsuccs hleaves hspells hcalm (hstop _ _ hstop' (haround.exits hleaves))
  | through hsuccs hstays hinto hspells hcalm hstop' =>
      exact .through hsuccs hstays hinto hspells hcalm (hfalls hstop')
  | straight hsuccs hstays hinto hspells hcalm _ ih =>
      exact .straight hsuccs hstays hinto hspells hcalm
        (ih haround (hbegun.rests hcalm.rests).node hlast)
  | pass hplain hinner htargets hsingle hsame hcalm _ ih =>
      exact .pass hplain hinner htargets hsingle hsame hcalm
        (ih haround (hbegun.rests hcalm.rests).node hlast)
  | breaking negate hsplits hleaves hsame hcalm hstop' _ ih =>
      exact .breaking negate hsplits hleaves hsame hcalm (hstop _ _ hstop' (haround.exits hleaves))
        (ih haround (hbegun.rests hcalm.rests).node hlast)
  | continuing negate hsplits hstays hagain hsame hcalm hstop' _ ih =>
      exact .continuing negate hsplits hstays hagain hsame hcalm
        (hstop _ _ hstop' (haround.continues hagain))
        (ih haround (hbegun.rests hcalm.rests).node hlast)
  | half reversed hsplits hinside hifFollow horder hmeets hsame hcalm hlays hstop' hrest
    honTrue honward =>
      have hbegun' := hbegun.rests hcalm.rests
      exact .half reversed hsplits hinside hifFollow horder hmeets hsame hcalm
        (honTrue (haround.push (by decide) _) hbegun'.node (hrest.advances.trans hlast))
          (hfalls hstop')
        (honward haround (hbegun'.rests hlays.rests).node hlast)
  | joined reversed hsplits hinside hifFollow horder hapart hsame hcalm hlays hlays' hrest
      honTrue honFalse
      honward =>
      have hbegun' := hbegun.rests hcalm.rests
      have hbegun'' := hbegun'.rests hlays.rests
      have hfirst := hrest.advances.trans hlast
      exact .joined reversed hsplits hinside hifFollow horder hapart hsame hcalm
        (honTrue (haround.push (by decide) _) hbegun'.node (hlays'.advances.trans hfirst))
        (honFalse (haround.push (by decide) _) hbegun''.node hfirst)
        (honward haround (hbegun''.rests hlays'.rests).node hlast)
  | opened hsplits hinside hifFollow hsame hcalm hlays hlays' honTrue honFalse =>
      have hbegun' := hbegun.rests hcalm.rests
      exact .opened hsplits hinside hifFollow hsame hcalm
        (honTrue haround hbegun'.node (hlays'.advances.trans hlast))
        (honFalse haround (hbegun'.rests hlays.rests).node hlast)
  | preTest negate hkind htargets hloopFollow horder hsame hcalm hstop' hlays hnoRest hrest
    hinside honward =>
      subst hloopFollow
      have hbegun' := hbegun.rests hcalm.rests
      exact .preTest negate hkind htargets rfl horder hsame hcalm (hfalls hstop')
        (hinside (haround.inLoop hkind.isLoop (.inl rfl)) hbegun'.node
          ((rests_rest hnoRest hrest).toAdvances.trans hlast))
        hnoRest fun n hn => honward n hn haround (hbegun'.rests hlays.rests).node hlast
  | postTest negate hkind hends htargets hloopFollow horder hcalm hlays hsame hcalm' hagain
      hstop' hnoRest hrest
      hinside honward =>
      subst hloopFollow
      have hbegun' := hbegun.rests hcalm.rests
      have htested := (Rests.visit _ _).trans hcalm'.rests
      have hfirst := htested.toAdvances.trans ((rests_rest hnoRest hrest).toAdvances.trans hlast)
      exact .postTest negate hkind hends htargets rfl horder hcalm
        (hinside ((haround.push (by decide) _).inLoop hkind.isLoop (.inr hends)) hbegun' hfirst)
        hsame hcalm' (hfalls hagain) (hfalls hstop') hnoRest
        fun n hn => honward n hn haround (hbegun'.rests (hlays.rests.trans htested)).node hlast
  | untested hkind hends hloopFollow hcalm hlays hcalm' hnoRest hrest hinside honward =>
      subst hloopFollow
      have hbegun' := hbegun.rests hcalm.rests
      have hfirst := hcalm'.advances.trans ((rests_rest hnoRest hrest).toAdvances.trans hlast)
      exact .untested hkind hends rfl hcalm
        (hinside ((haround.push (by decide) _).inLoop hkind.isLoop (.inl rfl)) hbegun' hfirst)
        hcalm' hnoRest
        fun n hn => honward n hn haround (hbegun'.rests (hlays.rests.trans hcalm'.rests)).node hlast
  | endless hkind hfree hloopFollow hunwritten hlays hnoLast hlatch hcalm hnoRest hrest
      hleading htrailing
      honward =>
      subst hloopFollow
      have hinner := haround.inLoop hkind.isLoop (.inl rfl)
      have hsecond := hcalm.advances.trans ((rests_rest hnoRest hrest).toAdvances.trans hlast)
      have hbody := rests_rest hnoLast hlatch
      have hbegun' := hbegun.rests hlays.rests
      exact .endless hkind hfree rfl hunwritten
        (hleading hinner hbegun (hbody.toAdvances.trans hsecond)) hnoLast
        (fun l hl => htrailing l hl hinner hbegun'.node hsecond) hcalm hnoRest
        fun n hn => honward n hn haround (hbegun'.rests (hbody.trans hcalm.rests)).node hlast
  | blank hcode => exact .blank hcode
  | switch hkind hcode hswitchFollow hspells hcalm htaken hlastTaken hstop' hlaid hcloses
      hnoRest hrest hbodies
      honward =>
      subst hswitchFollow
      have hswitch := Option.isSome_iff_exists.2 ⟨_, hkind.switch?_eq.symm⟩
      have hbegun' := hbegun.rests hcalm.rests
      have hends := (rests_rest hnoRest hrest).toAdvances.trans hlast
      have hselects : Selects src vars ok _ _ _ _ _ _ _ _ :=
        ⟨hkind.switch?_eq.symm, haround, hbegun', ⟨_, _, htaken, hlastTaken⟩, hlaid⟩
      have harm {turn : Turn} (hmem : turn ∈ _) : Begun src turn.target turn.begin .node :=
        .of_switch hswitch ((hselects.begins turn hmem).visited hbegun'.1)
      refine .switch hkind hcode rfl hspells hcalm htaken hlastTaken
        (hstop _ _ hstop' ⟨hselects, hends⟩)
        (fun ahead turn later hsplit => ?_)
        (fun turn hturn hclosed => hstop _ _ (hcloses turn hturn hclosed) rfl) hnoRest
        fun n hn => honward n hn haround
          (.of_switch hswitch (hselects.closes.visited hbegun'.1)) hlast
      have hmem := hsplit ▸ List.mem_append_right ahead List.mem_cons_self
      exact hbodies ahead turn later hsplit (haround.inSwitch hswitch) (harm hmem)
        ((hselects.finishes turn hmem).trans hends)
  | region hbody handles hclauses hnoRest hrest hinside handlers honward =>
      have hends := (rests_rest hnoRest hrest).toAdvances.trans hlast
      have heach := fun c hc => (hclauses c hc).rests
      have hwritten := handles.rests heach
      have hbegun' := hbegun.rests hbody.rests
      exact .region
        (hinside (haround.push (by decide) _) hbegun.node (hwritten.toAdvances.trans hends)) handles
        (fun c hc => handlers c hc (haround.push (by decide) _)
          (hbegun'.rests (handles.begins heach c hc)).node
          ((handles.finishes (fun c hc => (heach c hc).toAdvances) c hc).trans hends))
        hnoRest fun n hn => honward n hn haround (hbegun'.rests hwritten).node hlast
  | handler _ ih => exact .handler (ih haround hbegun.node hlast)

end Mapping

/-- What is known of a stop in the body of a method whose last state is given. -/
def Told (src : Source) (vars : Variables) (last : Progress) (place : Place) (stop : Stop) : Prop :=
  Whole src.graph place stop ∧ Tells src vars (Whole src.graph) last place stop

/-- The body of a method is laid out with all that is known of its stops. -/
theorem told_emit
    (w : Writing)
    (g : FlowGraph)
    (vars : Variables)
    (naming : Java.Naming) :
    ∃ (src : Source) (naming' : Java.Naming) (body : Block) (s : Progress),
      src.writing = w ∧ src.graph = g ∧ (emit w g vars naming).method.body = some body ∧
        (emit w g vars naming).visited = s.visited ∧
        (∀ id ∈ s.gotoTargets, InFront src (Java.blockMarks body) id ∨ OnlyMarked g id) ∧
        Lays src vars (Told src vars s) .outermost .outermost g.entry .node (.start vars naming')
          body s := by
  obtain ⟨src, naming', body, s, rfl, rfl, hbody, hvisited, hlabels, hinFront, hlays⟩ :=
    lays_emit w g vars naming
  exact ⟨src, naming', body, s, rfl, rfl, hbody, hvisited, hlabels ▸ hinFront,
    hlays.map .outermost .start (.refl s) fun _ _ hwhole htells => ⟨hwhole, htells⟩⟩

/-- The jumps without a label of every method are bound to the statements they are meant for, apart
from breaks that a switch catches. -/
theorem jumps_bind
    (w : Writing)
    (g : FlowGraph)
    (vars : Variables)
    (naming : Java.Naming) :
    ∃ (src : Source) (body : Block) (s s' : Progress),
      src.writing = w ∧ src.graph = g ∧ (emit w g vars naming).method.body = some body ∧
        Lays src vars (Binds g) .outermost .outermost g.entry .node s body s' := by
  obtain ⟨src, naming', body, s, rfl, rfl, hbody, -, -, hlays⟩ := told_emit w g vars naming
  exact ⟨src, body, .start vars naming', s, rfl, rfl, hbody,
    hlays.map .outermost .start (.refl s) fun _ _ htold _ => htold.2.binds⟩

/-- A graph as the structuring stages leave it. -/
def sampleStructured (g : FlowGraph) : FlowGraph :=
  (g.structured g.dominatorTree 64 "f").graph

/-- `while (a != 0) { switch (b) { … } }`, where the only key leaves the loop and any other value
continues it. -/
def caughtBreak : FlowGraph :=
  { FlowGraph.empty with
    slots := #[
      sampleSlot 1 none (.conditional ⟨2, 1⟩) [sampleTest 1] [1, 2] [3],
      sampleSlot 2 none (.switch (.unordered [1] [3, 4])) [.switch (.var 0)] [3, 4] [0],
      sampleSlot 4 none .ret [sampleAssignment 3, .ret none] [] [0, 4],
      sampleSlot 5 none .statement [sampleAssignment 2] [0] [1],
      sampleSlot 3 none .statement [sampleAssignment 1] [2] [1]]
    order := [0, 1, 4, 2, 3] }

/-- The node of the key leads to what follows the loop, but the break behind it leaves the
switch. -/
theorem caughtBreak_leavesSwitch :
    let g := sampleStructured caughtBreak
    (g.node 0).loopFollow = some 2 ∧ g.succs 4 = [2] ∧
      (emit sampleWriting g .empty .empty).method.body = some
        (.whileLoop (condition .empty "LT;" (sampleTest 1) true)
          [.switch (expression .empty "LT;" (.var 0) (some "I"))
            [.mk [1] false (sampleStatement 1 ++ [plainJump .break]),
              .mk [] true (sampleStatement 2 ++ [plainJump .continue])]] ::
          (sampleStatement 3 ++ [.ret none])) := by
  refine ⟨?_, ?_, ?_⟩
  · cbv
  · cbv
  · cbv

end Emission
end DalvikDecompiler
