import DalvikDecompiler.Proofs.Emission.LoopMirroring
import DalvikDecompiler.Proofs.Emission.Positions
import DalvikDecompiler.Proofs.Emission.Surroundings

/-!
# All code that is laid out goes along with walks

**Input.** Code whose stops are right, for a node that walks may come to.

The code mirrors its node.  Wherever it can be entered at the label of a node, the rest of it
mirrors this node.  Both are shown together, since the turns of a loop around a label run from its
start.

What stands behind some code need not be the code of a node that walks come to.  It need not mirror
anything then, as it is never run, except where a jump enters it.

**Results.**
* `Mirrored.straight`, `Mirrored.half`, `Mirrored.preTest` and so on: one for each way code is made.
* `Due`: what is to be written next, along the layout.
* `Lays.mirrors`: code that is laid out, whatever it is made of.
-/

namespace DalvikDecompiler
namespace Emission

open Symbolic (Variables Instr)
open Java (Block Statement Expression Run Does doesFrom WhileTurn DoTurn)

/-- Nodes that walks come to, and those of them whose labels are not those of other nodes. -/
structure Terrain (src : Source) (reached known : NodeId → Prop) : Prop where
  closed : ∀ id flow next, reached id → src.graph.Step id flow (some next) → reached next
  within : ∀ n, known n → reached n
  named : ∀ n m, known n → src.graph.isLive m = true → src.labelOf n = src.labelOf m → n = m

theorem Terrain.of_trip
    {src : Source}
    {reached known : NodeId → Prop}
    {k : Nat}
    {id m : NodeId}
    {flow : List FlowEvent}
    (h : Terrain src reached known)
    (hreached : reached id)
    (htrip : src.graph.Trip k id flow (some m)) :
    reached m := by
  generalize hm : some m = fate at htrip
  induction htrip with
  | here => exact Option.some.inj hm ▸ hreached
  | step hfirst _ ih => exact ih (h.closed _ _ _ hreached hfirst) hm
  | leave => cases hm

/-- Code mirrors a node from some point on, if it can be entered there. -/
def Enters
    (src : Source)
    (vars : Variables)
    (marked : NodeId → Prop)
    (place : Place)
    (n : NodeId)
    (run : Run) : Prop :=
  ∀ events o, run events o → Mirrors src vars marked place n true run

/-- A block mirrors its node, and the known nodes from their labels on. -/
structure Mirrored
    (src : Source)
    (vars : Variables)
    (marked reached known : NodeId → Prop)
    (place : Place)
    (id : NodeId)
    (moves : Bool)
    (block : Block) : Prop where
  does : reached id → Mirrors src vars marked place id moves (Does block)
  enters : ∀ n, known n → Enters src vars marked place n (doesFrom (src.labelOf n) block)

namespace Enters

variable {src : Source} {vars : Variables} {marked : NodeId → Prop} {place : Place}
variable {n : NodeId} {run run' : Run} {rest : Block} {follow : Option NodeId}

theorem none
    (h : ∀ events o, ¬ run events o) :
    Enters src vars marked place n run :=
  fun events o hdoes => absurd hdoes (h events o)

theorem congr
    (h : Enters src vars marked place n run)
    (hsame : ∀ events o, run' events o ↔ run events o) :
    Enters src vars marked place n run' :=
  fun events o hdoes => (h events o ((hsame events o).1 hdoes)).congr hsame

theorem or
    (h : Enters src vars marked place n run)
    (h' : Enters src vars marked place n run') :
    Enters src vars marked place n fun events o => run events o ∨ run' events o :=
  fun events o hdoes => .either h h' ⟨events, o, hdoes⟩

theorem seq
    (h : Enters src vars marked (place.before follow) n run)
    (hrest : ∀ k flow m, (place.before follow).next = some m →
      src.graph.Trip k n flow (some m) → Mirrors src vars marked place m false (Does rest)) :
    Enters src vars marked place n (Java.Splits run rest) := by
  intro events o hdoes
  obtain ⟨_, _, hfirst⟩ := Java.Splits.exists_run hdoes
  exact (h _ _ hfirst).seq hrest

/-- The last statement of a block. -/
theorem last
    (h : Enters src vars marked place n run) :
    Enters src vars marked place n fun events o => Java.Splits run [] events o ∨ False := by
  have hend_ : Enters src vars marked place n (Java.Splits run []) := by
    have hbefore : place.before Option.none = place := rfl
    exact seq (hbefore ▸ h) fun _ _ _ hnext _ => .nil (hbefore ▸ hnext)
  exact hend_.or (.none fun _ _ h => h)

end Enters

namespace Mirrored

variable {src : Source} {vars : Variables} {marked reached known : NodeId → Prop} {place : Place}
variable {id next start : NodeId} {moves moves' : Bool} {block rest own : Block}
variable {follow : Option NodeId} {c : Expression}

/-- Code without labels cannot be entered. -/
theorem of_inert
    (hinert : ∀ mark ∈ Java.blockMarks block, mark.isInert = true)
    (h : reached id → Mirrors src vars marked place id moves (Does block)) :
    Mirrored src vars marked reached known place id moves block :=
  ⟨h, fun _ _ => .none fun _ _ => Java.not_doesFrom hinert⟩

/-- Behind code without labels only the rest can be entered. -/
theorem of_front
    (hinert : ∀ mark ∈ Java.blockMarks own, mark.isInert = true)
    (hrest : ∀ n, known n → Enters src vars marked place n (doesFrom (src.labelOf n) rest))
    (h : reached id → Mirrors src vars marked place id moves (Does (own ++ rest))) :
    Mirrored src vars marked reached known place id moves (own ++ rest) :=
  ⟨h, fun n hn => (hrest n hn).congr fun _ _ => Java.doesFrom_inert_append_iff hinert⟩

theorem nil
    (h : place.next = some id) :
    Mirrored src vars marked reached known place id false [] :=
  of_inert (fun _ h => by cases h) fun _ => .nil h

theorem «break»
    (h : place.breaks.bind Scope.follow = some id) :
    Mirrored src vars marked reached known place id false [plainJump .break] :=
  of_inert (by simp [Java.Statement.marks, plainJump]) fun _ => .break h

theorem «continue»
    (h : place.continues.bind Scope.again = some id) :
    Mirrored src vars marked reached known place id false [plainJump .continue] :=
  of_inert (by simp [Java.Statement.marks, plainJump]) fun _ => .continue h

theorem goto
    (h : marked id) :
    Mirrored src vars marked reached known place id false
      [.jump .goto (some (src.labelOf id))] := by
  refine ⟨fun _ => .goto h, fun n _ => .none fun events o hdoes => ?_⟩
  have hlabel := Java.mem_of_doesFrom _ _ _ hdoes
  simp [Java.Statement.marks] at hlabel

/-- The label of a node stands directly in front of its code. -/
theorem node
    {declared : Block}
    (hterrain : Terrain src reached known)
    (hlive : src.graph.isLive id = true)
    (hbare : ∀ st ∈ declared, ∃ decl, st = .declaration decl none)
    (h : Mirrored src vars marked reached known place id true block) :
    Mirrored src vars marked reached known place id false
      (src.labelFor id ++ declared ++ block) := by
  have hsilent : ∀ st ∈ declared, st.Silent := by
    intro st hst
    obtain ⟨decl, rfl⟩ := hbare st hst
    exact .declared
  have hinert : ∀ mark ∈ Java.blockMarks declared, mark.isInert = true := by
    refine Java.isInert_of_mem_blockMarks fun st hst => ?_
    obtain ⟨decl, rfl⟩ := hbare st hst
    simp [Java.Statement.marks, Java.Mark.isInert]
  have hcode (hid : reached id) : Mirrors src vars marked place id true
    (Does (declared ++ block)) :=
    (h.does hid).silent hsilent
  have hbehind (n : NodeId) (hn : known n) :
      Enters src vars marked place n (doesFrom (src.labelOf n) (declared ++ block)) :=
    (h.enters n hn).congr fun _ _ => Java.doesFrom_inert_append_iff hinert
  rw [List.append_assoc]
  unfold Source.labelFor
  split
  · have hlabel : ∀ st ∈ [Statement.label (src.labelOf id)], st.Silent :=
      fun st hst => List.mem_singleton.1 hst ▸ .label
    refine ⟨fun hid => ((hcode hid).silent hlabel).weaken, fun n hn => ?_⟩
    have here : Enters src vars marked place n fun events o =>
        src.labelOf id = src.labelOf n ∧ Does (declared ++ block) events o := by
      rintro events o ⟨hsame, -⟩
      obtain rfl := hterrain.named n id hn hlive hsame.symm
      exact (hcode (hterrain.within n hn)).congr fun _ _ => and_iff_right rfl
    exact (here.or (hbehind n hn)).congr fun _ _ => Java.doesFrom_label_iff
  · exact ⟨fun hid => (hcode hid).weaken, hbehind⟩

theorem leave
    {ahead : List Instr}
    {last : Instr}
    (hkind : (src.node id).kind.isExit = true)
    (hcode : (src.node id).ins = ahead ++ [last])
    (hstays : ∀ ins ∈ ahead, ins.leaves = false)
    (hleaves : last.leaves = true)
    (hspells : Spells src.writing vars (src.node id).ins own) :
    Mirrored src vars marked reached known place id true own :=
  of_inert hspells.isInert_of_mem_blockMarks fun _ => .leave hkind hcode hstays hleaves hspells

theorem straight
    (hterrain : Terrain src reached known)
    (hkind : (src.node id).kind.base = .statement)
    (hsuccs : src.graph.succs id = [next])
    (hstays : ∀ ins ∈ (src.node id).ins, ins.leaves = false)
    (hspells : Spells src.writing vars (src.node id).ins own)
    (h : Mirrored src vars marked reached known place next moves rest) :
    Mirrored src vars marked reached known place id true (own ++ rest) :=
  of_front hspells.isInert_of_mem_blockMarks h.enters fun hid =>
    .straight hkind hsuccs hstays hspells
      (h.does (hterrain.closed _ _ _ hid (.straight hkind hsuccs)))

section Branch

variable {b : BranchTargets} {vars' : Variables}
variable (hterrain : Terrain src reached known)
variable (htargets : (src.node id).kind.targets? = some b)
variable (hcondition : src.graph.Testable id) (hsame : SameVars vars vars')
include hterrain htargets hcondition

theorem reached_toward
    (hid : reached id)
    (holds : Bool) :
    reached (b.toward holds) := by
  obtain ⟨flow, hdecided⟩ := hcondition.exists_decides holds
  exact hterrain.closed _ _ _ hid (.branch htargets hdecided)

include hsame

theorem branch
    {negate : Bool}
    {thenBlock : Block}
    {elseBlock : Option Block}
    (honTrue : Mirrored src vars marked reached known place (b.toward !negate) false thenBlock)
    (honFalse : Mirrored src vars marked reached known place (b.toward negate) false
      (elseBlock.getD [])) :
    Mirrored src vars marked reached known place id true
      [.ifThen (src.test vars' id negate) thenBlock elseBlock] := by
  have htoward := reached_toward hterrain htargets hcondition
  refine ⟨fun hid => .branch htargets hcondition hsame (honTrue.does (htoward hid _))
    (honFalse.does (htoward hid _)), fun n hn => ?_⟩
  have hinside := (honTrue.enters n hn).or (honFalse.enters n hn)
  simp only [← Java.elseDoesFrom_eq] at hinside
  exact hinside.last

theorem pass
    (hsingle : b.onTrue = b.onFalse)
    (h : Mirrored src vars marked reached known place b.onTrue moves rest) :
    Mirrored src vars marked reached known place id true
      (.expression (src.test vars' id false) :: rest) := by
  have hinert : ∀ mark ∈ Java.blockMarks [.expression (src.test vars' id false)],
      mark.isInert = true := by
    simp [Java.Statement.marks, Java.Mark.isInert]
  exact @of_front _ _ _ _ _ _ _ _ _ [_] hinert h.enters fun hid =>
    .pass htargets hcondition hsame hsingle
      (h.does (reached_toward hterrain htargets hcondition hid true))

/-- An empty branch is left out. -/
theorem branches
    {negate : Bool}
    {thenBlock elseBlock : Block}
    (honTrue : Mirrored src vars marked reached known place (b.toward !negate) false thenBlock)
    (honFalse : Mirrored src vars marked reached known place (b.toward negate) false elseBlock) :
    Mirrored src vars marked reached known place id true
      [.ifThen (src.test vars' id negate) thenBlock (unlessEmpty elseBlock)] :=
  branch hterrain htargets hcondition hsame honTrue ((getD_unlessEmpty elseBlock).symm ▸ honFalse)

theorem breaking
    {negate : Bool}
    {other : Block}
    (hleaves : place.breaks.bind Scope.follow = some (b.toward !negate))
    (hotherwise : Mirrored src vars marked reached known place (b.toward negate) false other) :
    Mirrored src vars marked reached known place id true
      [.ifThen (src.test vars' id negate) [plainJump .break] (unlessEmpty other)] :=
  branches hterrain htargets hcondition hsame (.break hleaves) hotherwise

end Branch

/-- Code inside a statement, and the code behind this statement. -/
theorem seq
    (hterrain : Terrain src reached known)
    (hfirst : Mirrored src vars marked reached known (place.before follow) id moves block)
    (hnone : follow = none → rest = [])
    (hsome : ∀ next, follow = some next →
      Mirrored src vars marked reached known place next false rest) :
    Mirrored src vars marked reached known place id moves (block ++ rest) := by
  have hbehind (m : NodeId) (hm : reached m) (hnext : (place.before follow).next = some m) :
      Mirrors src vars marked place m false (Does rest) := by
    cases follow with
    | none =>
        obtain rfl := hnone rfl
        exact .nil hnext
    | some n =>
        obtain rfl := Option.some.inj hnext
        exact (hsome n rfl).does hm
  have henters (n : NodeId) (hn : known n) :
      Enters src vars marked place n (doesFrom (src.labelOf n) rest) := by
    cases follow with
    | none =>
        obtain rfl := hnone rfl
        exact .none fun _ _ h => h
    | some next => exact (hsome next rfl).enters n hn
  constructor
  · intro hid
    have hwhole := (hfirst.does hid).seq fun _ _ m hnext htrip =>
      hbehind m (hterrain.of_trip hid htrip) hnext
    exact hwhole.congr fun _ _ => Java.does_append_iff
  · intro n hn
    have hfirst' := (hfirst.enters n hn).seq fun _ _ m hnext htrip =>
      hbehind m (hterrain.of_trip (hterrain.within n hn) htrip) hnext
    exact (hfirst'.or (henters n hn)).congr fun _ _ => Java.doesFrom_append_iff

/-- Continues at the end of the body of a loop do not matter. -/
theorem trim
    {head : NodeId}
    (h : Mirrored src vars marked reached known (place.inLoop head next follow next) id moves
      block) :
    Mirrored src vars marked reached known (place.inLoop head next follow next) id moves
      (dropFinalContinue block) := by
  have htrimmed := trimmed_dropFinalContinue block
  refine ⟨fun hid => (h.does hid).trim htrimmed.does rfl, fun n hn events o hdoes => ?_⟩
  have htrims := htrimmed.doesFrom (src.labelOf n)
  rcases htrims.back _ _ hdoes with hsame | ⟨-, hcontinued⟩
  · exact (h.enters n hn _ _ hsame).trim htrims rfl
  · exact (h.enters n hn _ _ hcontinued).trim htrims rfl

theorem whileLoop
    (hterrain : Terrain src reached known)
    (hstart : reached id → reached start)
    (hgate : Gate src vars c id moves start (place.before follow).next)
    (hbody : Mirrored src vars marked reached known (place.inLoop id id follow id) start moves'
      block)
    (hprogress : moves = true ∨ moves' = true) :
    Mirrored src vars marked reached known (place.before follow) id true
      [.whileLoop c (dropFinalContinue block)] := by
  have hloop (hid : reached id) : Mirrors src vars marked (place.before follow) id true
      (Does [.whileLoop c (dropFinalContinue block)]) :=
    .whileLoop hgate (hbody.trim.does (hstart hid)) hprogress
  refine ⟨hloop, fun n hn => Enters.last fun events o hdoes => ?_⟩
  obtain ⟨_, _, hinside⟩ := WhileTurn.exists_run hdoes
  exact (hbody.trim.enters n hn _ _ hinside).whileTurn fun _ _ htrip =>
    hloop (hterrain.of_trip (hterrain.within n hn) htrip)

theorem doLoop
    (hterrain : Terrain src reached known)
    (hbody : Mirrored src vars marked reached known (place.inLoop id next follow next) id true
      block)
    (hgate : Gate src vars c next moves id (place.before follow).next) :
    Mirrored src vars marked reached known (place.before follow) id true
      [.doLoop c (dropFinalContinue block)] := by
  have hloop (hid : reached id) : Mirrors src vars marked (place.before follow) id true
      (Does [.doLoop c (dropFinalContinue block)]) :=
    .doLoop (hbody.trim.does hid) hgate
  refine ⟨hloop, fun n hn => Enters.last fun events o hdoes => ?_⟩
  obtain ⟨_, _, hinside⟩ := DoTurn.exists_run hdoes
  exact (hbody.trim.enters n hn _ _ hinside).doTurn hgate fun _ _ htrip =>
    hloop (hterrain.of_trip (hterrain.within n hn) htrip)

section Onward

variable {b : BranchTargets} {vars' : Variables} {joint latch : NodeId}
variable {thenBlock elseBlock first last : Block}
variable (hterrain : Terrain src reached known)
include hterrain

/-- Code behind a branch whose targets come together. -/
theorem behind
    (hbranch : Mirrored src vars marked reached known (place.before (some joint)) id moves own)
    (honward : Mirrored src vars marked reached known place joint false rest) :
    Mirrored src vars marked reached known place id moves (own ++ rest) :=
  hbranch.seq hterrain (fun h => by cases h) fun _ hn => Option.some.inj hn ▸ honward

theorem continuing
    {negate : Bool}
    (htargets : (src.node id).kind.targets? = some b)
    (hcondition : src.graph.Testable id)
    (hsame : SameVars vars vars')
    (hagain : place.continues.bind Scope.again = some (b.toward !negate))
    (honward : Mirrored src vars marked reached known place (b.toward negate) false rest) :
    Mirrored src vars marked reached known place id true
      (.ifThen (src.test vars' id negate) [plainJump .continue] none :: rest) :=
  behind hterrain (branch hterrain htargets hcondition hsame (.continue hagain) (.nil rfl)) honward

theorem half
    {reversed : Bool}
    (htargets : (src.node id).kind.targets? = some b)
    (hcondition : src.graph.Testable id)
    (hsame : SameVars vars vars')
    (honTrue : Mirrored src vars marked reached known (place.before (some joint))
      (b.toward !reversed) false thenBlock)
    (hlands : (place.before (some joint)).next = some (b.toward reversed))
    (honward : Mirrored src vars marked reached known place joint false rest) :
    Mirrored src vars marked reached known place id true
      (.ifThen (src.test vars' id reversed) thenBlock none :: rest) :=
  behind hterrain (branch hterrain htargets hcondition hsame honTrue (.nil hlands)) honward

theorem joined
    {reversed : Bool}
    (htargets : (src.node id).kind.targets? = some b)
    (hcondition : src.graph.Testable id)
    (hsame : SameVars vars vars')
    (honTrue : Mirrored src vars marked reached known (place.before (some joint))
      (b.toward !reversed) false thenBlock)
    (honFalse : Mirrored src vars marked reached known (place.before (some joint))
      (b.toward reversed) false elseBlock)
    (honward : Mirrored src vars marked reached known place joint false rest) :
    Mirrored src vars marked reached known place id true
      (.ifThen (src.test vars' id reversed) thenBlock (unlessEmpty elseBlock) :: rest) :=
  behind hterrain (branches hterrain htargets hcondition hsame honTrue honFalse) honward

variable (hnone : follow = none → rest = [])
variable (honward : ∀ next, follow = some next →
  Mirrored src vars marked reached known place next false rest)
include hnone honward

theorem preTest
    {negate : Bool}
    (htargets : (src.node id).kind.targets? = some b)
    (hcondition : src.graph.Testable id)
    (hsame : SameVars vars vars')
    (hlands : (place.before follow).next = some (b.toward negate))
    (hinside : Mirrored src vars marked reached known (place.inLoop id id follow id)
      (b.toward !negate) false block) :
    Mirrored src vars marked reached known place id true
      (.whileLoop (src.test vars' id negate) (dropFinalContinue block) :: rest) := by
  have hloop := whileLoop hterrain
    (fun hid => reached_toward hterrain htargets hcondition hid _)
    (.condition htargets hcondition hsame hlands) hinside (.inl rfl)
  exact hloop.seq hterrain hnone honward

theorem postTest
    {negate : Bool}
    (htargets : (src.node latch).kind.targets? = some b)
    (hcondition : src.graph.Testable latch)
    (hsame : SameVars vars vars')
    (hagain : (place.inLoop id latch follow id).next = some (b.toward !negate))
    (hlands : (place.before follow).next = some (b.toward negate))
    (hinside : Mirrored src vars marked reached known (place.inLoop id latch follow latch) id true
      block) :
    Mirrored src vars marked reached known place id true
      (.doLoop (src.test vars' latch negate) (dropFinalContinue block) :: rest) := by
  have hgate := Gate.condition htargets hcondition hsame hlands
  rw [← Option.some.inj hagain] at hgate
  exact (doLoop hterrain hinside hgate).seq hterrain hnone honward

theorem untested
    (hinside : Mirrored src vars marked reached known (place.inLoop id id follow id) id true
      block) :
    Mirrored src vars marked reached known place id true
      (.doLoop (truthLiteral true) (dropFinalContinue block) :: rest) :=
  (doLoop hterrain hinside .literal).seq hterrain hnone honward

theorem endless
    {again : Option NodeId}
    (hleading : Mirrored src vars marked reached known (place.inLoop id id follow (again.getD id))
      id true first)
    (hnoLast : again = none → last = [])
    (htrailing : ∀ l, again = some l → Mirrored src vars marked reached known
      (place.inLoop id id follow id) l false last) :
    Mirrored src vars marked reached known place id true
      (.whileLoop (truthLiteral true) (dropFinalContinue (first ++ last)) :: rest) := by
  have hbody : Mirrored src vars marked reached known (place.inLoop id id follow id) id true
      (first ++ last) := by
    refine seq hterrain ?_ hnoLast htrailing
    cases again <;> exact hleading
  have hloop := whileLoop hterrain (fun hid => hid) .literal hbody (.inr rfl)
  exact hloop.seq hterrain hnone honward

end Onward

end Mirrored

/-- Whether what is written begins with a step. -/
def Part.moves : Part → Bool
  | .node => false
  | .kind _ => true

/-- Something is to be written for a node of the graph, and no switch is left to be written. -/
structure Due (src : Source) (id : NodeId) (part : Part) (s : Progress) : Prop where
  live : src.graph.isLive id = true
  seen : SwitchesSeen src s
  plain : part.Plain src id

namespace Due

variable {src : Source} {id next : NodeId} {part : Part} {kind : NodeKind} {s s' : Progress}
variable {b : BranchTargets}

theorem code
    (h : Due src id .node s)
    (hfirst : (src.node id).kind.isExit = true ∨ id ∉ s.visited)
    (hadvances : Advances s s') :
    Due src id (.kind (src.node id).kind) s' :=
  ⟨h.live, h.seen.advances hadvances, .code h.seen hfirst⟩

theorem inner
    {type : LoopTest}
    (h : Due src id (.kind (.loop kind type)) s)
    (hadvances : Advances s s') :
    Due src id (.kind kind) s' :=
  ⟨h.live, h.seen.advances hadvances, h.plain.inner⟩

theorem isExit
    (h : Due src id (.kind kind) s)
    (hleaves : kind = .ret ∨ kind = .throw) :
    (src.node id).kind.isExit = true := by
  rw [NodeKind.isExit, ← h.plain.1.base_eq]
  rcases hleaves with rfl | rfl <;> rfl

section Unprotected

variable (hunprotected : src.graph.Unprotected)
include hunprotected

/-- A node that is marked to come next. -/
theorem marked
    (h : Due src id part s)
    (hmarked : next ∈ (src.node id).ifFollow ∨ next ∈ (src.node id).loopFollow ∨
      next ∈ (src.node id).switchFollow ∨ next ∈ (src.node id).latch)
    (hadvances : Advances s s') :
    Due src next .node s' :=
  ⟨hunprotected.marked id h.live next hmarked, h.seen.advances hadvances, trivial⟩

/-- The node that follows a loop. -/
theorem onward
    {follow : Option NodeId}
    (h : Due src id part s)
    (hloopFollow : (src.node id).loopFollow = follow)
    (hadvances : Advances s s')
    (hfollow : follow = some next) :
    Due src next .node s' :=
  h.marked hunprotected (.inr (.inl (hloopFollow.trans hfollow))) hadvances

theorem testable
    (h : Due src id part s)
    (htargets : (src.node id).kind.targets? = some b) :
    src.graph.Testable id :=
  ((hunprotected.ending id h.live).of_branch htargets).2

theorem toward
    (h : Due src id part s)
    (htargets : (src.node id).kind.targets? = some b)
    (hadvances : Advances s s')
    (holds : Bool) :
    Due src (b.toward holds) .node s' :=
  ⟨((hunprotected.ending id h.live).of_branch htargets).1 holds, h.seen.advances hadvances, trivial⟩

theorem exists_succ
    (h : Due src id (.kind .statement) s) :
    ∃ next, src.graph.succs id = [next] ∧ src.graph.isLive next = true ∧
      ∀ ins ∈ (src.node id).ins, ins.leaves = false :=
  (hunprotected.ending id h.live).of_straight h.plain.1.base_eq.symm

theorem stays
    (h : Due src id (.kind .statement) s) :
    ∀ ins ∈ (src.node id).ins, ins.leaves = false := by
  obtain ⟨_, -, -, hstays⟩ := h.exists_succ hunprotected
  exact hstays

theorem straight
    (h : Due src id (.kind .statement) s)
    (hsuccs : src.graph.succs id = [next])
    (hadvances : Advances s s') :
    Due src next .node s' := by
  obtain ⟨_, hsame, hlive, -⟩ := h.exists_succ hunprotected
  obtain rfl := List.head_eq_of_cons_eq (hsuccs.symm.trans hsame)
  exact ⟨hlive, h.seen.advances hadvances, trivial⟩

end Unprotected

end Due

section Layout

variable {src : Source} {vars : Variables} {marked reached known : NodeId → Prop} {place : Place}
variable {ctx : Context} {id : NodeId} {part : Part} {s s' : Progress} {block : Block}

/-- Code that is laid out mirrors its node, if all its stops are right and no switch is still to be
written. -/
theorem Lays.mirrors
    (h : Lays src vars (Right marked) place ctx id part s block s')
    (hunprotected : src.graph.Unprotected)
    (hterrain : Terrain src reached known)
    (hdue : Due src id part s) :
    Mirrored src vars marked reached known place id part.moves block := by
  induction h with
  | cut hstop => exact hstop.elim
  | again _ hstop => exact .continue hstop
  | behind _ _ hstop => exact .nil hstop
  | jump _ _ _ _ _ hstop => exact .goto hstop
  | node _ _ hfirst hcalm hbare _ ih =>
      have hadvances := (Advances.visit _ _).trans hcalm.advances
      exact .node hterrain hdue.live hbare (ih (hdue.code hfirst hadvances))
  | leave hleaves hspells =>
      have hkind := hdue.isExit hleaves
      obtain ⟨_, _, hcode, hstays, hlast⟩ := (hunprotected.ending _ hdue.live).of_leave hkind
      exact .leave hkind hcode hstays hlast hspells
  | stuck hsuccs =>
      obtain ⟨next, hsame, -⟩ := hdue.exists_succ hunprotected
      exact absurd hsame (hsuccs next)
  | exit hsuccs _ hspells _ hstop =>
      exact .straight hterrain hdue.plain.1.base_eq.symm hsuccs (hdue.stays hunprotected) hspells
        (.break hstop)
  | @through _ _ _ _ _ _ own hsuccs _ _ hspells _ hstop =>
      rw [← List.append_nil own]
      exact .straight hterrain hdue.plain.1.base_eq.symm hsuccs (hdue.stays hunprotected) hspells
        (.nil hstop)
  | straight hsuccs _ _ hspells hcalm _ ih =>
      exact .straight hterrain hdue.plain.1.base_eq.symm hsuccs (hdue.stays hunprotected) hspells
        (ih (hdue.straight hunprotected hsuccs hcalm.advances))
  | pass _ _ htargets hsingle hsame hcalm _ ih =>
      exact .pass hterrain htargets (hdue.testable hunprotected htargets) hsame hsingle
        (ih (hdue.toward hunprotected htargets hcalm.advances true))
  | breaking negate hsplits _ hsame hcalm hstop _ ih =>
      have htargets := hsplits.targets
      exact .breaking hterrain htargets (hdue.testable hunprotected htargets) hsame hstop
        (ih (hdue.toward hunprotected htargets hcalm.advances negate))
  | continuing negate hsplits _ _ hsame hcalm hstop _ ih =>
      have htargets := hsplits.targets
      exact .continuing hterrain htargets (hdue.testable hunprotected htargets) hsame hstop
        (ih (hdue.toward hunprotected htargets hcalm.advances negate))
  | half reversed hsplits _ hifFollow _ _ hsame hcalm hlays hstop _ honTrue honward =>
      have htargets := hsplits.targets
      exact .half hterrain htargets (hdue.testable hunprotected htargets) hsame
        (honTrue (hdue.toward hunprotected htargets hcalm.advances _)) hstop
        (honward (hdue.marked hunprotected (.inl hifFollow)
          (hcalm.advances.trans hlays.advances)))
  | joined reversed hsplits _ hifFollow _ _ hsame hcalm hlays hlays' _ honTrue honFalse honward =>
      have htargets := hsplits.targets
      have hadvances := hcalm.advances.trans hlays.advances
      exact .joined hterrain htargets (hdue.testable hunprotected htargets) hsame
        (honTrue (hdue.toward hunprotected htargets hcalm.advances _))
        (honFalse (hdue.toward hunprotected htargets hadvances _))
        (honward (hdue.marked hunprotected (.inl hifFollow) (hadvances.trans hlays'.advances)))
  | opened hsplits _ _ hsame hcalm hlays _ honTrue honFalse =>
      have htargets := hsplits.targets
      exact .branches hterrain htargets (hdue.testable hunprotected htargets) hsame
        (honTrue (hdue.toward hunprotected htargets hcalm.advances true))
        (honFalse (hdue.toward hunprotected htargets (hcalm.advances.trans hlays.advances) false))
  | preTest negate hkind hinner hloopFollow _ hsame hcalm hstop hlays hnoRest _ hinside honward =>
      have htargets := hkind.targets_eq.symm.trans hinner
      have hadvances := hcalm.advances.trans hlays.advances
      exact .preTest hterrain (fun h => (hnoRest h).1)
        (fun n hn => honward n hn (hdue.onward hunprotected hloopFollow hadvances hn))
        htargets (hdue.testable hunprotected htargets) hsame hstop
        (hinside (hdue.toward hunprotected htargets hcalm.advances _))
  | postTest negate _ hends htargets hloopFollow _ hcalm hlays hsame hcalm' hagain hstop hnoRest _
      hinside honward =>
      have hlatch := hdue.marked hunprotected (.inr (.inr (.inr hends))) hcalm.advances
      have hadvances := hcalm.advances.trans
        (hlays.advances.trans ((Advances.visit _ _).trans hcalm'.advances))
      exact .postTest hterrain (fun h => (hnoRest h).1)
        (fun n hn => honward n hn (hdue.onward hunprotected hloopFollow hadvances hn))
        htargets (hlatch.testable hunprotected htargets) hsame hagain hstop
        (hinside (hdue.inner hcalm.advances))
  | untested _ _ hloopFollow hcalm hlays hcalm' hnoRest _ hinside honward =>
      have hadvances := hcalm.advances.trans (hlays.advances.trans hcalm'.advances)
      exact .untested hterrain (fun h => (hnoRest h).1)
        (fun n hn => honward n hn (hdue.onward hunprotected hloopFollow hadvances hn))
        (hinside (hdue.inner hcalm.advances))
  | endless _ _ hloopFollow hunwritten hlays hnoLast hlays' hcalm hnoRest _ hleading htrailing
      honward =>
      have hlatch (l : NodeId) (hl : _ = some l) :=
        (Option.filter_eq_some_iff.1 (hunwritten.symm.trans hl)).1
      have hadvances := hlays.advances.trans
        ((rests_rest hnoLast hlays').trans hcalm.rests).toAdvances
      exact .endless hterrain (fun h => (hnoRest h).1)
        (fun n hn => honward n hn (hdue.onward hunprotected hloopFollow hadvances hn))
        (hleading (hdue.inner (.refl _))) (fun h => (hnoLast h).1)
        fun l hl => htrailing l hl
          (hdue.marked hunprotected (.inr (.inr (.inr (hlatch l hl)))) hlays.advances)
  | blank | switch => exact hdue.plain.not_switch.elim
  | region => exact absurd rfl ((hdue.plain.unprotected hunprotected hdue.live).1 _ _ _)
  | handler => exact absurd rfl ((hdue.plain.unprotected hunprotected hdue.live).2 _ _ _)

end Layout

end Emission
end DalvikDecompiler
