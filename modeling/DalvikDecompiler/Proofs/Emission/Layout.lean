import DalvikDecompiler.Proofs.Emission.Branches
import DalvikDecompiler.Proofs.Emission.Labels

/-!
# How code is laid out

What a walk writes is a tree of parts, each of which is written for a node at some place.  A place
is known by the node whose code comes behind it and by the loops and switches around it.  Where a
walk does not write the node it comes to, it stops: it falls off the end of a block, or it leaves
with a jump.  Java sends such a stop where the place or the label says, the graph to the node that
was not written.  A switch is such a stop too, as a walk goes on from it with one of its arms.

`Lays` is this tree.  What its stops have to satisfy is a parameter, so that all questions about
stops can be asked of one and the same tree.

Main statements: `Lays.advances`, `Lays.idle`.
-/

namespace DalvikDecompiler

namespace Java

/-- The keys of an arm. -/
def SwitchArm.keys : SwitchArm → List Int32
  | .mk keys _ _ => keys

/-- Whether an arm takes the values without a key. -/
def SwitchArm.isDefault : SwitchArm → Bool
  | .mk _ isDefault _ => isDefault

/-- The body of an arm. -/
def SwitchArm.body : SwitchArm → Block
  | .mk _ _ body => body

/-- The body of a handler. -/
def CatchClause.body : CatchClause → Block
  | .mk _ body => body

end Java

namespace Emission

open Symbolic (VarId Variables Instr)
open Java (Block Statement SwitchArm CatchClause Expression VarDecl)

/-- A statement that a jump without a label may bind to. -/
inductive Scope where
  /-- A loop with the node that it continues with and the one that follows it. -/
  | loop (head again : NodeId) (follow : Option NodeId)
  | switch (id : NodeId) (follow : Option NodeId)

/-- Where a block stands. -/
structure Place where
  /-- The node whose code comes behind the block. -/
  next : Option NodeId
  /-- The loops and switches around, the innermost one first. -/
  scopes : List Scope

namespace Place

/-- Outside of all statements, with nothing behind. -/
def outermost : Place :=
  ⟨none, []⟩

/-- Inside a statement that a node follows. -/
def before (place : Place) (follow : Option NodeId) : Place :=
  { place with next := follow.or place.next }

/-- Inside a loop, in front of one of its nodes. -/
def inLoop (place : Place) (head again : NodeId) (follow : Option NodeId) (next : NodeId) :
    Place :=
  ⟨some next, .loop head again follow :: place.scopes⟩

/-- Inside an arm of a switch. -/
def inSwitch (place : Place) (id : NodeId) (follow next : Option NodeId) : Place :=
  ⟨next, .switch id follow :: place.scopes⟩

end Place

/-- What is written for a node: all of it, or its code as a node of some kind. -/
inductive Part where
  | node
  | kind (kind : NodeKind)

/-- The condition of a node as it is written with some variables. -/
def Source.test (src : Source) (vars : Variables) (id : NodeId) (negate : Bool) : Expression :=
  src.conditionWithin vars (src.graph.size + 1) id negate

/-- The label of a node, if it needs one. -/
def Source.labelFor (src : Source) (id : NodeId) : Block :=
  if src.labels.contains id then [.label (src.labelOf id)] else []

/-- Writing that does not change the course, but may declare variables and miss a slot. -/
structure Calm (s s' : Progress) : Prop extends SameCourse s s' where
  vars : SameVars s.vars s'.vars

/-- The turn of a target that gets an arm. -/
structure Turn where
  target : NodeId
  keys : List Int32
  isDefault : Bool
  /-- Whether a break closes the arm. -/
  closed : Bool
  begin : Progress
  body : Block
  finish : Progress

/-- The arm of a turn. -/
def Turn.arm (t : Turn) : SwitchArm :=
  .mk t.keys t.isDefault (t.body ++ if t.closed then [plainJump .break] else [])

/-- The turn of a target with keys: its arm needs a break unless one of its nodes runs on into the
next target or its end is not reached. -/
def Turn.ofKeys (keys : List Int32) (isDefault : Bool) (target : NodeId) (next : Option NodeId)
    (s : Progress) (body : Block) (finish : Progress) : Turn :=
  { target
    keys
    isDefault
    closed := finish.needBreak && !body.getLast?.any Statement.neverCompletes
    begin := { s with nextCase := next }
    body
    finish }

/-- The turn of a default target without keys, which is the last one. -/
def Turn.ofDefault (target : NodeId) (s : Progress) (body : Block) (finish : Progress) : Turn :=
  { target
    keys := []
    isDefault := true
    closed := false
    begin := { s with nextCase := none }
    body
    finish }

/-- How a walk goes on other than with the code of the node it comes to. -/
inductive Stop where
  /-- It is too deep to go on at all. -/
  | cut (id : NodeId)
  /-- It falls off the end of a block. -/
  | falls (id : NodeId)
  /-- It breaks out of a loop to what follows it. -/
  | exits (id : NodeId)
  | continues (id : NodeId)
  /-- It jumps to the label of a node that has been written. -/
  | jumps (id : NodeId)
  /-- It goes to an arm of a switch.  The arms are written in turn between two states. -/
  | selects (ctx : Context) (id : NodeId) (cases : SwitchTable) (s : Progress)
      (turns more : List Turn) (s' : Progress)
  /-- It breaks out of a switch at the end of an arm. -/
  | closes (switch : NodeId)

/-- How the targets of a switch take turns: one that has been visited is passed over. -/
inductive Turns (cases : SwitchTable) :
    List NodeId → Option NodeId → Progress → List Turn → Option NodeId → Progress → Prop
  | nil {fallback : Option NodeId} {s : Progress} :
      Turns cases [] fallback s [] fallback s
  | skip {target : NodeId} {rest : List NodeId} {fallback left : Option NodeId}
      {s s' : Progress} {turns : List Turn}
      (hvisited : target ∈ s.visited)
      (h : Turns cases rest fallback s turns left s') :
      Turns cases (target :: rest) fallback s turns left s'
  | write {target : NodeId} {rest : List NodeId} {fallback left : Option NodeId}
      {s finish s' : Progress} {body : Block} {turns : List Turn}
      (hnew : target ∉ s.visited)
      (h : Turns cases rest (if fallback == some target then none else fallback)
        { finish with needBreak := true } turns left s') :
      Turns cases (target :: rest) fallback s
        (.ofKeys (cases.keysOf target) (fallback == some target) target rest.head? s body finish ::
          turns) left s'

/-- The turn of the default target if it has no arm, unless it follows the switch. -/
inductive LastTurn (follow : Option NodeId) :
    Option NodeId → Progress → List Turn → Progress → Prop
  | skip {left : Option NodeId} {s : Progress}
      (hbehind : ∀ target, left = some target → left = follow) :
      LastTurn follow left s [] { s with nextCase := none }
  | write {target : NodeId} {s finish : Progress} {body : Block}
      (hinside : some target ≠ follow) :
      LastTurn follow (some target) s
        [.ofDefault target s body finish] finish

/-- A handler that is written. -/
structure Catch where
  decl : VarDecl
  start : NodeId
  begin : Progress
  body : Block
  finish : Progress

/-- The clause of a handler. -/
def Catch.clause (c : Catch) : CatchClause :=
  .mk c.decl c.body

/-- How the handlers of a region are written. -/
inductive Handles (src : Source) : List NodeId → Progress → List Catch → Progress → Prop
  | nil {s : Progress} :
      Handles src [] s [] s
  | skip {id : NodeId} {rest : List NodeId} {s s' : Progress} {catches : List Catch}
      (h : Handles src rest { s with visited := OrderedSet.insert s.visited id } catches s') :
      Handles src (id :: rest) s catches s'
  | write {id : NodeId} {rest : List NodeId} {binding : Option VarId} {type : Option String}
      {s s' : Progress} {catches : List Catch} {c : Catch}
      (hkind : (src.node id).kind = .catchBlock c.start binding type)
      (hcalm : Calm { s with visited := OrderedSet.insert s.visited id } c.begin)
      (h : Handles src rest c.finish catches s') :
      Handles src (id :: rest) s (c :: catches) s'

/-- A node with two different targets, and what it is taken as. -/
structure Splits (g : FlowGraph) (id : NodeId) (kind : NodeKind) (b : BranchTargets) : Prop where
  plain : kind.isLoop = false
  inner : kind.targets? = some b
  targets : (g.node id).kind.targets? = some b
  two : b.onTrue ≠ b.onFalse

/-- A branch neither of whose targets leaves or continues the loop. -/
structure StaysInside (ctx : Context) (b : BranchTargets) : Prop where
  leaves : ∀ holds, some (b.toward holds) ≠ ctx.top .loopEnd
  continues : ∀ holds, ctx.continuesLoop (b.toward holds) = false

/-- The context inside a loop. -/
def loopContext (ctx : Context) (follow : Option NodeId) (again : NodeId) : Context :=
  (ctx.push .loopEnd follow).push .loopStart (some again)

/-- How the code is laid out that is written for a node, in a context and between two states. -/
inductive Lays (src : Source) (vars : Variables) (ok : Place → Stop → Prop) :
    Place → Context → NodeId → Part → Progress → Block → Progress → Prop
  | cut {place : Place} {ctx : Context} {id : NodeId} {s : Progress}
      (hstop : ok place (.cut id)) :
      Lays src vars ok place ctx id .node s [] s
  | again {place : Place} {ctx : Context} {id : NodeId} {s : Progress}
      (hcontinues : ctx.continuesLoop id = true)
      (hstop : ok place (.continues id)) :
      Lays src vars ok place ctx id .node s [plainJump .continue] s
  | behind {place : Place} {ctx : Context} {id : NodeId} {s : Progress}
      (hcontinues : ctx.continuesLoop id = false)
      (hbehind : ctx.isWrittenBehind id = true)
      (hstop : ok place (.falls id)) :
      Lays src vars ok place ctx id .node s [] s
  | jump {place : Place} {ctx : Context} {id : NodeId} {s s₁ : Progress}
      (hcontinues : ctx.continuesLoop id = false)
      (hbehind : ctx.isWrittenBehind id = false)
      (hstays : (src.node id).kind.isExit = false)
      (hvisited : id ∈ s.visited)
      (hcalm : Calm s s₁)
      (hstop : ok place (.jumps id)) :
      Lays src vars ok place ctx id .node s [.jump .goto (some (src.labelOf id))]
        { s₁ with gotoTargets := OrderedSet.insert s₁.gotoTargets id }
  | node {place : Place} {ctx : Context} {id : NodeId} {s s₁ s₂ : Progress} {declared block : Block}
      (hcontinues : ctx.continuesLoop id = false)
      (hbehind : ctx.isWrittenBehind id = false)
      (hfirst : (src.node id).kind.isExit = true ∨ id ∉ s.visited)
      (hcalm : Calm { s with visited := OrderedSet.insert s.visited id } s₁)
      (hbare : ∀ st ∈ declared, ∃ decl, st = .declaration decl none)
      (hcode : Lays src vars ok place ctx id (.kind (src.node id).kind) s₁ block s₂) :
      Lays src vars ok place ctx id .node s (src.labelFor id ++ declared ++ block) s₂
  | leave {place : Place} {ctx : Context} {id : NodeId} {kind : NodeKind} {s s₁ : Progress}
      {own : Block}
      (hleaves : kind = .ret ∨ kind = .throw)
      (hspells : Spells src.writing vars (src.node id).ins own)
      (hcalm : Calm s s₁) :
      Lays src vars ok place ctx id (.kind kind) s own s₁
  | stuck {place : Place} {ctx : Context} {id : NodeId} {s s₁ : Progress} {own : Block}
      (hsuccs : ∀ next, src.graph.succs id ≠ [next])
      (hspells : Spells src.writing vars (src.node id).ins own)
      (hcalm : Calm s s₁) :
      Lays src vars ok place ctx id (.kind .statement) s own s₁
  | exit {place : Place} {ctx : Context} {id next : NodeId} {s s₁ : Progress} {own : Block}
      (hsuccs : src.graph.succs id = [next])
      (hleaves : some next = ctx.top .loopEnd)
      (hspells : Spells src.writing vars (src.node id).ins own)
      (hcalm : Calm s s₁)
      (hstop : ok place (.exits next)) :
      Lays src vars ok place ctx id (.kind .statement) s (own ++ [plainJump .break]) s₁
  | through {place : Place} {ctx : Context} {id next : NodeId} {s s₁ : Progress} {own : Block}
      (hsuccs : src.graph.succs id = [next])
      (hstays : some next ≠ ctx.top .loopEnd)
      (hfalls : some next = s.nextCase)
      (hspells : Spells src.writing vars (src.node id).ins own)
      (hcalm : Calm s s₁)
      (hstop : ok place (.falls next)) :
      Lays src vars ok place ctx id (.kind .statement) s own { s₁ with needBreak := false }
  | straight {place : Place} {ctx : Context} {id next : NodeId} {s s₁ s₂ : Progress}
      {own rest : Block}
      (hsuccs : src.graph.succs id = [next])
      (hstays : some next ≠ ctx.top .loopEnd)
      (hfalls : some next ≠ s.nextCase)
      (hspells : Spells src.writing vars (src.node id).ins own)
      (hcalm : Calm s s₁)
      (honward : Lays src vars ok place ctx next .node s₁ rest s₂) :
      Lays src vars ok place ctx id (.kind .statement) s (own ++ rest) s₂
  | pass {place : Place} {ctx : Context} {id : NodeId} {kind : NodeKind} {b : BranchTargets}
      {s s₁ s₂ : Progress} {rest : Block}
      (hplain : kind.isLoop = false)
      (hinner : kind.targets? = some b)
      (htargets : (src.node id).kind.targets? = some b)
      (hsingle : b.onTrue = b.onFalse)
      (hsame : SameVars vars s.vars)
      (hcalm : Calm s s₁)
      (honward : Lays src vars ok place ctx b.onTrue .node s₁ rest s₂) :
      Lays src vars ok place ctx id (.kind kind) s
        (.expression (src.test s.vars id false) :: rest) s₂
  | breaking {place : Place} {ctx : Context} {id : NodeId} {kind : NodeKind} {b : BranchTargets}
      {s s₁ s₂ : Progress} {other : Block} (negate : Bool)
      (hsplits : Splits src.graph id kind b)
      (hleaves : some (b.toward !negate) = ctx.top .loopEnd)
      (hsame : SameVars vars s.vars)
      (hcalm : Calm s s₁)
      (hstop : ok place (.exits (b.toward !negate)))
      (hotherwise : Lays src vars ok place ctx (b.toward negate) .node s₁ other s₂) :
      Lays src vars ok place ctx id (.kind kind) s
        [.ifThen (src.test s.vars id negate) [plainJump .break] (unlessEmpty other)] s₂
  | continuing {place : Place} {ctx : Context} {id : NodeId} {kind : NodeKind} {b : BranchTargets}
      {s s₁ s₂ : Progress} {rest : Block} (negate : Bool)
      (hsplits : Splits src.graph id kind b)
      (hstays : ∀ holds, some (b.toward holds) ≠ ctx.top .loopEnd)
      (hcontinues : ctx.continuesLoop (b.toward !negate) = true)
      (hsame : SameVars vars s.vars)
      (hcalm : Calm s s₁)
      (hstop : ok place (.continues (b.toward !negate)))
      (honward : Lays src vars ok place ctx (b.toward negate) .node s₁ rest s₂) :
      Lays src vars ok place ctx id (.kind kind) s
        (.ifThen (src.test s.vars id negate) [plainJump .continue] none :: rest) s₂
  /-- One of the targets is where they come together; only the first one is written. -/
  | half {place : Place} {ctx : Context} {id follow : NodeId} {kind : NodeKind} {b : BranchTargets}
      {s s₁ s₂ s₃ : Progress} {thenBlock rest : Block} (reversed : Bool)
      (hsplits : Splits src.graph id kind b)
      (hinside : StaysInside ctx b)
      (hifFollow : (src.node id).ifFollow = some follow)
      (horder : reversed = true ↔ b.onTrue = follow ∨ some b.onTrue = s.nextCase ∨
        (src.node b.onTrue).num < (src.node id).num)
      (hmeets : follow = b.onTrue ∨ follow = b.onFalse)
      (hsame : SameVars vars s.vars)
      (hcalm : Calm s s₁)
      (honTrue : Lays src vars ok (place.before (some follow)) (ctx.push .branchEnd (some follow))
        (b.toward !reversed) .node s₁ thenBlock s₂)
      (hstop : ok (place.before (some follow)) (.falls (b.toward reversed)))
      (honward : Lays src vars ok place ctx follow .node s₂ rest s₃) :
      Lays src vars ok place ctx id (.kind kind) s
        (.ifThen (src.test s.vars id reversed) thenBlock none :: rest) s₃
  | joined {place : Place} {ctx : Context} {id follow : NodeId} {kind : NodeKind}
      {b : BranchTargets} {s s₁ s₂ s₃ s₄ : Progress} {thenBlock elseBlock rest : Block}
      (reversed : Bool)
      (hsplits : Splits src.graph id kind b)
      (hinside : StaysInside ctx b)
      (hifFollow : (src.node id).ifFollow = some follow)
      (horder : reversed = true ↔ b.onTrue = follow ∨ some b.onTrue = s.nextCase ∨
        (src.node b.onTrue).num < (src.node id).num)
      (hapart : follow ≠ b.onTrue ∧ follow ≠ b.onFalse)
      (hsame : SameVars vars s.vars)
      (hcalm : Calm s s₁)
      (honTrue : Lays src vars ok (place.before (some follow)) (ctx.push .branchEnd (some follow))
        (b.toward !reversed) .node s₁ thenBlock s₂)
      (honFalse : Lays src vars ok (place.before (some follow)) (ctx.push .branchEnd (some follow))
        (b.toward reversed) .node s₂ elseBlock s₃)
      (honward : Lays src vars ok place ctx follow .node s₃ rest s₄) :
      Lays src vars ok place ctx id (.kind kind) s
        (.ifThen (src.test s.vars id reversed) thenBlock (unlessEmpty elseBlock) :: rest) s₄
  | opened {place : Place} {ctx : Context} {id : NodeId} {kind : NodeKind} {b : BranchTargets}
      {s s₁ s₂ s₃ : Progress} {thenBlock elseBlock : Block}
      (hsplits : Splits src.graph id kind b)
      (hinside : StaysInside ctx b)
      (hifFollow : (src.node id).ifFollow = none)
      (hsame : SameVars vars s.vars)
      (hcalm : Calm s s₁)
      (honTrue : Lays src vars ok place ctx b.onTrue .node s₁ thenBlock s₂)
      (honFalse : Lays src vars ok place ctx b.onFalse .node s₂ elseBlock s₃) :
      Lays src vars ok place ctx id (.kind kind) s
        [.ifThen (src.test s.vars id false) thenBlock (unlessEmpty elseBlock)] s₃
  | preTest {place : Place} {ctx : Context} {id : NodeId} {inner : NodeKind} {b : BranchTargets}
      {follow : Option NodeId} {s s₁ s₂ s₃ : Progress} {body rest : Block} (negate : Bool)
      (hkind : Inside (.loop inner .preTest) (src.node id).kind)
      (htargets : inner.targets? = some b)
      (hloopFollow : (src.node id).loopFollow = follow)
      (horder : negate = true ↔ some b.onTrue = follow)
      (hsame : SameVars vars s.vars)
      (hcalm : Calm s s₁)
      (hstop : ok (place.before follow) (.falls (b.toward negate)))
      (hinside : Lays src vars ok (place.inLoop id id follow id) (loopContext ctx follow id)
        (b.toward !negate) .node s₁ body s₂)
      (hnoRest : follow = none → rest = [] ∧ s₃ = s₂)
      (honward : ∀ next, follow = some next → Lays src vars ok place ctx next .node s₂ rest s₃) :
      Lays src vars ok place ctx id (.kind (.loop inner .preTest)) s
        (.whileLoop (src.test s.vars id negate) (dropFinalContinue body) :: rest) s₃
  | postTest {place : Place} {ctx : Context} {id latch : NodeId} {inner : NodeKind}
      {b : BranchTargets} {follow : Option NodeId} {s s₁ s₂ s₃ s₄ : Progress} {body rest : Block}
      (negate : Bool)
      (hkind : Inside (.loop inner .postTest) (src.node id).kind)
      (hends : (src.node id).latch = some latch)
      (htargets : (src.node latch).kind.targets? = some b)
      (hloopFollow : (src.node id).loopFollow = follow)
      (horder : negate = true ↔ b.onTrue ≠ id ∧ b.onFalse = id)
      (hcalm : Calm s s₁)
      (hinside : Lays src vars ok (place.inLoop id latch follow latch)
        (loopContext (ctx.push .latch (some latch)) follow latch) id (.kind inner) s₁ body s₂)
      (hsame : SameVars vars s₂.vars)
      (hcalm' : Calm { s₂ with visited := OrderedSet.insert s₂.visited latch } s₃)
      (hagain : ok (place.inLoop id latch follow id) (.falls (b.toward !negate)))
      (hstop : ok (place.before follow) (.falls (b.toward negate)))
      (hnoRest : follow = none → rest = [] ∧ s₄ = s₃)
      (honward : ∀ next, follow = some next → Lays src vars ok place ctx next .node s₃ rest s₄) :
      Lays src vars ok place ctx id (.kind (.loop inner .postTest)) s
        (.doLoop (src.test s₂.vars latch negate) (dropFinalContinue body) :: rest) s₄
  /-- A loop that should be tested behind, but ends with a node that tests nothing. -/
  | untested {place : Place} {ctx : Context} {id : NodeId} {inner : NodeKind}
      {follow : Option NodeId} {s s₁ s₂ s₃ s₄ : Progress} {body rest : Block}
      (hkind : Inside (.loop inner .postTest) (src.node id).kind)
      (hends : ∀ latch, (src.node id).latch = some latch →
        (src.node latch).kind.targets? = none)
      (hloopFollow : (src.node id).loopFollow = follow)
      (hcalm : Calm s s₁)
      (hinside : Lays src vars ok (place.inLoop id id follow id)
        (loopContext (ctx.push .latch (src.node id).latch) follow id) id (.kind inner) s₁ body s₂)
      (hcalm' : Calm s₂ s₃)
      (hnoRest : follow = none → rest = [] ∧ s₄ = s₃)
      (honward : ∀ next, follow = some next → Lays src vars ok place ctx next .node s₃ rest s₄) :
      Lays src vars ok place ctx id (.kind (.loop inner .postTest)) s
        (.doLoop (truthLiteral true) (dropFinalContinue body) :: rest) s₄
  | endless {place : Place} {ctx : Context} {id : NodeId} {inner : NodeKind} {type : LoopTest}
      {follow latch : Option NodeId} {s s₁ s₂ s₃ s₄ : Progress} {first last rest : Block}
      (hkind : Inside (.loop inner type) (src.node id).kind)
      (hfree : type = .endless ∨ type = .preTest ∧ inner.targets? = none)
      (hloopFollow : (src.node id).loopFollow = follow)
      (hunwritten : latch = (src.node id).latch.filter fun l => !s₁.visited.contains l)
      (hleading : Lays src vars ok (place.inLoop id id follow (latch.getD id))
        (loopContext ctx follow id) id (.kind inner) s first s₁)
      (hnoLast : latch = none → last = [] ∧ s₂ = s₁)
      (htrailing : ∀ l, latch = some l → Lays src vars ok (place.inLoop id id follow id)
        (loopContext ctx follow id) l .node s₁ last s₂)
      (hcalm : Calm s₂ s₃)
      (hnoRest : follow = none → rest = [] ∧ s₄ = s₃)
      (honward : ∀ next, follow = some next → Lays src vars ok place ctx next .node s₃ rest s₄) :
      Lays src vars ok place ctx id (.kind (.loop inner type)) s
        (.whileLoop (truthLiteral true) (dropFinalContinue (first ++ last)) :: rest) s₄
  | blank {place : Place} {ctx : Context} {id : NodeId} {cases : SwitchTable} {s : Progress}
      (hcode : (src.node id).ins = []) :
      Lays src vars ok place ctx id (.kind (.switch cases)) s [] s
  | switch {place : Place} {ctx : Context} {id : NodeId} {cases : SwitchTable} {ins : Instr}
      {ahead : List Instr} {follow left : Option NodeId} {turns more : List Turn}
      {s s₁ s₂ s₃ s₄ : Progress} {before rest : Block} {selector : Expression}
      (hkind : Inside (.switch cases) (src.node id).kind)
      (hcode : (src.node id).ins = ahead ++ [ins])
      (hswitchFollow : (src.node id).switchFollow = follow)
      (hspells : Spells src.writing vars ahead before)
      (hcalm : Calm s s₁)
      (htaken : Turns cases cases.cases cases.fallback s₁ turns left s₂)
      (hlastTaken : LastTurn follow left s₂ more s₃)
      (hstop : ok place (.selects ctx id cases s₁ turns more s₃))
      (hbodies : ∀ ahead turn later, turns ++ more = ahead ++ turn :: later →
        Lays src vars ok
          (place.inSwitch id follow
            ((if turn.closed then none else (later.head?.map Turn.target)).or
              (follow.or place.next)))
          (ctx.push .switchEnd follow) turn.target .node turn.begin turn.body turn.finish)
      (hcloses : ∀ turn ∈ turns ++ more, turn.closed = true →
        ok (place.inSwitch id follow none) (.closes id))
      (hnoRest : follow = none → rest = [] ∧ s₄ = s₃)
      (honward : ∀ next, follow = some next → Lays src vars ok place ctx next .node s₃ rest s₄) :
      Lays src vars ok place ctx id (.kind (.switch cases)) s
        (before ++ .switch selector ((turns ++ more).map Turn.arm) :: rest) s₄
  | region {place : Place} {ctx : Context} {id start : NodeId} {handlers : List NodeId}
      {follow : Option NodeId} {s s₁ s₂ s₃ : Progress} {body rest : Block} {catches : List Catch}
      (hinside : Lays src vars ok (place.before follow) (ctx.push .regionEnd follow) start .node s
        body s₁)
      (handles : Handles src handlers s₁ catches s₂)
      (hclauses : ∀ c ∈ catches, Lays src vars ok (place.before follow)
        (ctx.push .regionEnd follow) c.start .node c.begin c.body c.finish)
      (hnoRest : follow = none → rest = [] ∧ s₃ = s₂)
      (honward : ∀ next, follow = some next → Lays src vars ok place ctx next .node s₂ rest s₃) :
      Lays src vars ok place ctx id (.kind (.tryBlock start handlers follow)) s
        (.tryCatch body (catches.map Catch.clause) :: rest) s₃
  | handler {place : Place} {ctx : Context} {id start : NodeId} {binding : Option VarId}
      {type : Option String} {s s₁ : Progress} {block : Block}
      (hcode : Lays src vars ok place ctx start .node s block s₁) :
      Lays src vars ok place ctx id (.kind (.catchBlock start binding type)) s block s₁

/-- No node that leaves the method is the head of a loop. -/
def ExitsEnd (g : FlowGraph) : Prop :=
  ∀ id, (g.node id).kind.isExit = true → (g.node id).kind.isLoop = false

/-- A walk gives up only where it could go on for ever. -/
def Whole (g : FlowGraph) : Place → Stop → Prop
  | _, .cut _ => ¬ ExitsEnd g
  | _, _ => True

/-- How the state changes while code is written. -/
structure Advances (s s' : Progress) : Prop where
  vars : SameVars s.vars s'.vars
  visited : s.visited ⊆ s'.visited
  gotoTargets : s.gotoTargets ⊆ s'.gotoTargets

section States

variable {s s' s'' : Progress}

theorem Quiet.calm
    (h : Quiet s s') :
    Calm s s' :=
  { h.toSameCourse with vars := h.vars }

theorem Calm.trans
    (h : Calm s s')
    (h' : Calm s' s'') :
    Calm s s'' :=
  { h.toSameCourse.trans h'.toSameCourse with vars := h'.vars.trans h.vars }

theorem Calm.visit
    (h : Calm s s')
    (id : NodeId) :
    Calm { s with visited := OrderedSet.insert s.visited id }
      { s' with visited := OrderedSet.insert s'.visited id } :=
  ⟨⟨congrArg (OrderedSet.insert · id) h.visited, h.gotoTargets, h.nextCase, h.needBreak⟩, h.vars⟩

theorem Calm.advances
    (h : Calm s s') :
    Advances s s' where
  vars := h.vars
  visited := h.visited ▸ List.Subset.refl _
  gotoTargets := h.gotoTargets ▸ List.Subset.refl _

theorem Advances.refl
    (s : Progress) :
    Advances s s :=
  ⟨rfl, List.Subset.refl _, List.Subset.refl _⟩

theorem Advances.trans
    (h : Advances s s')
    (h' : Advances s' s'') :
    Advances s s'' where
  vars := h'.vars.trans h.vars
  visited := List.Subset.trans h.visited h'.visited
  gotoTargets := List.Subset.trans h.gotoTargets h'.gotoTargets

theorem Advances.visit
    (s : Progress)
    (id : NodeId) :
    Advances s { s with visited := OrderedSet.insert s.visited id } where
  vars := rfl
  visited _ h := OrderedSet.mem_insert.2 (.inl h)
  gotoTargets := List.Subset.refl _

end States

section Advancing

variable {src : Source} {vars : Variables} {cases : SwitchTable}
variable {s s' : Progress} {turns : List Turn}

theorem Advances.start
    (s : Progress)
    (next : Option NodeId) :
    Advances s { s with nextCase := next } :=
  ⟨rfl, List.Subset.refl _, List.Subset.refl _⟩

theorem Advances.finish
    (h : Advances s s')
    (flag : Bool) :
    Advances s { s' with needBreak := flag } :=
  ⟨h.vars, h.visited, h.gotoTargets⟩

theorem Turns.advances
    {targets : List NodeId}
    {fallback left : Option NodeId}
    (h : Turns cases targets fallback s turns left s')
    (hbodies : ∀ turn ∈ turns, Advances turn.begin turn.finish) :
    Advances s s' := by
  induction h with
  | nil => exact .refl _
  | skip _ _ ih => exact ih hbodies
  | @write target rest _ _ s finish _ body _ _ _ ih =>
      have hfirst := hbodies _ List.mem_cons_self
      exact (((Advances.start s rest.head?).trans hfirst).finish true).trans
        (ih fun turn hturn => hbodies turn (List.mem_cons_of_mem _ hturn))

theorem LastTurn.advances
    {follow left : Option NodeId}
    (h : LastTurn follow left s turns s')
    (hbodies : ∀ turn ∈ turns, Advances turn.begin turn.finish) :
    Advances s s' := by
  cases h with
  | skip => exact .start s none
  | write => exact (Advances.start s none).trans (hbodies _ List.mem_cons_self)

/-- Each arm is written behind the state in which the switch begins. -/
theorem Turns.begins
    {targets : List NodeId}
    {fallback left : Option NodeId}
    (h : Turns cases targets fallback s turns left s')
    (hbodies : ∀ turn ∈ turns, Advances turn.begin turn.finish) :
    ∀ turn ∈ turns, Advances s turn.begin := by
  induction h with
  | nil => exact fun _ h => absurd h List.not_mem_nil
  | skip _ _ ih => exact ih hbodies
  | @write _ rest _ _ s _ _ _ _ _ _ ih =>
      have harm := ((Advances.start s rest.head?).trans (hbodies _ List.mem_cons_self)).finish true
      intro turn hturn
      rcases List.mem_cons.1 hturn with rfl | hturn
      · exact .start s rest.head?
      · exact harm.trans (ih (fun t ht => hbodies t (List.mem_cons_of_mem _ ht)) turn hturn)

/-- Each arm is written in front of the state in which the switch ends. -/
theorem Turns.finishes
    {targets : List NodeId}
    {fallback left : Option NodeId}
    (h : Turns cases targets fallback s turns left s')
    (hbodies : ∀ turn ∈ turns, Advances turn.begin turn.finish) :
    ∀ turn ∈ turns, Advances turn.finish s' := by
  induction h with
  | nil => exact fun _ h => absurd h List.not_mem_nil
  | skip _ _ ih => exact ih hbodies
  | @write _ _ _ _ _ finish _ _ _ _ hrest ih =>
      have hlater := fun t ht => hbodies t (List.mem_cons_of_mem _ ht)
      intro turn hturn
      rcases List.mem_cons.1 hturn with rfl | hturn
      · exact ((Advances.refl finish).finish true).trans (hrest.advances hlater)
      · exact ih hlater turn hturn

theorem LastTurn.begins
    {follow left : Option NodeId}
    (h : LastTurn follow left s turns s') :
    ∀ turn ∈ turns, Advances s turn.begin := by
  cases h with
  | skip => exact fun _ h => absurd h List.not_mem_nil
  | write => exact fun turn hturn => List.mem_singleton.1 hturn ▸ .start s none

theorem LastTurn.finishes
    {follow left : Option NodeId}
    (h : LastTurn follow left s turns s') :
    ∀ turn ∈ turns, Advances turn.finish s' := by
  cases h with
  | skip => exact fun _ h => absurd h List.not_mem_nil
  | write => exact fun turn hturn => List.mem_singleton.1 hturn ▸ .refl _

theorem Handles.advances
    {handlers : List NodeId}
    {catches : List Catch}
    (h : Handles src handlers s catches s')
    (hbodies : ∀ c ∈ catches, Advances c.begin c.finish) :
    Advances s s' := by
  induction h with
  | nil => exact .refl _
  | skip _ ih => exact (Advances.visit _ _).trans (ih hbodies)
  | write _ hcalm _ ih =>
      exact (((Advances.visit _ _).trans hcalm.advances).trans (hbodies _ List.mem_cons_self)).trans
        (ih fun c hc => hbodies c (List.mem_cons_of_mem _ hc))

theorem Handles.finishes
    {handlers : List NodeId}
    {catches : List Catch}
    (h : Handles src handlers s catches s')
    (hbodies : ∀ c ∈ catches, Advances c.begin c.finish) :
    ∀ c ∈ catches, Advances c.finish s' := by
  induction h with
  | nil => exact fun _ h => absurd h List.not_mem_nil
  | skip _ ih => exact ih hbodies
  | write _ _ hrest ih =>
      have hlater := fun c hc => hbodies c (List.mem_cons_of_mem _ hc)
      intro c hc
      rcases List.mem_cons.1 hc with rfl | hc
      · exact hrest.advances hlater
      · exact ih hlater c hc

/-- Laying out code only adds to the state. -/
theorem Lays.advances
    {ok : Place → Stop → Prop}
    {place : Place}
    {ctx : Context}
    {id : NodeId}
    {part : Part}
    {block : Block}
    (h : Lays src vars ok place ctx id part s block s') :
    Advances s s' := by
  have hnext {follow : Option NodeId} {s s' : Progress} (hnone : follow = none → s' = s)
      (hsome : ∀ next, follow = some next → Advances s s') : Advances s s' := by
    cases follow with
    | none => exact hnone rfl ▸ .refl s
    | some next => exact hsome next rfl
  have heach {turns : List Turn} (hbodies : ∀ ahead turn later, turns = ahead ++ turn :: later →
      Advances turn.begin turn.finish) (turn : Turn) (hmem : turn ∈ turns) :
      Advances turn.begin turn.finish := by
    obtain ⟨ahead, later, hsplit⟩ := List.append_of_mem hmem
    exact hbodies ahead turn later hsplit
  induction h with
  | cut | again | behind | blank => exact .refl _
  | @jump _ _ id s s₁ _ _ _ _ hcalm _ =>
      exact
        { hcalm.advances with
          gotoTargets := fun n hn => OrderedSet.mem_insert.2 (.inl (hcalm.gotoTargets ▸ hn)) }
  | node _ _ _ hcalm _ _ ih => exact ((Advances.visit _ _).trans hcalm.advances).trans ih
  | leave _ _ hcalm => exact hcalm.advances
  | stuck _ _ hcalm => exact hcalm.advances
  | exit _ _ _ hcalm => exact hcalm.advances
  | through _ _ _ _ hcalm => exact hcalm.advances.finish false
  | straight _ _ _ _ hcalm _ ih => exact hcalm.advances.trans ih
  | pass _ _ _ _ _ hcalm _ ih => exact hcalm.advances.trans ih
  | breaking _ _ _ _ hcalm _ _ ih => exact hcalm.advances.trans ih
  | continuing _ _ _ _ _ hcalm _ _ ih => exact hcalm.advances.trans ih
  | half _ _ _ _ _ _ _ hcalm _ _ _ honTrue honward =>
      exact (hcalm.advances.trans honTrue).trans honward
  | joined _ _ _ _ _ _ _ hcalm _ _ _ honTrue honFalse honward =>
      exact ((hcalm.advances.trans honTrue).trans honFalse).trans honward
  | opened _ _ _ _ hcalm _ _ honTrue honFalse => exact (hcalm.advances.trans honTrue).trans honFalse
  | preTest _ _ _ _ _ _ hcalm _ _ hnoRest _ hinside honward =>
      exact (hcalm.advances.trans hinside).trans (hnext (fun h => (hnoRest h).2) honward)
  | postTest _ _ _ _ _ _ hcalm _ _ hcalm' _ _ hnoRest _ hinside honward =>
      exact (((hcalm.advances.trans hinside).trans (.visit _ _)).trans hcalm'.advances).trans
        (hnext (fun h => (hnoRest h).2) honward)
  | untested _ _ _ hcalm _ hcalm' hnoRest _ hinside honward =>
      exact ((hcalm.advances.trans hinside).trans hcalm'.advances).trans
        (hnext (fun h => (hnoRest h).2) honward)
  | endless _ _ _ _ _ hnoLast _ hcalm hnoRest _ hleading htrailing honward =>
      exact ((hleading.trans (hnext (fun h => (hnoLast h).2) htrailing)).trans hcalm.advances).trans
        (hnext (fun h => (hnoRest h).2) honward)
  | switch _ _ _ _ hcalm htaken hlastTaken _ _ _ hnoRest _ hbodies honward =>
      have harms := htaken.advances fun turn hturn =>
        heach hbodies turn (List.mem_append_left _ hturn)
      have hlastArm :=
        hlastTaken.advances fun turn hturn => heach hbodies turn (List.mem_append_right _ hturn)
      exact ((hcalm.advances.trans harms).trans hlastArm).trans
        (hnext (fun h => (hnoRest h).2) honward)
  | region _ handles _ hnoRest _ hbody hclauses honward =>
      exact (hbody.trans (handles.advances hclauses)).trans (hnext (fun h => (hnoRest h).2) honward)
  | handler _ ih => exact ih

/-- No arm is being written. -/
structure Idle (s : Progress) : Prop where
  nextCase : s.nextCase = none
  needBreak : s.needBreak = true

theorem Calm.idle
    (h : Calm s s')
    (hidle : Idle s) :
    Idle s' :=
  ⟨h.nextCase.trans hidle.nextCase, h.needBreak.trans hidle.needBreak⟩

/-- Each arm is written as one that needs a break. -/
theorem Turns.needBreak
    {targets : List NodeId}
    {fallback left : Option NodeId}
    (h : Turns cases targets fallback s turns left s')
    (hneed : s.needBreak = true) :
    s'.needBreak = true ∧ ∀ turn ∈ turns, turn.begin.needBreak = true := by
  induction h with
  | nil => exact ⟨hneed, fun _ h => absurd h List.not_mem_nil⟩
  | skip _ _ ih => exact ih hneed
  | write _ _ ih =>
      obtain ⟨hends, hlater⟩ := ih rfl
      refine ⟨hends, fun turn hturn => ?_⟩
      rcases List.mem_cons.1 hturn with rfl | hturn
      · exact hneed
      · exact hlater turn hturn

theorem LastTurn.idle
    {follow left : Option NodeId}
    (h : LastTurn follow left s turns s')
    (hbodies : ∀ turn ∈ turns, Idle turn.begin → Idle turn.finish)
    (hneed : s.needBreak = true) :
    Idle s' ∧ ∀ turn ∈ turns, turn.begin.needBreak = true := by
  cases h with
  | skip => exact ⟨⟨rfl, hneed⟩, fun _ h => absurd h List.not_mem_nil⟩
  | write =>
      exact ⟨hbodies _ List.mem_cons_self ⟨rfl, hneed⟩,
        fun turn hturn => List.mem_singleton.1 hturn ▸ hneed⟩

theorem Handles.idle
    {handlers : List NodeId}
    {catches : List Catch}
    (h : Handles src handlers s catches s')
    (hbodies : ∀ c ∈ catches, Idle c.begin → Idle c.finish)
    (hidle : Idle s) :
    Idle s' := by
  induction h with
  | nil => exact hidle
  | skip _ ih => exact ih hbodies ⟨hidle.nextCase, hidle.needBreak⟩
  | write _ hcalm _ ih =>
      have hbegins := hcalm.idle ⟨hidle.nextCase, hidle.needBreak⟩
      exact ih (fun c hc => hbodies c (List.mem_cons_of_mem _ hc))
        (hbodies _ List.mem_cons_self hbegins)

/-- Behind a switch no arm is being written any more. -/
theorem Lays.idle
    {ok : Place → Stop → Prop}
    {place : Place}
    {ctx : Context}
    {id : NodeId}
    {part : Part}
    {block : Block}
    (h : Lays src vars ok place ctx id part s block s')
    (hidle : Idle s) :
    Idle s' := by
  have hvisit {s : Progress} (id : NodeId) (hidle' : Idle s) :
      Idle { s with visited := OrderedSet.insert s.visited id } :=
    ⟨hidle'.nextCase, hidle'.needBreak⟩
  have hnext {follow : Option NodeId} {s s' : Progress} (hnone : follow = none → s' = s)
      (hsome : ∀ next, follow = some next → Idle s → Idle s') (hidle' : Idle s) : Idle s' := by
    cases follow with
    | none => exact hnone rfl ▸ hidle'
    | some next => exact hsome next rfl hidle'
  induction h with
  | cut | again | behind | blank => exact hidle
  | jump _ _ _ _ hcalm _ =>
      obtain ⟨hnextCase, hneedBreak⟩ := hcalm.idle hidle
      exact ⟨hnextCase, hneedBreak⟩
  | node _ _ _ hcalm _ _ ih => exact ih (hcalm.idle (hvisit _ hidle))
  | leave _ _ hcalm => exact hcalm.idle hidle
  | stuck _ _ hcalm => exact hcalm.idle hidle
  | exit _ _ _ hcalm => exact hcalm.idle hidle
  | through _ _ hinto => rw [hidle.nextCase] at hinto; cases hinto
  | straight _ _ _ _ hcalm _ ih => exact ih (hcalm.idle hidle)
  | pass _ _ _ _ _ hcalm _ ih => exact ih (hcalm.idle hidle)
  | breaking _ _ _ _ hcalm _ _ ih => exact ih (hcalm.idle hidle)
  | continuing _ _ _ _ _ hcalm _ _ ih => exact ih (hcalm.idle hidle)
  | half _ _ _ _ _ _ _ hcalm _ _ _ honTrue honward => exact honward (honTrue (hcalm.idle hidle))
  | joined _ _ _ _ _ _ _ hcalm _ _ _ honTrue honFalse honward =>
      exact honward (honFalse (honTrue (hcalm.idle hidle)))
  | opened _ _ _ _ hcalm _ _ honTrue honFalse => exact honFalse (honTrue (hcalm.idle hidle))
  | preTest _ _ _ _ _ _ hcalm _ _ hnoRest _ hinside honward =>
      exact hnext (fun h => (hnoRest h).2) honward (hinside (hcalm.idle hidle))
  | postTest _ _ _ _ _ _ hcalm _ _ hcalm' _ _ hnoRest _ hinside honward =>
      exact hnext (fun h => (hnoRest h).2) honward
        (hcalm'.idle (hvisit _ (hinside (hcalm.idle hidle))))
  | untested _ _ _ hcalm _ hcalm' hnoRest _ hinside honward =>
      exact hnext (fun h => (hnoRest h).2) honward (hcalm'.idle (hinside (hcalm.idle hidle)))
  | endless _ _ _ _ _ hnoLast _ hcalm hnoRest _ hleading htrailing honward =>
      have hbody := hnext (fun h => (hnoLast h).2) htrailing (hleading hidle)
      exact hnext (fun h => (hnoRest h).2) honward (hcalm.idle hbody)
  | switch _ _ _ _ hcalm htaken hlastTaken _ _ _ hnoRest _ hbodies honward =>
      have harms := (htaken.needBreak (hcalm.idle hidle).needBreak).1
      have hlastArm := hlastTaken.idle (fun turn hturn => by
        obtain ⟨ahead, later, hsplit⟩ := List.append_of_mem (List.mem_append_right _ hturn)
        exact hbodies ahead turn later hsplit) harms
      exact hnext (fun h => (hnoRest h).2) honward hlastArm.1
  | region _ handles _ hnoRest _ hbody hclauses honward =>
      exact hnext (fun h => (hnoRest h).2) honward (handles.idle hclauses (hbody hidle))
  | handler _ ih => exact ih hidle

/-- How the state changes while code is written: outside of arms no arm is left open. -/
structure Rests (s s' : Progress) : Prop extends Advances s s' where
  idle : Idle s → Idle s'

theorem Rests.refl
    (s : Progress) :
    Rests s s :=
  ⟨.refl s, id⟩

theorem Rests.trans
    {s'' : Progress}
    (h : Rests s s')
    (h' : Rests s' s'') :
    Rests s s'' :=
  ⟨h.toAdvances.trans h'.toAdvances, fun hidle => h'.idle (h.idle hidle)⟩

theorem Rests.visit
    (s : Progress)
    (id : NodeId) :
    Rests s { s with visited := OrderedSet.insert s.visited id } :=
  ⟨.visit s id, fun hidle => ⟨hidle.nextCase, hidle.needBreak⟩⟩

theorem Calm.rests
    (h : Calm s s') :
    Rests s s' :=
  ⟨h.advances, h.idle⟩

theorem Handles.rests
    {handlers : List NodeId}
    {catches : List Catch}
    (h : Handles src handlers s catches s')
    (hbodies : ∀ c ∈ catches, Rests c.begin c.finish) :
    Rests s s' :=
  ⟨h.advances fun c hc => (hbodies c hc).toAdvances, h.idle fun c hc => (hbodies c hc).idle⟩

/-- Each handler is written behind the state in which the handlers begin. -/
theorem Handles.begins
    {handlers : List NodeId}
    {catches : List Catch}
    (h : Handles src handlers s catches s')
    (hbodies : ∀ c ∈ catches, Rests c.begin c.finish) :
    ∀ c ∈ catches, Rests s c.begin := by
  induction h with
  | nil => exact fun _ h => absurd h List.not_mem_nil
  | skip _ ih => exact fun c hc => (Rests.visit _ _).trans (ih hbodies c hc)
  | write _ hcalm _ ih =>
      have hfirst := (Rests.visit _ _).trans hcalm.rests
      intro c hc
      rcases List.mem_cons.1 hc with rfl | hc
      · exact hfirst
      · exact (hfirst.trans (hbodies _ List.mem_cons_self)).trans
          (ih (fun c hc => hbodies c (List.mem_cons_of_mem _ hc)) c hc)

section Resting

variable {ok : Place → Stop → Prop} {place : Place} {ctx : Context} {id : NodeId} {part : Part}
variable {block : Block}

theorem Lays.rests
    (h : Lays src vars ok place ctx id part s block s') :
    Rests s s' :=
  ⟨h.advances, h.idle⟩

/-- What is written behind a statement, if anything is. -/
theorem rests_rest
    {follow : Option NodeId}
    (hnone : follow = none → block = [] ∧ s' = s)
    (hsome : ∀ next, follow = some next → Lays src vars ok place ctx next .node s block s') :
    Rests s s' := by
  cases follow with
  | none => exact (hnone rfl).2 ▸ .refl s
  | some next => exact (hsome next rfl).rests

end Resting

end Advancing

end Emission
end DalvikDecompiler
