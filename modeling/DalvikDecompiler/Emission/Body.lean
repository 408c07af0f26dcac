import DalvikDecompiler.Emission.Context
import DalvikDecompiler.Emission.Mention
import DalvikDecompiler.FlowGraph.Basic
import DalvikDecompiler.Java.Naming

/-!
# The body of a method

**Input.** A structured flow graph.

**Algorithm.** The graph is walked from its entry.  Statements around a node
decide what going to it means: the end of a statement needs no code, the start
of a loop is a continue, and what follows a loop is a break.  A node that has
been written already is reached by a goto, except for exits, which are written
again.  A walk enters each other node once, which bounds its depth, unless it
has no bottom at all: an exit may be the head of a loop that it also follows.

**Results.** `walk` gives the statements of a node and of what is reached
from it within the statements around it.
-/

namespace DalvikDecompiler
namespace Emission

open Symbolic (VarId Variables Instr)
open Java (Block Statement SwitchArm CatchClause Expression VarDecl)

/-- What is written, and how. -/
structure Source where
  writing : Writing
  graph : FlowGraph
  /-- The nodes that a goto leads to. -/
  labels : List NodeId

/-- How far writing has come. -/
structure Progress where
  /-- The variables, with what has been declared. -/
  vars : Variables
  visited : List NodeId
  /-- The nodes that were met again. -/
  gotoTargets : List NodeId
  /-- The arm behind the one being written. -/
  nextCase : Option NodeId
  /-- Whether the arm being written has to be left with a break. -/
  needBreak : Bool
  /-- The types that have been named. -/
  naming : Java.Naming
  /-- Whether the walk led to a slot that does not exist. -/
  dangling : Bool

/-- Nothing has been written. -/
def Progress.start (vars : Variables) (naming : Java.Naming) : Progress :=
  { vars
    visited := []
    gotoTargets := []
    nextCase := none
    needBreak := true
    naming
    dangling := false }

/-- Computations that write code. -/
abbrev EmitM := StateM Progress

/-- How to write a node and what is reached from it. -/
abbrev Walk := Context → NodeId → EmitM Block

namespace Source

variable (src : Source)

/-- The node with a number. -/
def node (id : NodeId) : Node :=
  src.graph.node id

/-- The label of a node. -/
def labelOf (id : NodeId) : String :=
  "L" ++ toString (src.node id).num

/-- Mark a node as written. -/
def markVisited (id : NodeId) : EmitM Unit :=
  modify fun s => { s with visited := OrderedSet.insert s.visited id }

/-- Name some types. -/
def mention (types : List String) : EmitM Unit :=
  modify fun s => { s with naming := s.naming.learnAll types }

/-- Record that a slot that does not exist was needed. -/
def requireSlot (id : NodeId) : EmitM Unit :=
  modify fun s => { s with dangling := s.dangling || !src.graph.hasSlot id }

/-- The statement of an instruction, if it needs one. -/
def instruction (ins : Instr) : EmitM Block := do
  let s ← get
  let (written, vars) := statement src.writing s.vars ins
  mention (statementMentions src.writing s.vars ins)
  modify fun s => { s with vars }
  return written.toList

/-- The statements of instructions. -/
def instructions : List Instr → EmitM Block
  | [] => pure []
  | ins :: rest => do
      let first ← src.instruction ins
      let more ← instructions rest
      return first ++ more

/-- The declaration of a variable in front of a node, unless it is declared already. -/
def declareVar (v : VarId) : EmitM Block := do
  let vars := (← get).vars
  if vars.isParam v then
    return []
  mention [declarationMention vars v]
  if vars.isUndeclared v then
    modify fun s => { s with vars := vars.markDeclared v }
    return [.declaration (declaration vars v) none]
  return []

/-- The declarations of variables in front of a node. -/
def declareVars : List VarId → EmitM Block
  | [] => pure []
  | v :: rest => do
      let first ← declareVar v
      let more ← declareVars rest
      return first ++ more

/-- The condition of a node, or its negation.  The conditions that a short circuit joins are older
nodes, so that the number of slots bounds the depth. -/
def conditionWithin (vars : Variables) : Nat → NodeId → Bool → Expression
  | 0, _, _ => .note "empty condition"
  | depth + 1, id, negate =>
      match (src.node id).kind.base with
      | .shortCircuit sc =>
          .binary (if sc.isAnd != negate then "&&" else "||")
            (conditionWithin vars depth sc.first (sc.isNot != negate)).asOperand
            (conditionWithin vars depth sc.second negate).asOperand
      | _ =>
          match (src.node id).ins.getLast? with
          | some ins => condition vars src.writing.method.owner ins negate
          | none => .note "empty condition"

/-- The types that the condition of a node names. -/
def conditionMentionsWithin (vars : Variables) : Nat → NodeId → Bool → List String
  | 0, _, _ => []
  | depth + 1, id, negate =>
      match (src.node id).kind.base with
      | .shortCircuit sc =>
          conditionMentionsWithin vars depth sc.first (sc.isNot != negate) ++
            conditionMentionsWithin vars depth sc.second negate
      | _ =>
          match (src.node id).ins.getLast? with
          | some ins => conditionMentions vars ins negate
          | none => []

/-- The condition of a node, or its negation. -/
def conditionOf (id : NodeId) (negate : Bool) : EmitM Expression := do
  let vars := (← get).vars
  mention (src.conditionMentionsWithin vars (src.graph.size + 1) id negate)
  return src.conditionWithin vars (src.graph.size + 1) id negate

end Source

/-- A jump without a label. -/
def plainJump (keyword : Java.JumpKind) : Statement :=
  .jump keyword none

/-- A block, unless it is empty. -/
def unlessEmpty (b : Block) : Option Block :=
  if b.isEmpty then none else some b

mutual

/-- Drop a continue at the end of a loop body, also at the end of the branches of a final if. -/
def dropFinalContinue : List Statement → List Statement
  | [] => []
  | [s] => dropContinue s
  | s :: rest => s :: dropFinalContinue rest

/-- The last statement of a loop body without a continue at its end. -/
def dropContinue : Statement → List Statement
  | .jump .continue _ => []
  | .ifThen condition thenBlock elseBlock =>
      [.ifThen condition (dropFinalContinue thenBlock)
        (dropElseContinue elseBlock)]
  | s => [s]

/-- An else branch without a continue at its end, if something is left. -/
def dropElseContinue : Option (List Statement) → Option (List Statement)
  | none => none
  | some b => unlessEmpty (dropFinalContinue b)

end

namespace Source

variable (src : Source) (visit : Walk)

/-- What follows a statement, if anything does. -/
def writeNext (ctx : Context) : Option NodeId → EmitM Block
  | none => pure []
  | some id => visit ctx id

/-- A loop that is tested in front. -/
def preTestLoop (ctx : Context) (id : NodeId) (b : BranchTargets) : EmitM Statement := do
  let follow := (src.node id).loopFollow
  let negate := some b.onTrue == follow
  let condition ← src.conditionOf id negate
  let inner := (ctx.push .loopEnd follow).push .loopStart (some id)
  let body ← visit inner (if negate then b.onFalse else b.onTrue)
  return .whileLoop condition (dropFinalContinue body)

/-- The condition at the end of a loop that is tested behind. -/
def latchCondition (id : NodeId) (latch : Option NodeId) : EmitM Expression := do
  match latch.filter fun l => (src.node l).kind.isCond with
  | some latch =>
      markVisited latch
      let negate := (src.node latch).kind.targets?.any fun b =>
        b.onTrue != id && b.onFalse == id
      src.conditionOf latch negate
  | none =>
      mention ["Z"]
      return truthLiteral true

/-- A loop that is tested behind, whose first node is written by `head`. -/
def postTestLoop (head : Context → EmitM Block) (ctx : Context) (id : NodeId) :
    EmitM Statement := do
  let latch := (src.node id).latch
  latch.forM src.requireSlot
  let target := (latch.filter fun l => (src.node l).kind.isCond).getD id
  let inner := ((ctx.push .latch latch).push .loopEnd (src.node id).loopFollow).push .loopStart
    (some target)
  let body ← head inner
  let condition ← src.latchCondition id latch
  return .doLoop condition (dropFinalContinue body)

/-- A loop without a test, whose first node is written by `head`. -/
def endlessLoop (head : Context → EmitM Block) (ctx : Context) (id : NodeId) :
    EmitM Statement := do
  let inner := (ctx.push .loopEnd (src.node id).loopFollow).push .loopStart (some id)
  let first ← head inner
  let visited := (← get).visited
  let last ← writeNext visit inner ((src.node id).latch.filter fun l => !visited.contains l)
  mention ["Z"]
  return .whileLoop (truthLiteral true) (dropFinalContinue (first ++ last))

/-- A loop and what follows it. -/
def writeLoop (head : Context → EmitM Block) (ctx : Context) (id : NodeId) (inner : NodeKind)
    (type : LoopTest) : EmitM Block := do
  let loop ←
    match type, inner.targets? with
    | .preTest, some b => src.preTestLoop visit ctx id b
    | .postTest, _ => src.postTestLoop head ctx id
    | _, _ => src.endlessLoop visit head ctx id
  let rest ← writeNext visit ctx (src.node id).loopFollow
  return loop :: rest

/-- A branch one of whose targets leaves the loop. -/
def breakingBranch (ctx : Context) (id : NodeId) (negate : Bool) (other : NodeId) :
    EmitM Block := do
  let condition ← src.conditionOf id negate
  let elseBlock ← visit ctx other
  return [.ifThen condition [plainJump .break] (unlessEmpty elseBlock)]

/-- A branch one of whose targets continues the loop. -/
def continuingBranch (ctx : Context) (id : NodeId) (negate : Bool) (other : NodeId) :
    EmitM Block := do
  let condition ← src.conditionOf id negate
  let rest ← visit ctx other
  return .ifThen condition [plainJump .continue] none :: rest

/-- Whether the targets of a branch that come together at a node are written in reverse order. -/
def isReversed (id follow : NodeId) (b : BranchTargets) : EmitM Bool := do
  if b.onTrue = follow ∨ some b.onTrue = (← get).nextCase then
    return true
  src.requireSlot b.onTrue
  return (src.node b.onTrue).num < (src.node id).num

/-- A branch whose targets come together at a node. -/
def joinedBranch (ctx : Context) (id follow : NodeId) (b : BranchTargets) : EmitM Block := do
  let reversed ← src.isReversed id follow b
  let (onTrue, onFalse) := if reversed then (b.onFalse, b.onTrue) else (b.onTrue, b.onFalse)
  let inner := ctx.push .branchEnd (some follow)
  let condition ← src.conditionOf id reversed
  let thenBlock ← visit inner onTrue
  let elseBlock ←
    if follow = onTrue ∨ follow = onFalse then pure [] else visit inner onFalse
  let rest ← visit ctx follow
  return .ifThen condition thenBlock (unlessEmpty elseBlock) :: rest

/-- A branch whose targets do not come together. -/
def openBranch (ctx : Context) (id : NodeId) (b : BranchTargets) : EmitM Block := do
  let condition ← src.conditionOf id false
  let thenBlock ← visit ctx b.onTrue
  let elseBlock ← visit ctx b.onFalse
  return [.ifThen condition thenBlock (unlessEmpty elseBlock)]

/-- A branch and what follows it. -/
def writeBranch (ctx : Context) (id : NodeId) (b : BranchTargets) : EmitM Block := do
  let loopEnd := ctx.top .loopEnd
  if b.onTrue = b.onFalse then
    let condition ← src.conditionOf id false
    let rest ← visit ctx b.onTrue
    return .expression condition :: rest
  else if some b.onFalse = loopEnd then
    src.breakingBranch visit ctx id true b.onTrue
  else if some b.onTrue = loopEnd then
    src.breakingBranch visit ctx id false b.onFalse
  else if ctx.continuesLoop b.onTrue then
    src.continuingBranch visit ctx id false b.onFalse
  else if ctx.continuesLoop b.onFalse then
    src.continuingBranch visit ctx id true b.onTrue
  else
    match (src.node id).ifFollow with
    | some follow => src.joinedBranch visit ctx id follow b
    | none => src.openBranch visit ctx id b

/-- A two-way node and what follows it. -/
def writeCond (ctx : Context) (id : NodeId) : EmitM Block :=
  match (src.node id).kind.targets? with
  | none => pure []
  | some b => src.writeBranch visit ctx id b

/-- Write the body of an arm, with a break at its end where it needs one. -/
def armBody (ctx : Context) (target : NodeId) : EmitM Block := do
  let body ← visit ctx target
  let needBreak := (← get).needBreak
  modify fun s => { s with needBreak := true }
  if needBreak && !body.getLast?.any Statement.neverCompletes then
    return body ++ [plainJump .break]
  return body

/-- The arms of a switch whose targets have not been written, and the default target if it is none
of these. -/
def writeArms (ctx : Context) (cases : SwitchTable) :
    List NodeId → Option NodeId → EmitM (List SwitchArm × Option NodeId)
  | [], fallback => pure ([], fallback)
  | target :: rest, fallback => do
      if (← get).visited.contains target then
        writeArms ctx cases rest fallback
      else
        modify fun s => { s with nextCase := rest.head? }
        let isDefault := fallback == some target
        let body ← armBody visit ctx target
        let (arms, left) ← writeArms ctx cases rest (if isDefault then none else fallback)
        return (.mk (cases.keysOf target) isDefault body :: arms, left)

/-- The arm of a default target. -/
def defaultArm (ctx : Context) : Option NodeId → EmitM (List SwitchArm)
  | none => pure []
  | some target => do
      let body ← visit ctx target
      return [.mk [] true body]

/-- The selector of a switch. -/
def selectorOf (ins : Instr) : EmitM Expression := do
  let vars := (← get).vars
  match ins with
  | .switch value =>
      mention (mentions value (some "I"))
      return expression vars src.writing.method.owner value (some "I")
  | other => return .note (other.dumpText vars)

/-- A switch and what follows it. -/
def writeSwitch (ctx : Context) (id : NodeId) (cases : SwitchTable) : EmitM Block := do
  match (src.node id).ins.getLast? with
  | none => return []
  | some last =>
      let before ← src.instructions (src.node id).ins.dropLast
      let selector ← src.selectorOf last
      let follow := (src.node id).switchFollow
      let inner := ctx.push .switchEnd follow
      let (arms, fallback) ← writeArms visit inner cases cases.cases cases.fallback
      modify fun s => { s with nextCase := none }
      let more ← defaultArm visit inner (fallback.filter fun d => some d != follow)
      let rest ← writeNext visit ctx follow
      return before ++ .switch selector (arms ++ more) :: rest

/-- A node that runs on into another one. -/
def writeStraight (ctx : Context) (id : NodeId) : EmitM Block := do
  let own ← src.instructions (src.node id).ins
  match src.graph.succs id with
  | [succ] =>
      if some succ = ctx.top .loopEnd then
        return own ++ [plainJump .break]
      else if some succ = (← get).nextCase then
        modify fun s => { s with needBreak := false }
        return own
      else
        return own ++ (← visit ctx succ)
  | _ => return own

/-- The variable that a handler declares. -/
def catchDeclaration (binding : Option VarId) (type : Option String) : EmitM VarDecl := do
  let vars := (← get).vars
  let known := type.getD "Ljava/lang/Throwable;"
  match binding with
  | some v =>
      let caught := (vars.type? v).getD known
      modify fun s => { s with vars := s.vars.markDeclared v }
      mention [mentionOf caught]
      return { type := .ofDescriptor caught, name := vars.name v }
  | none =>
      mention [mentionOf known]
      return { type := .ofDescriptor known, name := "_" }

/-- The handlers of a protected region. -/
def writeHandlers (ctx : Context) : List NodeId → EmitM (List CatchClause)
  | [] => pure []
  | id :: rest => do
      markVisited id
      match (src.node id).kind with
      | .catchBlock start binding type =>
          let decl ← catchDeclaration binding type
          let body ← visit ctx start
          let more ← writeHandlers ctx rest
          return .mk decl body :: more
      | _ => writeHandlers ctx rest

/-- A protected region and what follows it. -/
def writeRegion (ctx : Context) (start : NodeId) (catches : List NodeId) (follow : Option NodeId) :
    EmitM Block := do
  let inner := ctx.push .regionEnd follow
  let body ← visit inner start
  let clauses ← src.writeHandlers visit inner catches
  let rest ← writeNext visit ctx follow
  return .tryCatch body clauses :: rest

/-- A node of a kind, and what follows it. -/
def writeKind (id : NodeId) : NodeKind → Context → EmitM Block
  | .loop inner type, ctx =>
      src.writeLoop visit (fun ctx => writeKind id inner ctx) ctx id inner type
  | .conditional _, ctx => src.writeCond visit ctx id
  | .shortCircuit _, ctx => src.writeCond visit ctx id
  | .switch cases, ctx => src.writeSwitch visit ctx id cases
  | .statement, ctx => src.writeStraight visit ctx id
  | .ret, _ => src.instructions (src.node id).ins
  | .throw, _ => src.instructions (src.node id).ins
  | .tryBlock start catches follow, ctx => src.writeRegion visit ctx start catches follow
  | .catchBlock start _ _, ctx => visit ctx start

/-- A node that is written here, with its label and its declarations. -/
def writeNode (ctx : Context) (id : NodeId) : EmitM Block := do
  markVisited id
  let label := if src.labels.contains id then [Statement.label (src.labelOf id)] else []
  let declared ← declareVars (src.node id).declares
  let body ← src.writeKind visit id (src.node id).kind ctx
  return label ++ declared ++ body

/-- A goto to a node that has been written. -/
def gotoNode (id : NodeId) : EmitM Block := do
  modify fun s => { s with gotoTargets := OrderedSet.insert s.gotoTargets id }
  return [.jump .goto (some (src.labelOf id))]

/-- Go to a node: continue the loop, reach the end of a statement, jump, or write the node here.
-/
def enterNode (ctx : Context) (id : NodeId) : EmitM Block := do
  if ctx.continuesLoop id then
    return [plainJump .continue]
  else if ctx.isWrittenBehind id then
    return []
  else
    src.requireSlot id
    if !(src.node id).kind.isExit && (← get).visited.contains id then
      src.gotoNode id
    else
      src.writeNode visit ctx id

/-- Go to a node, with at most `depth` nodes inside one another. -/
def walk (src : Source) : Nat → Walk
  | 0, _, _ => pure []
  | depth + 1, ctx, id => src.enterNode (walk src depth) ctx id

/-- Go to a node like `walk`, with `bottom` where nodes get too deep inside one another. -/
def walkOver (src : Source) (bottom : Walk) : Nat → Walk
  | 0 => bottom
  | depth + 1 => src.enterNode (walkOver src bottom depth)

/-- The body of a method.  Between two nodes entered for the first time a walk passes each exit at
most once. -/
def body (src : Source) : EmitM Block :=
  src.walk ((src.graph.size + 1) * (src.graph.size + 1)) .outermost src.graph.entry

/-- Whether the walk through a method has no bottom: what would be done there leaves a mark. -/
def isBottomless (src : Source) (vars : Variables) (naming : Java.Naming) : Bool :=
  let marks (bottom : Walk) : Bool :=
    ((src.walkOver bottom ((src.graph.size + 1) * (src.graph.size + 1)) .outermost
      src.graph.entry).run (.start vars naming)).2.dangling
  marks (fun _ _ => do src.requireSlot src.graph.size; return []) != marks fun _ _ => pure []

end Source

end Emission
end DalvikDecompiler
