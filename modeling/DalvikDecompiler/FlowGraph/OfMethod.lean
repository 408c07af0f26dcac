import DalvikDecompiler.Event
import DalvikDecompiler.FlowGraph.Basic
import DalvikDecompiler.Symbolic.Lifting

/-!
# The flow graph of a method

**Input.** A method with a body, its variables and the events so far.

**Algorithm.** Blocks are visited breadth first from the first one, along
children and along the handlers that protect the start of a block.  A block is
lifted when it is mentioned for the first time.  The way the last instruction
transfers control gives a node its kind.

**Results.** A body without blocks, an index out of range, an instruction that
cannot be lifted and a branch without successors are errors; events recorded
before an error stay.
-/

namespace DalvikDecompiler

open Symbolic (Variables LiftState LiftError VarId)
open Bytecode (Block Method)

/-- Why a method has no flow graph. -/
inductive FlowError where
  | noBlocks
  | missingChild (block : String) (child : Nat)
  | missingHandler (start stop : UInt32) (block : Nat)
  | lift (error : LiftError)
  | noSuccessor (block : String)
  deriving DecidableEq, Repr

/-- The wording of a flow error. -/
def FlowError.message : FlowError → String
  | .noBlocks => "Method has code but no basic blocks"
  | .missingChild block child =>
      "block " ++ block ++ " references missing child " ++ toString child
  | .missingHandler start stop block =>
      "try range " ++ Text.hex start.toNat ++ ".." ++ Text.hex stop.toNat ++
        " references missing handler block " ++ toString block
  | .lift error => error.message
  | .noSuccessor block => "conditional block " ++ block ++ " has no successor"

namespace FlowGraph

/-- The first index out of range, in the blocks and then in the protected ranges. -/
def firstMissing? (m : Method) : Option FlowError :=
  let count := m.blocks.length
  let child := m.blocks.findSome? fun block =>
    (block.children.find? fun c => count ≤ c.2.toNat).map fun c =>
      FlowError.missingChild block.name c.2.toNat
  let handler := m.exceptions.ranges.findSome? fun range =>
    (range.handlers.find? fun h => count ≤ h.block.toNat).map fun h =>
      FlowError.missingHandler range.start range.stop h.block.toNat
  child.or handler

/-- What construction has made so far. -/
structure Construction where
  graph : FlowGraph
  lifter : LiftState
  events : EventLog
  /-- The node of each block that has been mentioned. -/
  nodeOf : List (Nat × NodeId)
  /-- The blocks that wait to be visited. -/
  queue : List Nat
  /-- The blocks that have waited or are waiting. -/
  seen : List Nat

/-- Computations on a construction that may fail. -/
abbrev ConstructM := EStateM FlowError Construction

namespace Construction

/-- Record that an instruction is not known. -/
def reportUnknown (m : Method) (ins : Bytecode.Instruction) : ConstructM Unit :=
  modify fun c =>
    { c with
      events := c.events.record
        { kind := .unknownOpcode
          message := "instruction replaced by nop"
          method := some m.qualifiedName
          offset := some ins.offset } }

/-- Lift one instruction. -/
def liftOne (m : Method) (ins : Bytecode.Instruction) : ConstructM (Option Symbolic.Instr) := do
  if ins.opcode = .unknown then
    reportUnknown m ins
  let c ← get
  match (LiftState.lift ins).run c.lifter with
  | .ok lifted lifter =>
      set { c with lifter }
      return lifted
  | .error error lifter =>
      set { c with lifter }
      throw (.lift error)

/-- Lift instructions one after another, without the jumps. -/
def liftAll (m : Method) : List Bytecode.Instruction → ConstructM (List Symbolic.Instr)
  | [] => pure []
  | ins :: rest => do
      let lifted ← liftOne m ins
      let more ← liftAll m rest
      return lifted.toList ++ more

/-- The node of a block, which is made when the block is mentioned for the first time. -/
def nodeOfBlock (m : Method) (index : Nat) : ConstructM NodeId := do
  let c ← get
  match c.nodeOf.lookup index, m.blocks[index]? with
  | some id, _ => return id
  | none, none => return 0
  | none, some block =>
      let ins ← liftAll m block.instructions
      modifyGet fun c =>
        let (id, graph) :=
          c.graph.addNode { Node.plain block.name .statement with start := block.start, ins }
        (id, { c with graph, nodeOf := c.nodeOf ++ [(index, id)] })

/-- Let a block wait, unless it has waited before. -/
def enqueue (index : Nat) : ConstructM Unit :=
  modify fun c =>
    if c.seen.contains index then
      c
    else
      { c with queue := c.queue ++ [index], seen := c.seen ++ [index] }

/-- Change the graph. -/
def modifyGraph (f : FlowGraph → FlowGraph) : ConstructM Unit :=
  modify fun c => { c with graph := f c.graph }

/-- Connect a node with the children of its block, and give their nodes. -/
def linkChildren (m : Method) (node : NodeId) : List (UInt32 × UInt64) → ConstructM (List NodeId)
  | [] => pure []
  | (_, index) :: rest => do
      let child ← nodeOfBlock m index.toNat
      modifyGraph fun g => g.addEdge node child
      enqueue index.toNat
      let children ← linkChildren m node rest
      return child :: children

/-- Mark a node as a handler of exceptions of a type; the first type counts. -/
def markHandler (type : Option String) (n : Node) : Node :=
  { n with inCatch := true, catchType := n.catchType.or type }

/-- Connect a node with the handlers that protect it. -/
def linkHandlers (m : Method) (node : NodeId) : List Bytecode.Handler → ConstructM Unit
  | [] => pure ()
  | handler :: rest => do
      let target ← nodeOfBlock m handler.block.toNat
      modifyGraph fun g =>
        (g.addHandlerEdge node target).modifyNode target (markHandler handler.exceptionType)
      enqueue handler.block.toNat
      linkHandlers m node rest

/-- The targets of a conditional branch: the last child at the branch target and the last other
one. -/
def branchesOf (m : Method) (block : Block) (children : List NodeId) :
    Option NodeId × Option NodeId :=
  let target := block.instructions.getLast?.bind Bytecode.Instruction.targetOffset
  let isTarget (index : UInt64) : Bool :=
    target.isSome && target == (m.blocks[index.toNat]?.map Block.start)
  let marked := (block.children.zip children).map fun (child, node) => (isTarget child.2, node)
  let last (taken : Bool) : Option NodeId :=
    (marked.filter fun entry => entry.1 == taken).getLast?.map (·.2)
  (last true, last false)

/-- The kind of the node of a block. -/
def kindOf (m : Method) (block : Block) (children : List NodeId) : Except FlowError NodeKind :=
  let last := block.instructions.getLast?
  let opcode := (last.map Bytecode.Instruction.opcode).getD .nop
  if opcode.isReturn then
    .ok .ret
  else if opcode.isThrow then
    .ok .throw
  else if opcode.isSwitch then
    let keys := (last.bind Bytecode.Instruction.switchKeys?).getD []
    .ok (.switch (.unordered keys children))
  else if opcode.isConditional then
    match branchesOf m block children with
    | (some onTrue, some onFalse) => .ok (.conditional { onTrue, onFalse })
    | (some b, none) => .ok (.conditional { onTrue := b, onFalse := b })
    | (none, some b) => .ok (.conditional { onTrue := b, onFalse := b })
    | (none, none) => .error (.noSuccessor block.name)
  else
    .ok .statement

/-- Visit a block: make its node, connect it and give it its kind. -/
def visit (m : Method) (index : Nat) (block : Block) : ConstructM Unit := do
  let node ← nodeOfBlock m index
  let children ← linkChildren m node block.children
  linkHandlers m node (m.exceptions.handlersFor block.start)
  match kindOf m block children with
  | .ok kind => modifyGraph fun g => g.modifyNode node fun n => { n with kind }
  | .error error => throw error

/-- Visit the blocks that wait, at most `steps` of them. -/
def visitAll (m : Method) : Nat → ConstructM Unit
  | 0 => pure ()
  | steps + 1 => do
      let c ← get
      match c.queue with
      | [] => return
      | index :: rest =>
          set { c with queue := rest }
          match m.blocks[index]? with
          | some block => visit m index block
          | none => pure ()
          visitAll m steps

end Construction

/-- Whether all predecessors of a node with smaller numbers are in handlers, and there is one. -/
def followsCatch (g : FlowGraph) (id : NodeId) : Bool :=
  let earlier := (g.preds id).filter fun p => (g.node p).num < (g.node id).num
  !earlier.isEmpty && earlier.all fun p => (g.node p).inCatch

/-- Mark the nodes that only handlers lead to. -/
def markHandlerCode (g : FlowGraph) : FlowGraph :=
  g.order.foldl
    (fun g id =>
      if !(g.node id).inCatch && g.followsCatch id then
        g.modifyNode id fun n => { n with inCatch := true }
      else
        g)
    g

/-- The exit of a graph, and an event when there is not exactly one node that returns. -/
def exitAndEvent (g : FlowGraph) (m : Method) : Option NodeId × Option Event :=
  let event (kind : EventKind) (message : String) : Event :=
    { kind, message, method := some m.qualifiedName, offset := none }
  match g.liveIds.filter fun id => (g.node id).kind.isReturn with
  | [exit] => (some exit, none)
  | [] => (none, some (event .noExit "no return node"))
  | returns =>
      (g.order.getLast?,
        some (event .multipleExits (toString returns.length ++ " return nodes")))

/-- Order, number and mark the nodes of a graph whose blocks have all been visited. -/
def complete (m : Method) (g : FlowGraph) (events : EventLog) : FlowGraph × EventLog :=
  let g := (markHandlerCode g.reorder).numberInstructions
  let (exit, event) := g.exitAndEvent m
  ({ g with exit }, event.toList.foldl EventLog.record events)

/-- What construction gives: the graph or an error, and in either case the variables and the
events. -/
structure ConstructResult where
  graph : Except FlowError FlowGraph
  vars : Variables
  events : EventLog

/-- The flow graph of a method. -/
def ofMethod (m : Method) (vars : Variables) (events : EventLog) : ConstructResult :=
  if m.blocks.isEmpty then
    { graph := .error .noBlocks, vars, events }
  else
    match firstMissing? m with
    | some error => { graph := .error error, vars, events }
    | none =>
        let start : Construction :=
          { graph := .empty
            lifter := { vars, pending := none }
            events
            nodeOf := []
            queue := [0]
            seen := [0] }
        match (Construction.visitAll m (m.blocks.length + 1)).run start with
        | .error error c => { graph := .error error, vars := c.lifter.vars, events := c.events }
        | .ok _ c =>
            let entry := (c.nodeOf.lookup 0).getD 0
            let (graph, events) := complete m { c.graph with entry } c.events
            { graph := .ok graph, vars := c.lifter.vars, events }

end FlowGraph

end DalvikDecompiler
