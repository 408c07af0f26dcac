import DalvikDecompiler.FlowGraph.Basic

/-!
# Protected regions

**Input.** A flow graph with handlers and its dominator tree.

**Algorithm.** A handler that is not protected itself belongs to the region
that starts at its immediate dominator.  The region is entered through a new
node; each of its handlers is entered through another one, which binds the
exception.
-/

namespace DalvikDecompiler
namespace FlowGraph

/-- The handlers that can be reached and that are not protected themselves. -/
def handlers (g : FlowGraph) : List NodeId :=
  g.order.filter fun id => !(g.handlerPreds id).isEmpty && (g.handlerSuccs id).isEmpty

/-- What follows a protected region that starts at a node. -/
def regionFollow (g : FlowGraph) (start : NodeId) : Option NodeId :=
  let n := g.node start
  match n.kind with
  | .loop .. => n.loopFollow
  | .conditional _ => n.loopFollow.or n.ifFollow
  | .shortCircuit _ => n.loopFollow.or n.ifFollow
  | .statement => (g.succs start).head?
  | .switch _ => n.switchFollow
  | _ => none

/-- Enter a region through a new node. -/
def enterTry (g : FlowGraph) (start : NodeId) : NodeId × FlowGraph :=
  let follow := g.regionFollow start
  let n := g.node start
  let node : Node :=
    { n.shell (n.name ++ "-try") .statement with
      startsLoop := false
      latch := none
      loopNodes := [] }
  let (id, g) := g.addNode node
  let g := g.retarget start id
  let g := g.modifyNode id fun n => { n with kind := .tryBlock start [] follow }
  (id, (g.moveIncoming start id).addEdge id start)

/-- The variable that a handler binds the exception to. -/
def binding? (g : FlowGraph) (handler : NodeId) : Option Symbolic.VarId :=
  match (g.node handler).ins.head? with
  | some (.moveException v) => some v
  | _ => none

/-- Take the instruction that binds the exception out of a handler. -/
def dropBinding (g : FlowGraph) (handler : NodeId) : FlowGraph :=
  match g.binding? handler, (g.node handler).locs.head? with
  | none, _ => g
  | some _, some loc => g.removeInstr loc
  | some _, none => g.modifyNode handler fun n => { n with ins := n.ins.drop 1 }

/-- Enter a handler through a new node. -/
def enterCatch (g : FlowGraph) (handler : NodeId) : NodeId × FlowGraph :=
  let binding := g.binding? handler
  let g := g.dropBinding handler
  let n := g.node handler
  g.addNode (n.shell (n.name ++ "-catch") (.catchBlock handler binding n.catchType))

/-- Add a handler to a protected region. -/
def addCatch (g : FlowGraph) (region handler : NodeId) : FlowGraph :=
  g.modifyNode region fun n =>
    match n.kind with
    | .tryBlock start catches follow =>
        { n with kind := .tryBlock start (catches ++ [handler]) follow }
    | _ => n

/-- The protected regions made so far, by the nodes they start at. -/
structure Protection where
  graph : FlowGraph
  regions : List (NodeId × NodeId)
  /-- Whether a region starts at a slot that does not exist. -/
  dangling : Bool

/-- The region that starts at a node, which is made when it is asked for the first time. -/
def Protection.region (s : Protection) (start : NodeId) : NodeId × Protection :=
  match s.regions.lookup start with
  | some id => (id, s)
  | none =>
      let (id, graph) := s.graph.enterTry start
      (id,
        { graph
          regions := s.regions ++ [(start, id)]
          dangling := s.dangling || !s.graph.hasSlot start })

/-- Put a handler into its region. -/
def Protection.addHandler (tree : DominatorTree) (s : Protection) (handler : NodeId) :
    Protection :=
  match tree.immediateDominator handler with
  | none => s
  | some start =>
      let (region, s) := s.region start
      let (id, graph) := s.graph.enterCatch handler
      { s with graph := graph.addCatch region id }

/-- Put all handlers into their regions. -/
def protect (g : FlowGraph) (tree : DominatorTree) : Protection :=
  g.handlers.foldl (Protection.addHandler tree) { graph := g, regions := [], dangling := false }

end FlowGraph
end DalvikDecompiler
