import DalvikDecompiler.FlowGraph.Basic

/-!
# Cleaning up a flow graph

**Input.** A flow graph with instructions at numbered places.

**Algorithm.** A branch node is split into what it computes and the branch
itself.  Then nodes without instructions are bypassed and straight sequences
under the same handlers are joined, until nothing changes.  Each such step
removes a node.
-/

namespace DalvikDecompiler
namespace FlowGraph

/-- The nodes that compute something and then branch. -/
def splitCandidates (g : FlowGraph) : List NodeId :=
  g.liveIds.filter fun id =>
    match (g.node id).kind with
    | .conditional _ => 1 < (g.node id).ins.length
    | _ => false

/-- Split the branch off a node.  Both parts stay under the same handlers. -/
def splitBranch (g : FlowGraph) (id : NodeId) : FlowGraph :=
  let n := g.node id
  let at_ := n.ins.length - 1
  let pre : Node :=
    { n.shell (n.name ++ "-pre") .statement with
      ins := n.ins.take at_
      locs := n.locs.take at_
      declares := n.declares }
  let cond : Node :=
    { n.shell (n.name ++ "-cond") n.kind with
      ins := n.ins.drop at_
      locs := n.locs.drop at_
      catchType := none }
  let handlers := g.handlerSuccs id
  let (preId, g) := g.addNode pre
  let (condId, g) := g.addNode cond
  let g := (g.moveIncoming id preId).moveOutgoing id condId
  let g := handlers.foldl (fun g handler => g.addHandlerEdge preId handler) g
  ((g.addEdge preId condId).retarget id preId).removeNode id

/-- Split all branch nodes that compute something, and say how many there were. -/
def splitBranches (g : FlowGraph) : Nat × FlowGraph :=
  let candidates := g.splitCandidates
  if candidates.isEmpty then
    (0, g)
  else
    (candidates.length, (candidates.foldl splitBranch g).reindex)

/-- Declare variables in front of a node. -/
def declareAll (g : FlowGraph) (id : NodeId) (names : List Symbolic.VarId) : FlowGraph :=
  g.modifyNode id fun n => names.foldl Node.declare n

/-- Whether a node can be left out: it has no instructions, leads elsewhere and handles nothing.
-/
def isBypassable (g : FlowGraph) (id succ : NodeId) : Bool :=
  (g.node id).ins.isEmpty && succ != id && (g.handlerPreds id).isEmpty

/-- Leave out a node in front of its successor. -/
def bypass (g : FlowGraph) (id succ : NodeId) : FlowGraph :=
  let g := g.declareAll succ (g.node id).declares
  ((g.moveIncoming id succ).retarget id succ).removeNode id

/-- Whether a node and its successor always run one after the other under the same handlers. -/
def isJoinable (g : FlowGraph) (id succ : NodeId) : Bool :=
  !(g.node id).ins.isEmpty && (g.node succ).kind == .statement && (g.preds succ).length == 1
    && succ != id && succ != g.entry && (g.handlerPreds succ).isEmpty
    && g.handlerSuccs id == g.handlerSuccs succ

/-- Join a node and its successor. -/
def join (g : FlowGraph) (id succ : NodeId) : FlowGraph :=
  let absorbed := g.node succ
  let g := g.modifyNode succ fun n => { n with ins := [], locs := [], declares := [] }
  let g := g.modifyNode id fun n =>
    absorbed.declares.foldl Node.declare
      { n with ins := n.ins ++ absorbed.ins, locs := n.locs ++ absorbed.locs }
  let g := (g.removeEdge id succ).moveOutgoing succ id
  (g.retarget succ id).removeNode succ

/-- Simplify at one node, and say whether something changed. -/
def compactNode (state : FlowGraph × Bool) (id : NodeId) : FlowGraph × Bool :=
  let (g, changed) := state
  if g.isLive id && (g.node id).kind == .statement then
    match g.succs id with
    | [] => (g, changed)
    | succ :: _ =>
        if g.isBypassable id succ then
          (g.bypass id succ, true)
        else if g.isJoinable id succ then
          (g.join id succ, true)
        else
          (g, changed)
  else
    (g, changed)

/-- Simplify at all nodes until nothing changes. -/
def compactRounds : Nat → FlowGraph × Bool → FlowGraph × Bool
  | 0, state => state
  | rounds + 1, (g, changed) =>
      let (next, again) := g.liveIds.foldl compactNode (g, false)
      if again then compactRounds rounds (next, true) else (next, changed)

/-- Simplify a graph, and say whether something changed. -/
def compact (g : FlowGraph) : Bool × FlowGraph :=
  let (next, changed) := compactRounds (g.size + 1) (g, false)
  if changed then (true, next.reindex) else (false, next)

end FlowGraph
end DalvikDecompiler
