import DalvikDecompiler.Digraph.Dominator
import DalvikDecompiler.FlowGraph.Node

/-!
# Flow graphs

**Input.** Nodes in numbered slots with ordinary edges and exception edges
between them.

**Algorithm.** A node that is removed leaves its slot vacant, so that numbers
stay valid.  Each edge is kept at both of its ends.  An index from places to
nodes finds instructions by their place.
-/

namespace DalvikDecompiler

open Symbolic (VarId Instr Variables)

/-- A slot of a flow graph. -/
structure Slot where
  node : Node
  live : Bool
  succs : List NodeId
  preds : List NodeId
  /-- The handlers that protect the node. -/
  handlerSuccs : List NodeId
  /-- The nodes that this handler protects. -/
  handlerPreds : List NodeId
  deriving Repr

/-- A flow graph. -/
structure FlowGraph where
  slots : Array Slot
  entry : NodeId
  exit : Option NodeId
  /-- The nodes in reverse postorder, as of the last time it was computed. -/
  order : List NodeId
  /-- The node of each place. -/
  locIndex : List (Loc × NodeId)
  deriving Repr

namespace FlowGraph

/-- The graph without nodes. -/
def empty : FlowGraph :=
  { slots := #[], entry := 0, exit := none, order := [], locIndex := [] }

/-- The number of slots. -/
def size (g : FlowGraph) : Nat :=
  g.slots.size

/-- Whether a slot exists, vacant or not. -/
def hasSlot (g : FlowGraph) (id : NodeId) : Bool :=
  id < g.size

/-- Whether a node is part of the graph. -/
def isLive (g : FlowGraph) (id : NodeId) : Bool :=
  g.slots[id]?.any Slot.live

/-- The nodes of the graph, in increasing order. -/
def liveIds (g : FlowGraph) : List NodeId :=
  (List.range g.size).filter g.isLive

/-- The contents of a slot, or of a blank one where there is none. -/
def node (g : FlowGraph) (id : NodeId) : Node :=
  (g.slots[id]?.map Slot.node).getD (.plain "" .statement)

/-- The node, if it is part of the graph. -/
def node? (g : FlowGraph) (id : NodeId) : Option Node :=
  if g.isLive id then some (g.node id) else none

/-- What is said of a node that is not part of the graph. -/
def absenceText (id : NodeId) : String :=
  "n" ++ toString id ++ " is not part of the graph"

/-- Normal successors. -/
def succs (g : FlowGraph) (id : NodeId) : List NodeId :=
  (g.slots[id]?.map Slot.succs).getD []

/-- Normal predecessors. -/
def preds (g : FlowGraph) (id : NodeId) : List NodeId :=
  (g.slots[id]?.map Slot.preds).getD []

/-- Handlers of a node. -/
def handlerSuccs (g : FlowGraph) (id : NodeId) : List NodeId :=
  (g.slots[id]?.map Slot.handlerSuccs).getD []

/-- Nodes that a handler protects. -/
def handlerPreds (g : FlowGraph) (id : NodeId) : List NodeId :=
  (g.slots[id]?.map Slot.handlerPreds).getD []

/-- Successors over edges of both kinds. -/
def flowSuccs (g : FlowGraph) (id : NodeId) : List NodeId :=
  g.succs id ++ g.handlerSuccs id

/-- Predecessors over edges of both kinds. -/
def flowPreds (g : FlowGraph) (id : NodeId) : List NodeId :=
  g.preds id ++ g.handlerPreds id

/-- The rooted graph of the edges of both kinds. -/
def toDigraph (g : FlowGraph) : Digraph :=
  { size := g.size
    nodes := g.liveIds
    succs := g.flowSuccs
    preds := g.flowPreds
    entry := g.entry }

/-- Change a slot, if it exists. -/
def modifySlot (g : FlowGraph) (id : NodeId) (f : Slot → Slot) : FlowGraph :=
  { g with slots := g.slots.modify id f }

/-- Change the contents of a slot, if it exists. -/
def modifyNode (g : FlowGraph) (id : NodeId) (f : Node → Node) : FlowGraph :=
  g.modifySlot id fun slot => { slot with node := f slot.node }

/-- Add a node; its number is the former number of slots. -/
def addNode (g : FlowGraph) (node : Node) : NodeId × FlowGraph :=
  let slot : Slot :=
    { node, live := true, succs := [], preds := [], handlerSuccs := [], handlerPreds := [] }
  (g.size, { g with slots := g.slots.push slot })

/-- Drop a normal edge at its source. -/
def dropSucc (g : FlowGraph) (source target : NodeId) : FlowGraph :=
  g.modifySlot source fun slot => { slot with succs := OrderedSet.erase slot.succs target }

/-- Drop a normal edge at its target. -/
def dropPred (g : FlowGraph) (source target : NodeId) : FlowGraph :=
  g.modifySlot target fun slot => { slot with preds := OrderedSet.erase slot.preds source }

/-- Drop an exception edge at its source. -/
def dropHandlerSucc (g : FlowGraph) (source target : NodeId) : FlowGraph :=
  g.modifySlot source fun slot =>
    { slot with handlerSuccs := OrderedSet.erase slot.handlerSuccs target }

/-- Drop an exception edge at its target. -/
def dropHandlerPred (g : FlowGraph) (source target : NodeId) : FlowGraph :=
  g.modifySlot target fun slot =>
    { slot with handlerPreds := OrderedSet.erase slot.handlerPreds source }

/-- Add a normal edge, unless it is there already. -/
def addEdge (g : FlowGraph) (source target : NodeId) : FlowGraph :=
  if (g.succs source).contains target then
    g
  else
    (g.modifySlot source fun slot => { slot with succs := slot.succs ++ [target] }).modifySlot
      target fun slot => { slot with preds := slot.preds ++ [source] }

/-- Add an exception edge, unless it is there already. -/
def addHandlerEdge (g : FlowGraph) (source handler : NodeId) : FlowGraph :=
  if (g.handlerSuccs source).contains handler then
    g
  else
    (g.modifySlot source fun slot =>
        { slot with handlerSuccs := slot.handlerSuccs ++ [handler] }).modifySlot
      handler fun slot => { slot with handlerPreds := slot.handlerPreds ++ [source] }

/-- Remove a normal edge. -/
def removeEdge (g : FlowGraph) (source target : NodeId) : FlowGraph :=
  (g.dropSucc source target).dropPred source target

/-- Remove an exception edge. -/
def removeHandlerEdge (g : FlowGraph) (source handler : NodeId) : FlowGraph :=
  (g.dropHandlerSucc source handler).dropHandlerPred source handler

/-- Remove the normal edges out of a node. -/
def clearSuccs (g : FlowGraph) (id : NodeId) : FlowGraph :=
  (g.succs id).foldl (fun g succ => g.dropPred id succ)
    (g.modifySlot id fun slot => { slot with succs := [] })

/-- Remove the normal edges into a node. -/
def clearPreds (g : FlowGraph) (id : NodeId) : FlowGraph :=
  (g.preds id).foldl (fun g pred => g.dropSucc pred id)
    (g.modifySlot id fun slot => { slot with preds := [] })

/-- Remove the exception edges out of a node. -/
def clearHandlerSuccs (g : FlowGraph) (id : NodeId) : FlowGraph :=
  (g.handlerSuccs id).foldl (fun g handler => g.dropHandlerPred id handler)
    (g.modifySlot id fun slot => { slot with handlerSuccs := [] })

/-- Remove the exception edges into a node. -/
def clearHandlerPreds (g : FlowGraph) (id : NodeId) : FlowGraph :=
  (g.handlerPreds id).foldl (fun g pred => g.dropHandlerSucc pred id)
    (g.modifySlot id fun slot => { slot with handlerPreds := [] })

/-- Remove a node with its edges. -/
def removeNode (g : FlowGraph) (id : NodeId) : FlowGraph :=
  let g := (((g.clearSuccs id).clearPreds id).clearHandlerSuccs id).clearHandlerPreds id
  let g := g.modifySlot id fun slot => { slot with live := false }
  { g with
    order := OrderedSet.erase g.order id
    locIndex := g.locIndex.filter fun entry => entry.2 != id
    exit := if g.exit = some id then none else g.exit }

/-- Put a node in the place of another one in a list, or drop that one if the new node is there
already. -/
def substitute (old new : NodeId) (targets : List NodeId) : List NodeId :=
  if targets.contains new then
    OrderedSet.erase targets old
  else
    replaceFirst targets
where
  /-- Replace the first occurrence. -/
  replaceFirst : List NodeId → List NodeId
    | [] => []
    | n :: rest => if n = old then new :: rest else n :: replaceFirst rest

/-- Let one predecessor of a node lead to another node instead, at the same position. -/
def moveIncomingFrom (old new : NodeId) (g : FlowGraph) (pred : NodeId) : FlowGraph :=
  let g := g.modifySlot pred fun slot => { slot with succs := substitute old new slot.succs }
  g.modifySlot new fun slot => { slot with preds := OrderedSet.insert slot.preds pred }

/-- Let all edges into a node lead to another one instead. -/
def moveIncoming (g : FlowGraph) (old new : NodeId) : FlowGraph :=
  let preds := g.preds old
  let g := g.modifySlot old fun slot => { slot with preds := [] }
  let g := preds.foldl (moveIncomingFrom old new) g
  let handlerPreds := g.handlerPreds old
  let g := g.modifySlot old fun slot => { slot with handlerPreds := [] }
  handlerPreds.foldl (fun g pred => (g.dropHandlerSucc pred old).addHandlerEdge pred new) g

/-- Let all edges out of a node start at another one instead. -/
def moveOutgoing (g : FlowGraph) (old new : NodeId) : FlowGraph :=
  let succs := g.succs old
  let g := g.modifySlot old fun slot => { slot with succs := [] }
  let g := succs.foldl
    (fun g succ => (g.dropPred old succ).addEdge new (if succ = old then new else succ)) g
  let handlerSuccs := g.handlerSuccs old
  let g := g.modifySlot old fun slot => { slot with handlerSuccs := [] }
  handlerSuccs.foldl (fun g handler => (g.dropHandlerPred old handler).addHandlerEdge new handler) g

/-- Let all nodes of the graph, its entry and its exit refer to another node instead of a given
one. -/
def retarget (g : FlowGraph) (old new : NodeId) : FlowGraph :=
  { g with
    slots := g.slots.map fun slot =>
      if slot.live then { slot with node := slot.node.retarget old new } else slot
    entry := if g.entry = old then new else g.entry
    exit := if g.exit = some old then some new else g.exit }

/-- The nodes that can be reached from the entry, each behind what is first entered from it. -/
def postOrder (g : FlowGraph) : List NodeId :=
  g.toDigraph.postorder g.entry

/-- Compute the reverse postorder and number the nodes by it. -/
def reorder (g : FlowGraph) : FlowGraph :=
  let order := g.toDigraph.reversePostorder g.entry
  let cleared : FlowGraph :=
    { g with
      slots := g.slots.map fun slot => { slot with node := { slot.node with num := 0 } }
      order }
  order.zipIdx.foldl
    (fun g (id, position) => g.modifyNode id fun n => { n with num := position + 1 })
    cleared

/-- The dominator tree over edges of both kinds. -/
def dominatorTree (g : FlowGraph) : DominatorTree :=
  .compute g.toDigraph g.order

/-- Number the instructions of some nodes from a place on. -/
def numberFrom (g : FlowGraph) (loc : Loc) : List NodeId → FlowGraph
  | [] => g
  | id :: rest =>
      let count := (g.node id).ins.length
      let locs := (List.range count).map fun (i : Nat) => loc + i
      let g := g.modifyNode id fun n => { n with locs }
      let g := { g with
        locIndex := locs.foldl (fun index l => OrderedMap.insert l id index) g.locIndex }
      g.numberFrom (loc + count) rest

/-- Number the instructions in reverse postorder. -/
def numberInstructions (g : FlowGraph) : FlowGraph :=
  { g with locIndex := [] }.numberFrom 0 g.order

/-- Rebuild the index from the places that the nodes hold. -/
def reindex (g : FlowGraph) : FlowGraph :=
  { g with
    locIndex := g.liveIds.foldl
      (fun index id => (g.node id).locs.foldl (fun index l => OrderedMap.insert l id index) index)
      [] }

/-- The node of a place. -/
def nodeAt (g : FlowGraph) (loc : Loc) : Option NodeId :=
  g.locIndex.lookup loc

/-- The instruction at a place. -/
def instrAt (g : FlowGraph) (loc : Loc) : Option Instr := do
  let n := g.node (← g.nodeAt loc)
  let position ← n.locs.idxOf? loc
  n.ins[position]?

/-- Change the instruction at a place, if there is one. -/
def modifyInstr (g : FlowGraph) (loc : Loc) (f : Instr → Instr) : FlowGraph :=
  match g.nodeAt loc with
  | none => g
  | some id =>
      match (g.node id).locs.idxOf? loc with
      | none => g
      | some position => g.modifyNode id fun n => { n with ins := n.ins.modify position f }

/-- Remove the instruction at a place. -/
def removeInstr (g : FlowGraph) (loc : Loc) : FlowGraph :=
  match g.nodeAt loc with
  | none => g
  | some id =>
      let g := { g with locIndex := OrderedMap.erase loc g.locIndex }
      match (g.node id).locs.idxOf? loc with
      | none => g
      | some position =>
          g.modifyNode id fun n =>
            { n with ins := n.ins.eraseIdx position, locs := n.locs.eraseIdx position }

/-- The number of instructions of all slots. -/
def instrCount (g : FlowGraph) : Nat :=
  Natural.total (g.slots.toList.map fun slot => slot.node.ins.length)

end FlowGraph

end DalvikDecompiler
