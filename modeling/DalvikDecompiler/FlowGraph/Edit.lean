import DalvikDecompiler.FlowGraph.Basic

/-!
# Edits of a flow graph

**Input.** The changes that can be made to the shape of a graph, as values.

An edit that would touch a slot that does not exist is refused.
-/

namespace DalvikDecompiler

open Symbolic (VarId)

/-- A change to a flow graph. -/
inductive Edit where
  | setKind (node : NodeId) (kind : NodeKind)
  | setCatchType (node : NodeId) (type : Option String)
  | declare (node : NodeId) (name : VarId)
  | addEdge (source target : NodeId)
  | addHandlerEdge (source handler : NodeId)
  | removeEdge (source target : NodeId)
  | removeHandlerEdge (source handler : NodeId)
  | removeNode (node : NodeId)
  | moveIncoming (old new : NodeId)
  | moveOutgoing (old new : NodeId)
  | retarget (old new : NodeId)
  | setEntry (node : NodeId)
  | setExit (node : Option NodeId)
  | reorder

namespace Edit

/-- Make a change. -/
def perform (g : FlowGraph) : Edit → FlowGraph
  | .setKind node kind => g.modifyNode node fun n => { n with kind }
  | .setCatchType node catchType => g.modifyNode node fun n => { n with catchType }
  | .declare node v => g.modifyNode node fun n => n.declare v
  | .addEdge source target => g.addEdge source target
  | .addHandlerEdge source handler => g.addHandlerEdge source handler
  | .removeEdge source target => g.removeEdge source target
  | .removeHandlerEdge source handler => g.removeHandlerEdge source handler
  | .removeNode node => g.removeNode node
  | .moveIncoming old new => g.moveIncoming old new
  | .moveOutgoing old new => g.moveOutgoing old new
  | .retarget old new => g.retarget old new
  | .setEntry node => { g with entry := node }
  | .setExit node => { g with exit := node }
  | .reorder => g.reorder

/-- The slots that a change touches. -/
def touched (g : FlowGraph) : Edit → List NodeId
  | .setKind node _ => [node]
  | .setCatchType node _ => [node]
  | .declare node _ => [node]
  | .addEdge source target => [source, target]
  | .addHandlerEdge source handler => [source, handler]
  | .removeEdge source target => [source, target]
  | .removeHandlerEdge source handler => [source, handler]
  | .removeNode node => [node]
  | .moveIncoming old new => if (g.flowPreds old).isEmpty then [old] else [old, new]
  | .moveOutgoing old new => if (g.flowSuccs old).isEmpty then [old] else [old, new]
  | .retarget .. => []
  | .setEntry _ => []
  | .setExit _ => []
  | .reorder => []

/-- Make a change whose slots all exist. -/
def perform? (g : FlowGraph) (edit : Edit) : Option FlowGraph :=
  if (edit.touched g).all g.hasSlot then some (edit.perform g) else none

end Edit

end DalvikDecompiler
