import DalvikDecompiler.Digraph.Dot
import DalvikDecompiler.FlowGraph.Basic

/-!
# Drawing a flow graph

Each node is a box with its number, name and kind and one line per
instruction.  The edges of a branch are marked by the outcome they stand for,
and exception edges are dashed.
-/

namespace DalvikDecompiler
namespace FlowGraph

open Symbolic (Variables Instr)

/-- The name of a box. -/
def boxId (g : FlowGraph) (id : NodeId) : String :=
  toString id ++ "-" ++ (g.node id).name

/-- The box of a node. -/
def box (g : FlowGraph) (vars : Variables) (id : NodeId) : Dot.Item :=
  let n := g.node id
  .box (g.boxId id)
    ((toString n.num ++ ". " ++ n.name ++ " (" ++ n.kind.label ++ ")") ::
      n.ins.map (Instr.dumpText vars))

/-- The style of a normal edge. -/
def lineStyle (branches : Option BranchTargets) (succ : NodeId) : Dot.LineStyle :=
  match branches with
  | none => .normal
  | some b =>
      if b.onTrue = succ then .onTrue else if b.onFalse = succ then .onFalse else .normal

/-- The edges out of a node. -/
def edges (g : FlowGraph) (id : NodeId) : List Dot.Item :=
  (g.succs id).map (fun succ =>
      .edge (g.boxId id) (g.boxId succ) (lineStyle (g.node id).kind.targets? succ)) ++
    (g.handlerSuccs id).map fun handler =>
      .edge (g.boxId id) (g.boxId handler) .exceptional

/-- The drawing of a graph. -/
def draw (g : FlowGraph) (name : String) (vars : Variables) : String :=
  Dot.render name (g.liveIds.map (g.box vars) ++ g.liveIds.flatMap g.edges)

end FlowGraph
end DalvikDecompiler
