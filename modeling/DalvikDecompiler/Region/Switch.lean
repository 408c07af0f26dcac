import DalvikDecompiler.Region.Branch

/-!
# Where switches come together

**Input.** A flow graph and its dominator tree.

**Algorithm.** A switch comes together below the nearest common dominator of
the switch and the last of its targets that can be reached without it.  Nodes
are visited in postorder; a switch without such a node waits for the next one
that has it.  The targets of each switch are put in order.
-/

namespace DalvikDecompiler
namespace FlowGraph

/-- The switches that can be reached, in postorder. -/
def switches (g : FlowGraph) : List NodeId :=
  g.postOrder.filter fun id => (g.node id).kind.isSwitch

/-- The node below which a switch comes together. -/
def switchScope (g : FlowGraph) (tree : DominatorTree) (id : NodeId) : NodeId :=
  (g.succs id).foldl
    (fun scope succ =>
      if tree.immediateDominator succ = some id then scope else tree.commonDominator id succ)
    id

/-- Say where a switch comes together. -/
def setSwitchFollow (g : FlowGraph) (id follow : NodeId) : FlowGraph :=
  g.modifyNode id fun n => { n with switchFollow := some follow }

/-- Mark a switch and those that wait for it, or let it wait, and put its targets in order. -/
def markSwitch (tree : DominatorTree) (state : FlowGraph × List NodeId) (id : NodeId) :
    FlowGraph × List NodeId :=
  let (g, waiting) := state
  let (g, waiting) :=
    match g.joinBelow tree (g.switchScope tree id) with
    | some follow =>
        ((id :: waiting).foldl (fun (g : FlowGraph) x => g.setSwitchFollow x follow) g, [])
    | none => (g, waiting ++ [id])
  (g.modifyNode id fun n => { n with kind := n.kind.mapSwitch SwitchTable.order }, waiting)

/-- Mark all switches. -/
def markSwitches (g : FlowGraph) (tree : DominatorTree) : FlowGraph :=
  (g.switches.foldl (markSwitch tree) (g, [])).1

end FlowGraph
end DalvikDecompiler
