import DalvikDecompiler.FlowGraph.Basic

/-!
# Where branches come together

**Input.** A flow graph and its dominator tree.

**Algorithm.** The branches of a node come together in a node right below it
in the dominator tree that has several predecessors; of several such nodes the
last one counts.  Nodes are visited backwards, so that inner branches come
first.  A branch without such a node takes the one of the first outer branch
that has it in its range.

**Results.** `FlowGraph.markIfFollows` marks the branches and lists those that
are left without a mark.
-/

namespace DalvikDecompiler
namespace FlowGraph

/-- The node with the largest number, the last one of equals. -/
def lastByNumber (g : FlowGraph) (nodes : List NodeId) : Option NodeId :=
  nodes.foldl
    (fun best n =>
      match best with
      | none => some n
      | some m => if (g.node m).num ≤ (g.node n).num then some n else some m)
    none

/-- The node with the smallest number, the first one of equals. -/
def firstByNumber (g : FlowGraph) (nodes : List NodeId) : Option NodeId :=
  nodes.foldl
    (fun best n =>
      match best with
      | none => some n
      | some m => if (g.node n).num < (g.node m).num then some n else some m)
    none

/-- Where what starts at a node comes together. -/
def joinBelow (g : FlowGraph) (tree : DominatorTree) (dom : NodeId) : Option NodeId :=
  g.lastByNumber ((tree.children dom).filter fun n => g.isLive n && 1 < (g.preds n).length)

/-- Say where the branches of a node come together. -/
def setIfFollow (g : FlowGraph) (id follow : NodeId) : FlowGraph :=
  g.modifyNode id fun n => { n with ifFollow := some follow }

/-- Mark a branch and those that wait for it, or let it wait for an outer one. -/
def markIfFollow (tree : DominatorTree) (state : FlowGraph × List NodeId) (id : NodeId) :
    FlowGraph × List NodeId :=
  let (g, waiting) := state
  if (g.node id).kind.isCond then
    match g.joinBelow tree id with
    | none => (g, waiting ++ [id])
    | some follow =>
        let inRange (x : NodeId) : Bool :=
          (g.node id).num < (g.node x).num && (g.node x).num < (g.node follow).num
        ((waiting.filter inRange).foldl (fun g x => g.setIfFollow x follow)
            (g.setIfFollow id follow),
          waiting.filter fun x => !inRange x)
  else
    state

/-- Mark all branches, and list those that wait in vain. -/
def markIfFollows (g : FlowGraph) (tree : DominatorTree) : FlowGraph × List NodeId :=
  g.order.reverse.foldl (markIfFollow tree) (g, [])

/-- Let a branch without a mark end with the loop or the switch around it, whichever comes first.
-/
def markByContext (g : FlowGraph) (id : NodeId) : FlowGraph :=
  let outer := ([(g.node id).loopFollow, (g.node id).switchFollow].filterMap fun f => f).filter
    g.isLive
  match g.firstByNumber outer with
  | some follow => g.setIfFollow id follow
  | none => g

end FlowGraph
end DalvikDecompiler
