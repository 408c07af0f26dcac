import DalvikDecompiler.Digraph.Basic

/-!
# Dominator trees

**Input.** A rooted graph and the reverse postorder of its reachable nodes.

**Algorithm.** Nodes are numbered by their positions.  A first sweep gives
each node the nearest common dominator of its predecessors with smaller
numbers; further sweeps take all predecessors into account until nothing
changes.  The nearest common dominator of two nodes is found by walking up
from the one with the larger number.  A sweep that changes something moves a
dominator to a smaller number, which bounds the number of sweeps by the square
of the number of nodes.

**Results.** `immediateDominator`, `dominators` and `commonDominator` read the
tree; the other operations edit it when nodes of the graph are merged.
-/

namespace DalvikDecompiler

/-- What a dominator tree knows of a node: the node right above it and its number, zero for nodes
that are not numbered. -/
structure DominatorEntry where
  parent : Option NodeId
  number : Nat
  deriving DecidableEq, Repr

/-- A dominator tree. -/
structure DominatorTree where
  entry : NodeId
  entries : Array DominatorEntry
  deriving Repr

namespace DominatorTree

/-- The tree of unnumbered nodes without dominators. -/
def blank (size : Nat) (entry : NodeId) : DominatorTree :=
  { entry, entries := Array.replicate size ⟨none, 0⟩ }

/-- The number of slots. -/
def size (tree : DominatorTree) : Nat :=
  tree.entries.size

/-- The immediate dominator of a node. -/
def immediateDominator (tree : DominatorTree) (node : NodeId) : Option NodeId :=
  tree.entries[node]?.bind DominatorEntry.parent

/-- The number of a node. -/
def number (tree : DominatorTree) (node : NodeId) : Nat :=
  (tree.entries[node]?.map DominatorEntry.number).getD 0

/-- A node and the nodes above it, at most `steps` of them. -/
def chain (tree : DominatorTree) : Nat → NodeId → List NodeId
  | 0, _ => []
  | steps + 1, node =>
      match tree.immediateDominator node with
      | some above => node :: tree.chain steps above
      | none => [node]

/-- The dominators of a node, itself first. -/
def dominators (tree : DominatorTree) (node : NodeId) : List NodeId :=
  tree.chain (tree.size + 1) node

/-- Whether a node dominates another one or is the same. -/
def dominates (tree : DominatorTree) (a b : NodeId) : Bool :=
  (tree.dominators b).contains a

/-- Whether a node dominates another one. -/
def strictlyDominates (tree : DominatorTree) (a b : NodeId) : Bool :=
  a != b && tree.dominates a b

/-- The number of proper dominators of a node. -/
def depth (tree : DominatorTree) (node : NodeId) : Nat :=
  (tree.dominators node).length - 1

/-- The nodes whose immediate dominator is a given node. -/
def children (tree : DominatorTree) (node : NodeId) : List NodeId :=
  (List.range tree.size).filter fun n => tree.immediateDominator n == some node

/-- Walk up from the node with the larger number until both walks meet. -/
def meet (tree : DominatorTree) : Nat → NodeId → NodeId → NodeId
  | 0, _, _ => tree.entry
  | steps + 1, a, b =>
      if a = b then
        a
      else if tree.number a = tree.number b then
        tree.entry
      else if tree.number a < tree.number b then
        match tree.immediateDominator b with
        | some above => tree.meet steps a above
        | none => tree.entry
      else
        match tree.immediateDominator a with
        | some above => tree.meet steps above b
        | none => tree.entry

/-- The nearest common dominator of two nodes, or the entry when the walks do not meet.  A walk
that meets never has the same pair of nodes twice. -/
def commonDominator (tree : DominatorTree) (a b : NodeId) : NodeId :=
  tree.meet ((tree.size + 2) * (tree.size + 2)) a b

/-- Add slots up to and including that of a node. -/
def reserve (tree : DominatorTree) (node : NodeId) : DominatorTree :=
  { tree with
    entries := tree.entries ++ Array.replicate (node + 1 - tree.size) ⟨none, 0⟩ }

/-- Set the immediate dominator of a node. -/
def setParent (tree : DominatorTree) (node : NodeId) (parent : Option NodeId) : DominatorTree :=
  let tree := tree.reserve node
  { tree with entries := tree.entries.modify node fun e => { e with parent } }

/-- Set the number of a node. -/
def setNumber (tree : DominatorTree) (node : NodeId) (number : Nat) : DominatorTree :=
  let tree := tree.reserve node
  { tree with entries := tree.entries.modify node fun e => { e with number } }

/-- Take a node out of the tree. -/
def remove (tree : DominatorTree) (node : NodeId) : DominatorTree :=
  { tree with entries := tree.entries.modify node fun e => { e with parent := none } }

/-- Put a node in the place of another one above all nodes below it. -/
def replace (tree : DominatorTree) (old new : NodeId) : DominatorTree :=
  { entry := if tree.entry = old then new else tree.entry
    entries := tree.entries.map fun e =>
      if e.parent = some old then { e with parent := some new } else e }

/-- Number nodes by their positions, starting at one. -/
def numberAll (tree : DominatorTree) (nodes : List NodeId) : DominatorTree :=
  nodes.zipIdx.foldl (fun tree (node, position) => tree.setNumber node (position + 1)) tree

/-- The nearest common dominator of several nodes. -/
def commonDominatorOf (tree : DominatorTree) (nodes : List NodeId) : Option NodeId :=
  nodes.foldl
    (fun found node =>
      match found with
      | none => some node
      | some current => some (tree.commonDominator current node))
    none

/-- Give a node the nearest common dominator of its predecessors with smaller numbers. -/
def settleForward (g : Digraph) (tree : DominatorTree) (node : NodeId) : DominatorTree :=
  let earlier := (g.preds node).filter fun p =>
    tree.number p != 0 && tree.number p < tree.number node
  if node = tree.entry then tree else tree.setParent node (tree.commonDominatorOf earlier)

/-- The predecessors that already stand in the tree. -/
def settledPreds (g : Digraph) (tree : DominatorTree) (node : NodeId) : List NodeId :=
  (g.preds node).filter fun p =>
    tree.number p != 0 && (p == tree.entry || (tree.immediateDominator p).isSome)

/-- Give a node the nearest common dominator of all predecessors in the tree, and say whether that
was something new. -/
def settle (g : Digraph) (state : DominatorTree × Bool) (node : NodeId) :
    DominatorTree × Bool :=
  let (tree, changed) := state
  let found := tree.commonDominatorOf (settledPreds g tree node)
  if found.isSome && found != tree.immediateDominator node then
    (tree.setParent node found, true)
  else
    (tree, changed)

/-- Sweep over the nodes until nothing changes. -/
def settleAll (g : Digraph) (nodes : List NodeId) : Nat → DominatorTree → DominatorTree
  | 0, tree => tree
  | sweeps + 1, tree =>
      let (tree, changed) := nodes.foldl (settle g) (tree, false)
      if changed then settleAll g nodes sweeps tree else tree

/-- The dominator tree of a graph with a given reverse postorder. -/
def compute (g : Digraph) (order : List NodeId) : DominatorTree :=
  let numbered := (blank g.size g.entry).numberAll order
  let first := order.foldl (settleForward g) numbered
  settleAll g (order.drop 1) (g.size * g.size + 1) first

end DominatorTree

end DalvikDecompiler
