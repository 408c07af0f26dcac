import DalvikDecompiler.OrderedSet

/-!
# Graphs and their traversal

A graph with an entry, and the order in which a depth-first traversal leaves its nodes.
-/

/-!
## Rooted directed graphs

**Input.** A graph on the slots `0, …, size - 1`, some of which may be vacant,
with its successors and predecessors in a fixed order and one slot as its
entry.

The order of successors and predecessors is part of a graph: traversals follow
it.
-/

namespace DalvikDecompiler

/-- Nodes are numbered by their slots. -/
abbrev NodeId := Nat

/-- A directed graph with an entry. -/
structure Digraph where
  /-- The number of slots. -/
  size : Nat
  /-- The nodes, in increasing order. -/
  nodes : List NodeId
  succs : NodeId → List NodeId
  preds : NodeId → List NodeId
  entry : NodeId

namespace Digraph

/-- The graph with all slots occupied and the given edges, each once and in the order given.
Edges that name a slot out of range are left out. -/
def ofEdges (size : Nat) (edges : List (NodeId × NodeId)) (entry : NodeId) : Digraph :=
  let kept := OrderedSet.ofList (edges.filter fun e => e.1 < size && e.2 < size)
  { size
    nodes := List.range size
    succs := fun n => kept.filterMap fun e => if e.1 = n then some e.2 else none
    preds := fun n => kept.filterMap fun e => if e.2 = n then some e.1 else none
    entry }

end Digraph

end DalvikDecompiler

/-!
## Depth-first traversal

**Input.** A graph and a node to start from.

**Algorithm.** A stack holds what is left to do: nodes to enter and nodes to
leave.  Entering a node that has not been seen puts its successors in front of
leaving it.  The nodes that have not been seen get fewer with every node
entered, so the traversal ends.

**Results.** `postorder` lists the nodes reached in the order in which they
are left, and `reversePostorder` the other way round.
-/

namespace DalvikDecompiler
namespace Digraph

/-- A step of a traversal that is still to be done. -/
inductive Visit where
  | enter (node : NodeId)
  | leave (node : NodeId)
  deriving DecidableEq, Repr

/-- The nodes in the order in which the steps of a stack leave them, when only unseen nodes are
entered. -/
def leaveOrder (succs : NodeId → List NodeId) : List NodeId → List Visit → List NodeId
  | _, [] => []
  | unseen, .leave n :: stack => n :: leaveOrder succs unseen stack
  | unseen, .enter n :: stack =>
      if n ∈ unseen then
        leaveOrder succs (unseen.erase n) ((succs n).map .enter ++ .leave n :: stack)
      else
        leaveOrder succs unseen stack
termination_by unseen stack => (unseen.length, stack.length)
decreasing_by
  · exact Prod.Lex.right _ (by simp)
  · rename_i h
    apply Prod.Lex.left
    have hpos := List.length_pos_of_mem h
    rw [List.length_erase_of_mem h]
    omega
  · exact Prod.Lex.right _ (by simp)

/-- The nodes that can be reached from a node, each behind the successors first entered from it.
-/
def postorder (g : Digraph) (start : NodeId) : List NodeId :=
  leaveOrder g.succs (List.range g.size) [.enter start]

/-- The nodes that can be reached from a node, each in front of the successors first entered from
it. -/
def reversePostorder (g : Digraph) (start : NodeId) : List NodeId :=
  (g.postorder start).reverse

/-- The nodes that a search finds among the unseen ones, in the order in which it finds them.
What leads on from a node is looked at before what was on the stack, the last one first. -/
def search (next : NodeId → List NodeId) : List NodeId → List NodeId → List NodeId
  | _, [] => []
  | unseen, n :: stack =>
      if n ∈ unseen then
        n :: search next (unseen.erase n) ((next n).reverse ++ stack)
      else
        search next unseen stack
termination_by unseen stack => (unseen.length, stack.length)
decreasing_by
  · rename_i h
    apply Prod.Lex.left
    have hpos := List.length_pos_of_mem h
    rw [List.length_erase_of_mem h]
    omega
  · exact Prod.Lex.right _ (by simp)

end Digraph
end DalvikDecompiler
