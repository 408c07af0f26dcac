import DalvikDecompiler.FlowGraph.Basic

/-!
# Short-circuit conditions

**Input.** A flow graph and its dominator tree.

**Algorithm.** A branch whose target is a branch that nothing else leads to,
and that shares a target with it, is merged with it into one condition.
Passes in postorder are repeated until one finds nothing or the allowed number
is used up.
-/

namespace DalvikDecompiler

/-- A branch to merge with the one in front of it. -/
structure Merge where
  second : NodeId
  isAnd : Bool
  isNot : Bool
  branches : BranchTargets
  deriving DecidableEq, Repr

namespace FlowGraph

/-- The targets of a branch that only a given node leads to and that leads to neither of the two.
-/
def absorbable? (g : FlowGraph) (id pred : NodeId) : Option BranchTargets :=
  (g.node id).kind.targets?.filter fun b =>
    (g.preds id).length == 1 && !b.contains pred && !b.contains id

/-- How to merge a branch with its target on true. -/
def mergeOnTrue (second other : NodeId) (b : BranchTargets) : Option Merge :=
  if b.onFalse = other then
    some
      { second
        isAnd := true
        isNot := false
        branches := { onTrue := b.onTrue, onFalse := other } }
  else if b.onTrue = other then
    some
      { second
        isAnd := false
        isNot := true
        branches := { onTrue := other, onFalse := b.onFalse } }
  else
    none

/-- How to merge a branch with its target on false. -/
def mergeOnFalse (second other : NodeId) (b : BranchTargets) : Option Merge :=
  if b.onFalse = other then
    some
      { second
        isAnd := true
        isNot := true
        branches := { onTrue := b.onTrue, onFalse := other } }
  else if b.onTrue = other then
    some
      { second
        isAnd := false
        isNot := false
        branches := { onTrue := other, onFalse := b.onFalse } }
  else
    none

/-- How to merge a branch with one of its targets; the one on true comes first. -/
def mergePlan (g : FlowGraph) (id : NodeId) (b : BranchTargets) : Option Merge :=
  match g.absorbable? b.onTrue id with
  | some inner => mergeOnTrue b.onTrue b.onFalse inner
  | none =>
      match g.absorbable? b.onFalse id with
      | some inner => mergeOnFalse b.onFalse b.onTrue inner
      | none => none

/-- Whether looking for a merge leads to a slot that does not exist. -/
def mergeDangles (g : FlowGraph) (id : NodeId) (b : BranchTargets) : Bool :=
  !g.hasSlot b.onTrue || ((g.absorbable? b.onTrue id).isNone && !g.hasSlot b.onFalse)

/-- Put one node in the place of two branches. -/
def mergeBranches (g : FlowGraph) (first : NodeId) (merge : Merge) : NodeId × FlowGraph :=
  let second := merge.second
  let a := g.node first
  let b := g.node second
  let kind : NodeKind :=
    .shortCircuit
      { first, second, isAnd := merge.isAnd, isNot := merge.isNot, branches := merge.branches }
  let node := (a.declares ++ b.declares).foldl Node.declare
    (a.shell (a.name ++ "+" ++ b.name) kind)
  let (merged, g) := g.addNode node
  let g := ((g.moveIncoming first merged).moveOutgoing first merged).moveOutgoing
    second merged
  let g := (g.removeNode second).removeNode first
  (merged, (g.retarget first merged).retarget second merged)

end FlowGraph

/-- Put a merged node in the place of the two it was made from. -/
def DominatorTree.mergeInto (tree : DominatorTree) (first second merged : NodeId) :
    DominatorTree :=
  let tree := tree.setParent merged (tree.immediateDominator first)
  (((tree.remove first).remove second).replace first merged).replace second merged

/-- The state of merging. -/
structure Merging where
  graph : FlowGraph
  tree : DominatorTree
  /-- The number of merges made. -/
  merged : Nat
  /-- Whether a branch led to a slot that does not exist. -/
  dangling : Bool

namespace Merging

/-- Merge a branch with one of its targets, if that is possible. -/
def visit (s : Merging) (id : NodeId) : Merging :=
  match (s.graph.node? id).bind fun n => n.kind.targets? with
  | none => s
  | some b =>
      if b.contains id then
        s
      else
        let s := { s with dangling := s.dangling || s.graph.mergeDangles id b }
        match s.graph.mergePlan id b with
        | none => s
        | some merge =>
            let (merged, graph) := s.graph.mergeBranches id merge
            { s with
              graph
              tree := s.tree.mergeInto id merge.second merged
              merged := s.merged + 1 }

/-- Visit all nodes in postorder. -/
def pass (s : Merging) : Merging :=
  s.graph.postOrder.foldl visit s

/-- Repeat passes, at most as many as allowed, and say whether the last one still found something
or none was allowed. -/
def passes : Nat → Merging → Merging × Bool
  | 0, s => (s, true)
  | bound + 1, s =>
      let next := s.pass
      if next.merged = s.merged then
        (next, false)
      else
        passes bound { next with graph := next.graph.reorder }

end Merging

end DalvikDecompiler
