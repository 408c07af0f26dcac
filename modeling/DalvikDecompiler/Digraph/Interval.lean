import DalvikDecompiler.Digraph.Basic

/-!
# Intervals and derived graphs

**Input.** A rooted graph and its reverse postorder.

**Algorithm.** An interval starts as a head alone and takes in every node all
of whose predecessors it already has.  Nodes with only some predecessors in it
become heads of further intervals.  Contracting each interval to a node gives
the next graph; this is repeated until one interval is left, or until
contraction no longer makes the graph smaller.

**Results.** The graph is reducible exactly when the sequence of derived
graphs ends with one interval.
-/

namespace DalvikDecompiler
namespace Digraph

/-- An interval of a graph. -/
structure Interval where
  head : NodeId
  members : List NodeId
  /-- The last member with a successor outside. -/
  last : Option NodeId
  deriving Repr

/-- The intervals of a graph. -/
structure Partition where
  intervals : List Interval
  /-- The interval of each slot. -/
  intervalOf : Array (Option Nat)
  /-- The graph of the intervals. -/
  reduced : Digraph

/-- The interval a node has been put into. -/
def assigned (intervalOf : Array (Option Nat)) (node : NodeId) : Option Nat :=
  intervalOf[node]?.join

/-- Put a node into an interval if all its predecessors are there and it is in none yet. -/
def absorb (g : Digraph) (index : Nat) (state : Array (Option Nat) × List NodeId)
    (node : NodeId) : Array (Option Nat) × List NodeId :=
  let (intervalOf, members) := state
  let preds := g.preds node
  if (assigned intervalOf node).isNone && !preds.isEmpty
      && preds.all (fun p => assigned intervalOf p == some index) then
    (intervalOf.setIfInBounds node (some index), members ++ [node])
  else
    state

/-- Sweep over the nodes until the interval takes in no more. -/
def grow (g : Digraph) (index : Nat) (nodes : List NodeId) :
    Nat → Array (Option Nat) × List NodeId → Array (Option Nat) × List NodeId
  | 0, state => state
  | sweeps + 1, state =>
      let next := nodes.foldl (absorb g index) state
      if next.2.length = state.2.length then next else grow g index nodes sweeps next

/-- What the search for intervals has found. -/
structure IntervalSearch where
  intervals : List Interval
  intervalOf : Array (Option Nat)
  /-- The edges from an interval to a node outside. -/
  exits : List (Nat × NodeId)
  /-- The heads that are waiting. -/
  heads : List NodeId

/-- Build the interval of a head. -/
def IntervalSearch.addInterval (g : Digraph) (order : List NodeId) (s : IntervalSearch)
    (head : NodeId) : IntervalSearch :=
  let index := s.intervals.length
  let (intervalOf, members) :=
    grow g index (order.drop 1) (g.size + 1)
      (s.intervalOf.setIfInBounds head (some index), [head])
  let isInside (n : NodeId) : Bool := assigned intervalOf n == some index
  let outside := g.nodes.filter fun n => !isInside n && (g.preds n).any isInside
  let fresh := outside.filter fun n =>
    (assigned intervalOf n).isNone && !s.heads.contains n
  let leaving := members.filter fun m => (g.succs m).any fun n => !isInside n
  { intervals := s.intervals ++ [{ head, members, last := leaving.getLast? }]
    intervalOf
    exits := s.exits ++ outside.map fun n => (index, n)
    heads := s.heads ++ fresh }

/-- Build the intervals of the waiting heads, at most `steps` of them. -/
def IntervalSearch.run (g : Digraph) (order : List NodeId) :
    Nat → IntervalSearch → IntervalSearch
  | 0, s => s
  | steps + 1, s =>
      match s.heads with
      | [] => s
      | head :: rest =>
          let s := { s with heads := rest }
          if (assigned s.intervalOf head).isSome then
            run g order steps s
          else
            run g order steps (s.addInterval g order head)

/-- The intervals of a graph.  No node waits twice, so that there are no more steps than slots. -/
def partition (g : Digraph) (order : List NodeId) : Partition :=
  let s := IntervalSearch.run g order (g.size + 1)
    { intervals := []
      intervalOf := Array.replicate g.size none
      exits := []
      heads := order.head?.toList }
  let edges := s.exits.filterMap fun (source, node) =>
    (assigned s.intervalOf node).map fun target => (source, target)
  { intervals := s.intervals
    intervalOf := s.intervalOf
    reduced := ofEdges s.intervals.length edges 0 }

/-- One graph of a derived sequence, with what its nodes stand for in the first graph. -/
structure DerivedLevel where
  graph : Digraph
  numbers : Array Nat
  /-- The node of the first graph at which each node begins. -/
  baseHead : Array NodeId
  /-- The node of the first graph at which each node ends. -/
  baseLast : Array NodeId
  /-- The nodes of the first graph that each node stands for, in increasing order. -/
  baseNodes : Array (List NodeId)
  partition : Partition

namespace DerivedLevel

/-- The level of a graph with a given reverse postorder. -/
def of (graph : Digraph) (order : List NodeId) (baseHead baseLast : Array NodeId)
    (baseNodes : Array (List NodeId)) : DerivedLevel :=
  { graph
    numbers := order.zipIdx.foldl
      (fun numbers (node, position) => numbers.setIfInBounds node (position + 1))
      (Array.replicate graph.size 0)
    baseHead
    baseLast
    baseNodes
    partition := graph.partition order }

/-- The number of a node, zero if it cannot be reached. -/
def number (level : DerivedLevel) (node : NodeId) : Nat :=
  level.numbers[node]?.getD 0

/-- The first node that a node stands for. -/
def headOf (level : DerivedLevel) (node : NodeId) : NodeId :=
  level.baseHead[node]?.getD node

/-- The last node that a node stands for. -/
def lastOf (level : DerivedLevel) (node : NodeId) : NodeId :=
  level.baseLast[node]?.getD node

/-- The nodes that a node stands for. -/
def nodesOf (level : DerivedLevel) (node : NodeId) : List NodeId :=
  level.baseNodes[node]?.getD []

/-- The interval of a node. -/
def intervalOf (level : DerivedLevel) (node : NodeId) : Option Nat :=
  assigned level.partition.intervalOf node

/-- The nodes of the first graph that an interval stands for, in increasing order. -/
def intervalNodes (level : DerivedLevel) (interval : Interval) : List NodeId :=
  (interval.members.flatMap level.nodesOf).mergeSort

/-- The number of nodes that can be reached. -/
def reachable (level : DerivedLevel) : Nat :=
  ((List.range level.graph.size).filter fun n => level.number n != 0).length

/-- The level whose nodes are the intervals of the given one. -/
def next (level : DerivedLevel) : DerivedLevel :=
  let intervals := level.partition.intervals
  let reduced := level.partition.reduced
  .of reduced (reduced.reversePostorder 0)
    (intervals.map fun i => level.headOf i.head).toArray
    (intervals.map fun i =>
      level.lastOf ((i.last.or i.members.getLast?).getD i.head)).toArray
    (intervals.map level.intervalNodes).toArray

/-- No more nodes can be reached than there are slots. -/
theorem reachable_le_size
    (level : DerivedLevel) :
    level.reachable ≤ level.graph.size := by
  have h :=
    List.length_filter_le (fun n => level.number n != 0) (List.range level.graph.size)
  simpa [reachable] using h

end DerivedLevel

/-- A derived sequence. -/
structure DerivedSequence where
  levels : List DerivedLevel
  irreducible : Bool

/-- Derive graphs from a level on.  Each has fewer nodes than the one before. -/
def DerivedLevel.sequence (level : DerivedLevel) : DerivedSequence :=
  if level.partition.intervals.length ≤ 1 then
    { levels := [level], irreducible := false }
  else if level.reachable ≤ level.partition.reduced.size then
    { levels := [level], irreducible := true }
  else
    let rest := level.next.sequence
    { rest with levels := level :: rest.levels }
termination_by level.graph.size
decreasing_by
  rename_i h
  have hle := level.reachable_le_size
  change level.partition.reduced.size < level.graph.size
  omega

/-- The derived sequence of a graph. -/
def derivedSequence (g : Digraph) (order : List NodeId) : DerivedSequence :=
  let slots := List.range g.size
  (DerivedLevel.of g order slots.toArray slots.toArray (slots.map fun n => [n]).toArray).sequence

end Digraph
end DalvikDecompiler
