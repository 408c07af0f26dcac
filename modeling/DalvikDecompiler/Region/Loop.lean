import DalvikDecompiler.Digraph.Interval
import DalvikDecompiler.FlowGraph.Basic

/-!
# Loops

**Input.** A flow graph and its derived sequence.

**Algorithm.** An interval with an edge back to its head is a loop.  Its body
is what leads to the last node of such an edge without passing the head, as
far as it belongs to the interval and is numbered between the two.  Inner
loops are found in earlier graphs of the sequence.  A head that leaves the
loop tests in front, a latch that branches tests behind, and any other loop is
endless.  What follows an endless loop is the first node that a branch in it
leads to outside.
-/

namespace DalvikDecompiler
namespace FlowGraph

/-- The nodes of a loop of an interval with a given head and latch, in the order in which they are
found. -/
def loopBody (g : FlowGraph) (members : List NodeId) (head latch : NodeId) : List NodeId :=
  let belongs (pred : NodeId) : Bool :=
    (g.node head).num < (g.node pred).num && (g.node pred).num ≤ (g.node latch).num
      && members.contains pred
  let others := (List.range g.size).filter fun id => id != head
  head :: Digraph.search (fun id => (g.flowPreds id).filter belongs) others [latch]

/-- Mark the loop of an interval, if it is one, and count it. -/
def recordLoop (level : Digraph.DerivedLevel) (state : FlowGraph × Nat)
    (entry : Digraph.Interval × Nat) :
    FlowGraph × Nat :=
  let (g, found) := state
  let (interval, index) := entry
  let latches := ((level.graph.preds interval.head).filter fun pred =>
    level.intervalOf pred == some index).map level.lastOf
  match latches.getLast? with
  | none => state
  | some latch =>
      let head := level.headOf interval.head
      let members := level.intervalNodes interval
      let body := OrderedSet.ofList (latches.flatMap (g.loopBody members head))
      let sorted := body.mergeSort fun a b => (g.node a).num ≤ (g.node b).num
      (g.modifyNode head fun n =>
        { n with latch := some latch, startsLoop := true, loopNodes := sorted }, found + 1)

/-- The intervals of a level with their positions, ordered by the numbers of their heads. -/
def intervalsByHead (level : Digraph.DerivedLevel) : List (Digraph.Interval × Nat) :=
  level.partition.intervals.zipIdx.mergeSort fun a b =>
    level.number a.1.head ≤ level.number b.1.head

/-- Mark all loops, and say how many there are. -/
def recordLoops (g : FlowGraph) (sequence : Digraph.DerivedSequence) : FlowGraph × Nat :=
  sequence.levels.foldl
    (fun state level => (intervalsByHead level).foldl (recordLoop level) state) (g, 0)

/-- Make a node a head of a loop, unless it is one. -/
def makeHead (g : FlowGraph) (id : NodeId) : FlowGraph :=
  if (g.node id).startsLoop && !(g.node id).kind.isLoop then
    g.modifyNode id fun n => { n with kind := .loop n.kind .endless }
  else
    g

/-- Make the marked nodes heads of loops. -/
def makeHeads (g : FlowGraph) : FlowGraph :=
  g.order.foldl makeHead g

/-- Where a loop with a given head and latch is tested. -/
def loopTestOf (g : FlowGraph) (head latch : NodeId) : LoopTest :=
  let body := (g.node head).loopNodes
  let headLeaves := (g.node head).kind.targets?.any fun b =>
    !(body.contains b.onTrue && body.contains b.onFalse)
  if headLeaves then
    .preTest
  else if (g.node latch).kind.isCond then
    .postTest
  else
    .endless

/-- Set the type of a loop. -/
def setLoopTest (type : LoopTest) : NodeKind → NodeKind
  | .loop inner _ => .loop inner type
  | kind => kind

/-- Find out where a loop is tested. -/
def markLoopTest (g : FlowGraph) (head : NodeId) : FlowGraph :=
  match (g.node head).latch with
  | none => g
  | some latch =>
      let type := g.loopTestOf head latch
      g.modifyNode head fun n => { n with kind := setLoopTest type n.kind }

/-- The target of a branch that lies outside of a loop body. -/
def exitOf (g : FlowGraph) (body : List NodeId) (id : NodeId) : Option NodeId :=
  (g.node id).kind.targets?.map fun b => if body.contains b.onTrue then b.onFalse else b.onTrue

/-- The first node found so far that branches of a loop lead to outside. -/
structure ExitSearch where
  found : Option NodeId
  /-- Whether a branch led to a slot that does not exist. -/
  dangling : Bool

/-- Whether a target lies outside of a loop body and in front of what has been found. -/
def ExitSearch.improves (g : FlowGraph) (body : List NodeId) (s : ExitSearch) (target : NodeId) :
    Bool :=
  s.found.all (fun best => (g.node target).num < (g.node best).num) && !body.contains target

/-- Look at the branches of a node of a loop. -/
def ExitSearch.look (g : FlowGraph) (body : List NodeId) (s : ExitSearch) (id : NodeId) :
    ExitSearch :=
  match (g.node id).kind.targets? with
  | none => s
  | some b =>
      let s := { s with dangling := s.dangling || !g.hasSlot b.onTrue }
      if s.improves g body b.onTrue then
        { s with found := some b.onTrue }
      else
        let s := { s with dangling := s.dangling || !g.hasSlot b.onFalse }
        if s.improves g body b.onFalse then { s with found := some b.onFalse } else s

/-- The first node that the branches of a loop lead to outside. -/
def firstExit (g : FlowGraph) (body : List NodeId) : ExitSearch :=
  body.foldl (ExitSearch.look g body) { found := none, dangling := false }

/-- What follows a loop. -/
def loopFollowOf (g : FlowGraph) (head : NodeId) : ExitSearch :=
  let body := (g.node head).loopNodes
  match (g.node head).kind with
  | .loop _ .preTest => { found := g.exitOf body head, dangling := false }
  | .loop _ .postTest =>
      { found := (g.node head).latch.bind (g.exitOf body), dangling := false }
  | _ => g.firstExit body

/-- Find out what follows a loop, and say whether a branch led to a slot that does not exist. -/
def markLoopFollow (g : FlowGraph) (head : NodeId) : FlowGraph × Bool :=
  let search := g.loopFollowOf head
  ((head :: (g.node head).loopNodes).foldl
      (fun g id => g.modifyNode id fun n => { n with loopFollow := search.found }) g,
    search.dangling)

/-- Whether the latch and the nodes of a loop all have slots. -/
def hasWholeLoop (g : FlowGraph) (head : NodeId) : Bool :=
  (g.node head).latch.all g.hasSlot && (g.node head).loopNodes.all g.hasSlot

/-- Find out where a loop that starts at a node is tested and what follows it, and say whether one
of its nodes or branches led to a slot that does not exist. -/
def describeLoop (state : FlowGraph × Bool) (id : NodeId) : FlowGraph × Bool :=
  let (g, dangling) := state
  if (g.node id).startsLoop then
    let (marked, more) := (g.markLoopTest id).markLoopFollow id
    (marked, dangling || more || !g.hasWholeLoop id)
  else
    state

/-- Find out where all loops are tested and what follows them. -/
def describeLoops (g : FlowGraph) : FlowGraph × Bool :=
  g.order.foldl describeLoop (g, false)

end FlowGraph
end DalvikDecompiler
