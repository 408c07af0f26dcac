import DalvikDecompiler.Event
import DalvikDecompiler.Region.Branch
import DalvikDecompiler.Region.Loop
import DalvikDecompiler.Region.Protected
import DalvikDecompiler.Region.ShortCircuit
import DalvikDecompiler.Region.Switch

/-!
# Structured regions of a flow graph

**Input.** A flow graph with its dominator tree, and a bound on the passes of
merging.

**Algorithm.** Switches and loops are marked on the graph as it is.
Conditions are merged, the nodes are numbered anew, and then branches, loop
types, what follows each loop, and protected regions are found.
-/

namespace DalvikDecompiler

/-- How much structure has been found. -/
structure StructureCounts where
  loops : Nat
  switches : Nat
  shortCircuits : Nat
  tries : Nat
  irreducible : Bool
  deriving DecidableEq, Repr

/-- A structured flow graph. -/
structure Structured where
  graph : FlowGraph
  tree : DominatorTree
  summary : StructureCounts
  /-- What a user may want to know. -/
  events : List Event
  /-- Whether a reference led to a slot that does not exist. -/
  dangling : Bool

namespace FlowGraph

/-- The events of structuring a method. -/
def structureEvents (method : String) (sequence : Digraph.DerivedSequence) (passes : Nat)
    (bounded : Bool) : List Event :=
  let event (kind : EventKind) (message : String) : Event :=
    { kind, message, method := some method, offset := none }
  (if sequence.irreducible then
    [event .irreducibleFlow
      ("derived sequence stopped after " ++ toString sequence.levels.length ++ " levels")]
  else
    []) ++
  (if bounded then
    [event .structuringBound
      ("short-circuit merging stopped after " ++ toString passes ++ " passes")]
  else
    [])

/-- Give the nodes of a tree the numbers of a graph. -/
def renumber (g : FlowGraph) (tree : DominatorTree) : DominatorTree :=
  g.order.foldl (fun tree id => tree.setNumber id (g.node id).num) tree

/-- Find the structure of a flow graph. -/
def structured (g : FlowGraph) (tree : DominatorTree) (passes : Nat) (method : String) :
    Structured :=
  let sequence := g.toDigraph.derivedSequence g.order
  let switches := g.switches.length
  let (marked, loops) := (g.markSwitches tree).recordLoops sequence
  let (merging, bounded) :=
    Merging.passes passes { graph := marked, tree, merged := 0, dangling := false }
  let numbered := merging.graph.reorder
  let tree := numbered.renumber merging.tree
  let (branched, waiting) := numbered.markIfFollows tree
  let (described, danglingLoop) := branched.makeHeads.describeLoops
  let protection := (waiting.foldl markByContext described).protect tree
  { graph := protection.graph
    tree
    summary :=
      { loops
        switches
        shortCircuits := merging.merged
        tries := protection.regions.length
        irreducible := sequence.irreducible }
    events := structureEvents method sequence passes bounded
    dangling := merging.dangling || danglingLoop || protection.dangling }

end FlowGraph

end DalvikDecompiler
