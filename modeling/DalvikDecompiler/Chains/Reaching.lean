import DalvikDecompiler.FlowGraph.Basic

/-!
# Reaching definitions

**Input.** A flow graph whose instructions have places, and the arguments of
the method.

**Algorithm.** Each node passes on what reaches it, except the definitions of
variables that it defines itself, and adds its own last definitions.  Sets of
places are lists in increasing order, filtered from the list of all places
with a definition.  The nodes are swept in reverse postorder until nothing
changes; sets only grow, which bounds the number of sweeps.

**Results.** `Reaching.entering` lists the places whose definitions reach a
node, and `Reaching.supplying` those that reach an instruction in it.
-/

namespace DalvikDecompiler

open Symbolic (VarId Instr)

/-- The place at which an argument is defined. -/
def argumentLoc (index : Nat) : Loc :=
  -(index : Int) - 1

/-- A variable and a place where it is defined. -/
abbrev DefSite := VarId × Loc

/-- The definitions in a node, in order. -/
def Node.definitions (n : Node) : List DefSite :=
  (n.ins.zip n.locs).filterMap fun (ins, loc) => ins.target?.map fun v => (v, loc)

/-- The last definition of each variable that a node defines. -/
def Node.lastDefinitions (n : Node) : List DefSite :=
  n.definitions.foldl (fun found site => OrderedMap.insert site.1 site.2 found) []

/-- Which definitions leave each node. -/
structure Reaching where
  /-- All definitions of the method. -/
  sites : List DefSite
  /-- The places of arguments, which are defined at the entry. -/
  arguments : List Loc
  /-- All places with a definition, in increasing order. -/
  places : List Loc
  /-- What leaves each slot. -/
  out : Array (List Loc)
  deriving Repr

namespace Reaching

/-- The definitions of arguments. -/
def argumentSites (params : List VarId) : List DefSite :=
  params.zipIdx.map fun (v, index) => (v, argumentLoc index)

/-- The definitions of arguments and of the nodes that can be reached. -/
def sitesOf (g : FlowGraph) (params : List VarId) : List DefSite :=
  argumentSites params ++ g.order.flatMap fun id => (g.node id).definitions

/-- Places in increasing order, each once. -/
def sorted (locs : List Loc) : List Loc :=
  (OrderedSet.ofList locs).mergeSort fun a b => decide (a ≤ b)

/-- What is known before the first sweep: nothing leaves any node. -/
def start (g : FlowGraph) (params : List VarId) : Reaching :=
  let sites := sitesOf g params
  { sites
    arguments := (argumentSites params).map Prod.snd
    places := sorted (sites.map Prod.snd)
    out := Array.replicate g.size [] }

/-- What leaves a node. -/
def leaving (r : Reaching) (id : NodeId) : List Loc :=
  r.out[id]?.getD []

/-- The places whose definitions reach the start of a node. -/
def entering (r : Reaching) (g : FlowGraph) (id : NodeId) : List Loc :=
  r.places.filter fun loc =>
    (id == g.entry && r.arguments.contains loc) ||
      (g.flowPreds id).any fun pred => (r.leaving pred).contains loc

/-- The places where a variable is defined. -/
def placesOf (r : Reaching) (v : VarId) : List Loc :=
  r.places.filter fun loc => r.sites.contains (v, loc)

/-- What leaves a node that some definitions reach. -/
def transfer (r : Reaching) (n : Node) (reaching : List Loc) : List Loc :=
  let own := n.lastDefinitions
  r.places.filter fun loc =>
    own.any (fun site => site.2 == loc) ||
      (reaching.contains loc && !own.any fun site => r.sites.contains (site.1, loc))

/-- Compute anew what leaves a node. -/
def step (g : FlowGraph) (r : Reaching) (id : NodeId) : Reaching :=
  { r with out := r.out.setIfInBounds id (r.transfer (g.node id) (r.entering g id)) }

/-- Sweep over the nodes until nothing changes. -/
def settle (g : FlowGraph) : Nat → Reaching → Reaching
  | 0, r => r
  | sweeps + 1, r =>
      let next := g.order.foldl (step g) r
      if next.out == r.out then next else settle g sweeps next

/-- The reaching definitions of a flow graph. -/
def compute (g : FlowGraph) (params : List VarId) : Reaching :=
  let r := start g params
  settle g (g.size * r.places.length + 1) r

/-- The last of the first instructions of a node that defines a variable. -/
def lastBefore (n : Node) (v : VarId) (position : Nat) : Option Loc :=
  (((n.ins.take position).zip n.locs).filter fun entry => entry.1.target? == some v).getLast?.map
    Prod.snd

/-- The places whose definitions of a variable reach an instruction of a node. -/
def supplying (r : Reaching) (g : FlowGraph) (v : VarId) (id : NodeId) (position : Nat) :
    List Loc :=
  match lastBefore (g.node id) v position with
  | some loc => [loc]
  | none => (r.entering g id).filter fun loc => r.sites.contains (v, loc)

end Reaching

end DalvikDecompiler
