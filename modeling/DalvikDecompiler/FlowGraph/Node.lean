import DalvikDecompiler.Digraph.Basic
import DalvikDecompiler.Symbolic.Instr

/-!
# Nodes of a flow graph

**Input.** A basic block of a method, the way it ends, and what structuring
has found out about it.

A node of any kind may be the head of a loop; its kind is then wrapped, and
questions about the way it ends look at the kind inside.
-/

namespace DalvikDecompiler

open Symbolic (VarId Instr)

/-- The place of an instruction.  Those of a method are numbered from zero; the arguments are
defined at negative places. -/
abbrev Loc := Int

/-- The two targets of a branch. -/
structure BranchTargets where
  onTrue : NodeId
  onFalse : NodeId
  deriving DecidableEq, Repr

/-- Whether a node is one of the targets. -/
def BranchTargets.contains (b : BranchTargets) (node : NodeId) : Bool :=
  b.onTrue == node || b.onFalse == node

/-- Change both targets. -/
def BranchTargets.remap (f : NodeId → NodeId) (b : BranchTargets) : BranchTargets :=
  { onTrue := f b.onTrue, onFalse := f b.onFalse }

/-- The targets of a switch. -/
structure SwitchTable where
  keys : List Int32
  /-- The targets; before they are ordered, the fall-through comes first and then one target per
  key. -/
  cases : List NodeId
  /-- Where a selector without a key goes. -/
  fallback : Option NodeId
  /-- The targets with their keys. -/
  arms : List (NodeId × List Int32)
  deriving DecidableEq, Repr

namespace SwitchTable

/-- The targets of a switch that have not been ordered. -/
def unordered (keys : List Int32) (cases : List NodeId) : SwitchTable :=
  { keys, cases, fallback := none, arms := [] }

/-- The keys that go to a node. -/
def keysOf (s : SwitchTable) (node : NodeId) : List Int32 :=
  (s.arms.lookup node).getD []

/-- Add a key to the arm of its target. -/
def addKey (arms : List (NodeId × List Int32)) (entry : Int32 × NodeId) :
    List (NodeId × List Int32) :=
  OrderedMap.insert entry.2 ((arms.lookup entry.2).getD [] ++ [entry.1]) arms

/-- Take the fall-through off the targets if there is one more of them than keys, and list each
target once, with its keys in order. -/
def order (s : SwitchTable) : SwitchTable :=
  let (fallback, cases) :=
    match s.cases with
    | [] => (s.fallback, [])
    | first :: rest =>
        if s.keys.length < s.cases.length then (some first, rest) else (s.fallback, first :: rest)
  { keys := s.keys
    cases := OrderedSet.ofList cases
    fallback
    arms := (s.keys.zip cases).foldl addKey [] }

/-- Change all targets. -/
def remap (f : NodeId → NodeId) (s : SwitchTable) : SwitchTable :=
  { s with
    cases := s.cases.map f
    fallback := s.fallback.map f
    arms := s.arms.map fun (node, keys) => (f node, keys) }

end SwitchTable

/-- Two conditions that are tested one after the other. -/
structure ShortCircuit where
  first : NodeId
  second : NodeId
  /-- Both conditions have to hold; otherwise one is enough. -/
  isAnd : Bool
  /-- The first condition counts negated. -/
  isNot : Bool
  branches : BranchTargets
  deriving DecidableEq, Repr

/-- Where the condition of a loop is tested. -/
inductive LoopTest where
  | preTest | postTest | endless
  deriving DecidableEq, Repr

/-- The name of a loop type. -/
def LoopTest.name : LoopTest → String
  | .preTest => "pretest"
  | .postTest => "posttest"
  | .endless => "endless"

/-- How a node ends. -/
inductive NodeKind where
  | statement
  | ret
  | throw
  | conditional (branches : BranchTargets)
  | switch (cases : SwitchTable)
  | shortCircuit (condition : ShortCircuit)
  | loop (inner : NodeKind) (type : LoopTest)
  | tryBlock (start : NodeId) (catches : List NodeId) (follow : Option NodeId)
  | catchBlock (start : NodeId) (binding : Option VarId) (type : Option String)
  deriving DecidableEq, Repr

namespace NodeKind

/-- The kind without the loops around it. -/
def base : NodeKind → NodeKind
  | .loop inner _ => inner.base
  | kind => kind

/-- The targets of a two-way node. -/
def targets? : NodeKind → Option BranchTargets
  | .loop inner _ => inner.targets?
  | .conditional b => some b
  | .shortCircuit sc => some sc.branches
  | _ => none

/-- The targets of a switch. -/
def switch? : NodeKind → Option SwitchTable
  | .loop inner _ => inner.switch?
  | .switch cases => some cases
  | _ => none

/-- Change the targets of a switch. -/
def mapSwitch (f : SwitchTable → SwitchTable) : NodeKind → NodeKind
  | .loop inner type => .loop (inner.mapSwitch f) type
  | .switch cases => .switch (f cases)
  | kind => kind

/-- Whether the node has two ways on. -/
def isCond (kind : NodeKind) : Bool :=
  kind.targets?.isSome

/-- Whether the node is a switch. -/
def isSwitch (kind : NodeKind) : Bool :=
  kind.switch?.isSome

/-- Whether the node leaves the method with or without a value. -/
def isReturn (kind : NodeKind) : Bool :=
  kind.base == .ret

/-- Whether the node is the head of a loop. -/
def isLoop : NodeKind → Bool
  | .loop .. => true
  | _ => false

/-- Whether the node leaves the method, so that it may be written more than once. -/
def isExit (kind : NodeKind) : Bool :=
  kind.base == .ret || kind.base == .throw

/-- The name of a kind. -/
def label : NodeKind → String
  | .statement => "statement"
  | .ret => "return"
  | .throw => "throw"
  | .conditional _ => "cond"
  | .switch _ => "switch"
  | .shortCircuit _ => "short-circuit"
  | .loop .. => "loop"
  | .tryBlock .. => "try"
  | .catchBlock .. => "catch"

/-- Change the nodes that a kind refers to.  The two conditions of a short circuit and the
handlers of a protected region stay, since they are reached through this node only. -/
def remap (f : NodeId → NodeId) : NodeKind → NodeKind
  | .statement => .statement
  | .ret => .ret
  | .throw => .throw
  | .conditional b => .conditional (b.remap f)
  | .switch cases => .switch (cases.remap f)
  | .shortCircuit sc => .shortCircuit { sc with branches := sc.branches.remap f }
  | .loop inner type => .loop (inner.remap f) type
  | .tryBlock start catches follow => .tryBlock (f start) catches (follow.map f)
  | .catchBlock start binding type => .catchBlock (f start) binding type

end NodeKind

/-- A node of a flow graph. -/
structure Node where
  name : String
  kind : NodeKind
  ins : List Instr
  /-- The places of the instructions. -/
  locs : List Loc
  /-- The offset of the code the node was made from. -/
  start : UInt32
  /-- The position in reverse postorder, zero if the node cannot be reached. -/
  num : Nat
  /-- The variables to declare in front of the node. -/
  declares : List VarId
  /-- Where the branches of the node come together. -/
  ifFollow : Option NodeId
  /-- Where the arms of the switch come together. -/
  switchFollow : Option NodeId
  /-- What follows the loop around the node. -/
  loopFollow : Option NodeId
  /-- Whether a loop starts here. -/
  startsLoop : Bool
  /-- The node that leads back to the start of the loop. -/
  latch : Option NodeId
  /-- The nodes of the loop that starts here. -/
  loopNodes : List NodeId
  /-- Whether the node is reached by way of handlers only. -/
  inCatch : Bool
  /-- The type of the exceptions handled here. -/
  catchType : Option String
  deriving Repr

namespace Node

/-- A node that nothing is known about. -/
def plain (name : String) (kind : NodeKind) : Node :=
  { name
    kind
    ins := []
    locs := []
    start := 0
    num := 0
    declares := []
    ifFollow := none
    switchFollow := none
    loopFollow := none
    startsLoop := false
    latch := none
    loopNodes := []
    inCatch := false
    catchType := none }

/-- A node with the surroundings of another one, but without its code. -/
def shell (other : Node) (name : String) (kind : NodeKind) : Node :=
  { other with name, kind, ins := [], locs := [], declares := [] }

/-- Declare a variable in front of the node. -/
def declare (n : Node) (v : VarId) : Node :=
  { n with declares := OrderedSet.insert n.declares v }

/-- Change the nodes that a node refers to. -/
def remap (f : NodeId → NodeId) (n : Node) : Node :=
  { n with
    kind := n.kind.remap f
    ifFollow := n.ifFollow.map f
    switchFollow := n.switchFollow.map f
    loopFollow := n.loopFollow.map f
    latch := n.latch.map f
    loopNodes := OrderedSet.ofList (n.loopNodes.map f) }

/-- Refer to another node instead of a given one. -/
def retarget (n : Node) (old new : NodeId) : Node :=
  n.remap fun node => if node = old then new else node

end Node

end DalvikDecompiler
