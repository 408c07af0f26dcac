import DalvikDecompiler.Chains.Basic
import DalvikDecompiler.Digraph.Basic

/-!
# Propagation of values

**Input.** A flow graph with its chains.

**Algorithm.** A use that one definition supplies may read the value of that
definition itself.  A constant may be copied to any number of uses.  Any other
value may move to a single use, if nothing on the way there changes what it
reads or has an effect that it must not pass, and if it is evaluated in the
same order as before within the instruction that uses it.  A definition
without uses left is removed.  Every move takes away a read of a variable,
which bounds the number of rounds.
-/

namespace DalvikDecompiler

open Symbolic (VarId Expr Instr)

namespace Symbolic

namespace Expr

mutual

/-- The operands evaluated in front of the first read of a variable, if there is one. -/
def evaluatedBefore (id : VarId) : Expr → Option (List Expr)
  | .var other => if other = id then some [] else none
  | .const _ => none
  | .newInstance _ => none
  | .staticFieldRead _ => none
  | .unary _ operand _ => evaluatedBefore id operand
  | .cast _ operand => evaluatedBefore id operand
  | .checkCast _ operand => evaluatedBefore id operand
  | .instanceOf _ operand => evaluatedBefore id operand
  | .arrayLength array => evaluatedBefore id array
  | .newArray _ size => evaluatedBefore id size
  | .fieldRead object _ => evaluatedBefore id object
  | .binary _ left right _ =>
      (evaluatedBefore id left).or ((evaluatedBefore id right).map (left :: ·))
  | .compare _ left right =>
      (evaluatedBefore id left).or ((evaluatedBefore id right).map (left :: ·))
  | .arrayRead array index _ =>
      (evaluatedBefore id array).or ((evaluatedBefore id index).map (array :: ·))
  | .filledArray _ elements => evaluatedBeforeIn id elements
  | .staticCall _ args => evaluatedBeforeIn id args
  | .call _ _ receiver args =>
      (evaluatedBefore id receiver).or ((evaluatedBeforeIn id args).map (receiver :: ·))

/-- The operands evaluated in front of the first read of a variable in a list of operands. -/
def evaluatedBeforeIn (id : VarId) : List Expr → Option (List Expr)
  | [] => none
  | e :: rest => (evaluatedBefore id e).or ((evaluatedBeforeIn id rest).map (e :: ·))

end

/-- Whether a value must not be evaluated behind another one: calls stay in order, and so do calls
and reads of the heap. -/
def mustPrecede (value other : Expr) : Bool :=
  if value.hasEffect then
    other.hasEffect || other.readsHeap
  else
    value.readsHeap && other.hasEffect

end Expr

/-- Whether a value may be evaluated where an instruction reads a variable: no operand in front of
it has to come behind. -/
def Instr.preservesOrder (ins : Instr) (id : VarId) (value : Expr) : Bool :=
  match Expr.evaluatedBeforeIn id ins.operands with
  | some earlier => !earlier.any value.mustPrecede
  | none => true

/-- Whether an instruction keeps a value from moving past it. -/
def Instr.blocks (value : Expr) (ins : Instr) : Bool :=
  ins.target?.any value.varsRead.contains ||
    ((value.hasEffect || value.readsHeap || !value.varsRead.isEmpty) && ins.hasEffect)

end Symbolic

namespace FlowGraph

/-- The nodes on walks from one node to another, both left out. -/
def innerNodes (g : FlowGraph) (source target : NodeId) : List NodeId :=
  let inner := (List.range g.size).filter fun id => id != source && id != target
  Digraph.search g.flowPreds inner (g.flowPreds target).reverse

/-- Whether such a walk may come back to its end without passing its start. -/
def reenters (g : FlowGraph) (source target : NodeId) : Bool :=
  source != target &&
    (target :: g.innerNodes source target).any fun id => (g.flowPreds id).contains target

/-- Whether a value can move between two positions: nothing that may run in between blocks it. -/
def isUndisturbedBetween (g : FlowGraph) (value : Expr) (defNode : NodeId) (defPosition : Nat)
    (useNode : NodeId) (usePosition : Nat) : Bool :=
  let source := (g.node defNode).ins
  let target := (g.node useNode).ins
  if defNode = useNode ∧ defPosition < usePosition then
    !((source.take usePosition).drop (defPosition + 1)).any (Instr.blocks value)
  else
    let reenters := g.reenters defNode useNode
    !(source.drop (defPosition + 1)).any (Instr.blocks value)
      && !(reenters && (value.hasEffect || value.readsHeap))
      && !(g.innerNodes defNode useNode).any (fun id => (g.node id).ins.any (Instr.blocks value))
      && !(if reenters then target else target.take usePosition).any (Instr.blocks value)

/-- Whether a value can move from the place that computes it to a place that uses it. -/
def isUndisturbed (g : FlowGraph) (value : Expr) (definition use : Loc) : Bool :=
  match g.nodeAt definition, g.nodeAt use with
  | some defNode, some useNode =>
      match (g.node defNode).locs.idxOf? definition, (g.node useNode).locs.idxOf? use with
      | some defPosition, some usePosition =>
          g.isUndisturbedBetween value defNode defPosition useNode usePosition
      | _, _ => false
  | _, _ => false

/-- The number of reads of variables. -/
def readCount (g : FlowGraph) : Nat :=
  Natural.total (g.slots.toList.map fun slot =>
    Natural.total (slot.node.ins.map fun ins => ins.reads.length))

end FlowGraph

/-- A value that may move from its definition to a use. -/
structure Move where
  source : Loc
  target : VarId
  value : Expr

/-- A flow graph with its chains, and the number of moves made. -/
structure Propagation where
  graph : FlowGraph
  chains : Chains
  moves : Nat

namespace Propagation

/-- The value that an instruction gives to a variable, if it may move. -/
def movable? (g : FlowGraph) (v : VarId) (definition : Loc) : Option Expr := do
  let ins ← g.instrAt definition
  if ins.isMovable && ins.target? == some v then ins.value? else none

/-- The move of a variable's value into an instruction that reads it, if it is allowed. -/
def moveOf? (s : Propagation) (use : Loc) (ins : Instr) (v : VarId) : Option Move :=
  match s.chains.defs v use with
  | [source] =>
      if source < 0 ∨ source = use then
        none
      else
        match movable? s.graph v source with
        | none => none
        | some value =>
            let single := (s.chains.uses v source).length ≤ 1 && ins.readsOf v ≤ 1
            if value.isConst || (single && s.graph.isUndisturbed value source use
                && ins.preservesOrder v value) then
              some { source, target := v, value }
            else
              none
  | _ => none

/-- Link a use with the definitions that a moved operand had. -/
def inherit (source use : Loc) (c : Chains) (operand : VarId) : Chains :=
  (c.defs operand source).foldl (fun c definition => c.link operand definition use) c

/-- Make a move. -/
def apply (s : Propagation) (use : Loc) (move : Move) : Propagation :=
  let graph := s.graph.modifyInstr use fun ins => ins.substitute move.target move.value
  let operands := OrderedSet.ofList move.value.varsRead
  let chains := operands.foldl (inherit move.source use)
    (s.chains.unlink move.target move.source use)
  if chains.isUsed move.target move.source then
    { graph, chains, moves := s.moves + 1 }
  else
    { graph := graph.removeInstr move.source
      chains := operands.foldl (fun c operand => (c.takeUse operand move.source).2) chains
      moves := s.moves + 1 }

/-- Make the first move into an instruction that is allowed. -/
def moveInto (s : Propagation) (use : Loc) : Propagation :=
  match s.graph.instrAt use with
  | none => s
  | some ins =>
      match ins.varsRead.findSome? (s.moveOf? use ins) with
      | none => s
      | some move => s.apply use move

/-- Try to move values into all instructions. -/
def round (s : Propagation) : Propagation :=
  s.graph.order.foldl (fun s id => (s.graph.node id).locs.foldl moveInto s) s

/-- Repeat rounds until one makes no move. -/
def rounds : Nat → Propagation → Propagation
  | 0, s => s
  | bound + 1, s =>
      let next := s.round
      if next.moves = s.moves then next else rounds bound next

/-- Make all moves. -/
def run (graph : FlowGraph) (chains : Chains) : Propagation :=
  rounds (graph.readCount + 1) { graph, chains, moves := 0 }

end Propagation

end DalvikDecompiler
