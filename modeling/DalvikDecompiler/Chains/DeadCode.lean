import DalvikDecompiler.Chains.Basic

/-!
# Dead code

**Input.** A flow graph with its chains.

**Algorithm.** An instruction whose result has no use is removed, and then the
instructions that only supplied it.  A call stays and loses its result; any
other instruction with a side effect stays.  Each removal leaves one
instruction less, which bounds how far removals follow each other.
-/

namespace DalvikDecompiler

open Symbolic (VarId)

/-- A flow graph with its chains, and the number of instructions removed. -/
structure Pruning where
  graph : FlowGraph
  chains : Chains
  removed : Nat

namespace Pruning

/-- Remove the instruction at a place, and then those that only supplied it, in chains of at most
`depth` removals. -/
def removeDead : Nat → Pruning → Loc → Pruning
  | 0, s, _ => s
  | depth + 1, s, loc =>
      match s.graph.instrAt loc with
      | none => s
      | some ins =>
          if ins.isCall then
            { s with graph := s.graph.modifyInstr loc fun ins => ins.dropTarget }
          else if ins.hasEffect then
            s
          else
            let s : Pruning :=
              { s with graph := s.graph.removeInstr loc, removed := s.removed + 1 }
            ins.varsRead.foldl
              (fun s v =>
                let (definitions, chains) := s.chains.takeUse v loc
                definitions.foldl
                  (fun s definition =>
                    if 0 ≤ definition && !s.chains.isUsed v definition then
                      removeDead depth s definition
                    else
                      s)
                  { s with chains })
              s

/-- Remove the instruction at a place if it defines something that has no use. -/
def removeUnused (s : Pruning) (loc : Loc) : Pruning :=
  match (s.graph.instrAt loc).bind Symbolic.Instr.target? with
  | none => s
  | some v => if s.chains.isUsed v loc then s else removeDead (s.graph.instrCount + 1) s loc

/-- Remove all dead code. -/
def run (graph : FlowGraph) (chains : Chains) : Pruning :=
  graph.order.foldl
    (fun s id => (s.graph.node id).locs.foldl removeUnused s)
    { graph, chains, removed := 0 }

end Pruning

end DalvikDecompiler
