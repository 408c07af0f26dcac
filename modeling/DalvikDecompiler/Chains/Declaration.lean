import DalvikDecompiler.Chains.Basic
import DalvikDecompiler.FlowGraph.Edit

/-!
# Places of declarations

**Input.** A flow graph with its variables, chains and dominator tree.

**Algorithm.** A variable whose used definitions outside of handlers lie in
several nodes, none of which dominates the others, is declared in their
nearest common dominator.
-/

namespace DalvikDecompiler

open Symbolic (VarId Variables)

namespace Declaration

/-- The node of a definition, unless it is in a handler. -/
def nodeOf? (g : FlowGraph) (vars : Variables) (site : DefSite) : Option NodeId :=
  if site.2 < 0 || vars.isParam site.1 then
    none
  else
    (g.nodeAt site.2).filter fun id => !(g.node id).inCatch

/-- The nodes that define each variable, in the order of variables and places. -/
def defNodes (g : FlowGraph) (vars : Variables) (c : Chains) : List (VarId × List NodeId) :=
  c.definitionsInUse.foldl
    (fun found site =>
      match nodeOf? g vars site with
      | none => found
      | some id =>
          OrderedMap.insert site.1 (OrderedSet.insert ((found.lookup site.1).getD []) id) found)
    []

/-- The node in which a variable with some defining nodes has to be declared, if it is none of
these. -/
def node? (tree : DominatorTree) (nodes : List NodeId) : Option NodeId :=
  (tree.commonDominatorOf nodes).filter fun id => !nodes.contains id

/-- The declarations to place. -/
def all (g : FlowGraph) (vars : Variables) (c : Chains) (tree : DominatorTree) : List Edit :=
  (defNodes g vars c).filterMap fun (v, nodes) => (node? tree nodes).map fun id => .declare id v

/-- Place all declarations, each in a slot that exists, and say how many there are. -/
def place? (g : FlowGraph) (vars : Variables) (c : Chains) (tree : DominatorTree) :
    Option (Nat × FlowGraph) := do
  let edits := all g vars c tree
  let g ← edits.foldlM Edit.perform? g
  return (edits.length, g)

/-- Place all declarations. -/
def place (g : FlowGraph) (vars : Variables) (c : Chains) (tree : DominatorTree) : FlowGraph :=
  (all g vars c tree).foldl Edit.perform g

end Declaration

end DalvikDecompiler
