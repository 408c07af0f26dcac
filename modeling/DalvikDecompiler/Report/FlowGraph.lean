import DalvikDecompiler.Chains.Basic
import DalvikDecompiler.Digraph.Dominator
import DalvikDecompiler.Digraph.Interval
import DalvikDecompiler.Json.Basic
import DalvikDecompiler.Region.Structure
import DalvikDecompiler.Symbolic.Instr

/-!
# Reports on graphs and their code

What is known about variables, intervals, nodes and chains, as JSON.
-/

/-!
## Reports on variables and instructions

What is known about variables, instructions and the values they assign, as
JSON.
-/

namespace DalvikDecompiler

namespace Json

/-- A list of texts. -/
def ofStrings (xs : List String) : Json :=
  .ofList .string xs

/-- A list of natural numbers. -/
def ofNats (xs : List Nat) : Json :=
  .ofList .ofNat xs

/-- A list of integers. -/
def ofInts (xs : List Int) : Json :=
  .ofList .ofInt xs

/-- A text, or nothing. -/
def ofText? (s : Option String) : Json :=
  .ofOption .string s

/-- A natural number, or nothing. -/
def ofNat? (n : Option Nat) : Json :=
  .ofOption .ofNat n

end Json

namespace Symbolic

/-- Name, type and state of each variable. -/
def Variables.report (vars : Variables) : Json :=
  .array (vars.ids.filterMap fun id => (vars.get? id).map fun v =>
    .array
      [.string (vars.name id), .ofText? v.type, .bool v.isParam, .bool v.isRegister,
        .bool v.declared])

/-- The properties of a value. -/
def Expr.report (vars : Variables) (e : Expr) : Json :=
  .object
    [("type", .ofText? (e.knownType vars)),
      ("is_reference", .bool (e.isReference vars)),
      ("used", .ofNats e.varsRead),
      ("side_effect", .bool e.hasEffect),
      ("reads_memory", .bool e.readsHeap),
      ("is_call", .bool e.isCall),
      ("is_const", .bool e.isConst),
      ("is_propagable", .bool e.isMovable),
      ("children", .ofNat e.children.length)]

/-- The text and the properties of an instruction. -/
def Instr.report (vars : Variables) (ins : Instr) : Json :=
  .object
    [("text", .string (ins.dumpText vars)),
      ("lhs", .ofNat? ins.target?),
      ("used", .ofNats ins.varsRead),
      ("side_effect", .bool ins.hasEffect),
      ("writes_memory", .bool ins.writesHeap),
      ("is_call", .bool ins.isCall),
      ("is_propagable", .bool ins.isMovable),
      ("is_const", .bool ins.isConst),
      ("is_conditional", .bool ins.isConditional),
      ("rhs", .ofOption (Expr.report vars) ins.value?)]

end Symbolic
end DalvikDecompiler

/-!
## Reports on dominators and intervals

Dominator trees, partitions into intervals and derived sequences, as JSON.
-/

namespace DalvikDecompiler

/-- The entry, and the parent and number of each slot. -/
def DominatorTree.report (tree : DominatorTree) : Json :=
  .object
    [("entry", .ofNat tree.entry),
      ("idom", .array (tree.entries.toList.map fun e =>
        .array [.ofNat? e.parent, .ofNat e.number]))]

namespace Digraph

/-- The intervals, the interval of each slot, and the graph of the intervals. -/
def Partition.report (p : Partition) : Json :=
  .object
    [("intervals", .array (p.intervals.map fun i =>
        .array [.ofNat i.head, .ofNats i.members, .ofNat? i.last])),
      ("interval_of", .array (p.intervalOf.toList.map Json.ofNat?)),
      ("reduced", .array ((List.range p.reduced.size).map fun n =>
        .ofNats (p.reduced.succs n)))]

/-- What each node of a level stands for, and its partition. -/
def DerivedLevel.report (level : DerivedLevel) : Json :=
  .object
    [("nodes", .array ((List.range level.graph.size).map fun n => .array
        [.ofNats (level.graph.preds n), .ofNat (level.number n), .ofNat (level.headOf n),
          .ofNat (level.lastOf n), .ofNats (level.nodesOf n)])),
      ("partition", level.partition.report)]

/-- The levels of a sequence, and whether it got stuck. -/
def DerivedSequence.report (s : DerivedSequence) : Json :=
  .object
    [("levels", .array (s.levels.map DerivedLevel.report)),
      ("irreducible", .bool s.irreducible)]

end Digraph
end DalvikDecompiler

/-!
## Reports on flow graphs

Nodes, edges, code, chains and summaries of flow graphs, as JSON.
-/

namespace DalvikDecompiler

open Symbolic (Variables Instr)

/-- The targets of a switch with their keys. -/
def SwitchTable.report (s : SwitchTable) : Json :=
  .object
    [("keys", .ofInts (s.keys.map Int32.toInt)),
      ("cases", .ofNats s.cases),
      ("default", .ofNat? s.fallback),
      ("node_to_case", .array (s.arms.map fun (id, keys) =>
        .array [.ofNat id, .ofInts (keys.map Int32.toInt)]))]

/-- What a kind of node refers to. -/
def NodeKind.references (vars : Variables) : NodeKind → List (String × Json)
  | .statement => []
  | .ret => []
  | .throw => []
  | .conditional b => [("on_true", .ofNat b.onTrue), ("on_false", .ofNat b.onFalse)]
  | .switch cases => [("switch", cases.report)]
  | .shortCircuit sc =>
      [("first", .ofNat sc.first),
        ("second", .ofNat sc.second),
        ("is_and", .bool sc.isAnd),
        ("is_not", .bool sc.isNot),
        ("on_true", .ofNat sc.branches.onTrue),
        ("on_false", .ofNat sc.branches.onFalse)]
  | .loop inner type =>
      [("loop_type", .string type.name),
        ("inner", .object (("label", .string inner.label) :: inner.references vars))]
  | .tryBlock start catches follow =>
      [("try_start", .ofNat start), ("catches", .ofNats catches), ("follow", .ofNat? follow)]
  | .catchBlock start binding type =>
      [("catch_start", .ofNat start),
        ("binding", .ofText? (binding.map vars.name)),
        ("ty", .ofText? type)]

/-- The name of a kind and what it refers to. -/
def NodeKind.report (vars : Variables) (kind : NodeKind) : Json :=
  .object (("label", .string kind.label) :: kind.references vars)

namespace FlowGraph

/-- The texts of the instructions of a node. -/
def codeTexts (g : FlowGraph) (vars : Variables) (id : NodeId) : Json :=
  .ofStrings ((g.node id).ins.map (Instr.dumpText vars))

/-- All that is known about a node. -/
def nodeReport (g : FlowGraph) (vars : Variables) (id : NodeId) : Json :=
  let n := g.node id
  .object
    [("id", .ofNat id),
      ("name", .string n.name),
      ("kind", n.kind.report vars),
      ("ins", g.codeTexts vars id),
      ("locs", .ofInts n.locs),
      ("start", .ofNat n.start.toNat),
      ("num", .ofNat n.num),
      ("declare", .ofStrings (n.declares.map vars.name)),
      ("if_follow", .ofNat? n.ifFollow),
      ("switch_follow", .ofNat? n.switchFollow),
      ("loop_follow", .ofNat? n.loopFollow),
      ("startloop", .bool n.startsLoop),
      ("latch", .ofNat? n.latch),
      ("loop_nodes", .ofNats n.loopNodes),
      ("in_catch", .bool n.inCatch),
      ("catch_type", .ofText? n.catchType),
      ("sucs", .ofNats (g.succs id)),
      ("preds", .ofNats (g.preds id)),
      ("catch_sucs", .ofNats (g.handlerSuccs id)),
      ("catch_preds", .ofNats (g.handlerPreds id))]

/-- All that is known about a graph. -/
def report (g : FlowGraph) (vars : Variables) : Json :=
  .object
    [("nodes", .array (g.liveIds.map (g.nodeReport vars))),
      ("entry", .ofNat g.entry),
      ("exit", .ofNat? g.exit),
      ("rpo", .ofNats g.order),
      ("len", .ofNat g.liveIds.length)]

/-- The numbers and edges of a graph. -/
def shapeReport (g : FlowGraph) : Json :=
  .object
    [("nodes", .array (g.liveIds.map fun id => .array
        [.ofNat id, .ofNat (g.node id).num, .ofNats (g.succs id), .ofNats (g.preds id),
          .ofNats (g.handlerSuccs id), .ofNats (g.handlerPreds id)])),
      ("entry", .ofNat g.entry),
      ("exit", .ofNat? g.exit),
      ("rpo", .ofNats g.order)]

/-- The instructions of a graph with their places. -/
def codeReport (g : FlowGraph) (vars : Variables) : Json :=
  .array (g.liveIds.map fun id =>
    .array [.ofNat id, .ofInts (g.node id).locs, g.codeTexts vars id])

/-- The declarations placed in front of nodes. -/
def declarationReport (g : FlowGraph) (vars : Variables) : Json :=
  .array ((g.liveIds.filter fun id => !(g.node id).declares.isEmpty).map fun id =>
    .array [.ofNat id, .ofStrings ((g.node id).declares.map vars.name)])

/-- The definitions that reach each node, and the definitions of each variable. -/
def reachingReport (g : FlowGraph) (vars : Variables) : Json :=
  let r := Reaching.compute g vars.params
  .object
    [("in", .array (g.order.map fun id => .array [.ofNat id, .ofInts (r.entering g id)])),
      ("defs", .array (vars.ids.map fun v => .ofInts (r.placesOf v)))]

end FlowGraph

/-- The uses of each definition, and the number of uses. -/
def Chains.report (c : Chains) : Json :=
  .object
    [("du", .array (c.definitionsInUse.map fun (v, d) =>
        .array [.ofNat v, .ofInt d, .ofInts (c.uses v d)])),
      ("use_count", .ofNat c.suppliedUses)]

/-- How much structure has been found. -/
def StructureCounts.report (s : StructureCounts) : Json :=
  .object
    [("loops", .ofNat s.loops),
      ("switches", .ofNat s.switches),
      ("short_circuits", .ofNat s.shortCircuits),
      ("tries", .ofNat s.tries),
      ("irreducible", .bool s.irreducible)]

/-- The texts of events. -/
def EventLog.report (log : EventLog) : Json :=
  .ofStrings (log.map Event.text)

/-- How often each kind of event occurs. -/
def EventLog.totals (log : EventLog) : Json :=
  .array (log.summary.map fun (kind, count) => .array [.string kind.name, .ofNat count])

end DalvikDecompiler
