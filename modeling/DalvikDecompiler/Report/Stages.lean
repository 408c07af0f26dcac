import DalvikDecompiler.Decompiled.Analysis
import DalvikDecompiler.Emission.Method
import DalvikDecompiler.FlowGraph.Drawing
import DalvikDecompiler.Java.Source
import DalvikDecompiler.Report.FlowGraph

/-!
# Reports on the stages of decompilation

What each stage of decompiling a method leaves behind, as JSON under the name
of the stage.
-/

namespace DalvikDecompiler

open Symbolic (Variables)

/-- The number of changes, the code and the chains after a stage. -/
def chainStageReport (count : Nat) (g : FlowGraph) (vars : Variables) (c : Chains) : Json :=
  .object [("count", .ofNat count), ("code", g.codeReport vars), ("chains", c.report)]

/-- The stages that work on instructions. -/
def Stages.codeReports (s : Stages) : List (String × Json) :=
  let vars := s.split.vars
  [("defuse", s.chains.report),
    ("split", .object
      [("count", .ofNat s.splitCount),
        ("code", s.split.graph.codeReport vars),
        ("vars", vars.report),
        ("chains", s.split.chains.report)]),
    ("dce", chainStageReport s.pruned.removed s.pruned.graph vars s.pruned.chains),
    ("propagation",
      chainStageReport s.propagated.moves s.propagated.graph vars s.propagated.chains),
    ("types", s.vars.report),
    ("declarations", .object
      [("count", .ofNat s.declarationCount),
        ("tree", s.earlyTree.report),
        ("declare", s.declared.declarationReport s.vars)])]

/-- The stages that work on the graph, given the events before them. -/
def Stages.graphReports (s : Stages) (events : EventLog) : List (String × Json) :=
  [("split_if", .object
      [("count", .ofNat s.branchCount),
        ("shape", s.branched.shapeReport),
        ("code", s.branched.codeReport s.vars)]),
    ("simplify", .object
      [("changed", .bool s.simplified), ("graph", s.clean.report s.vars)]),
    ("dominators", s.tree.report),
    ("derived", (s.clean.toDigraph.derivedSequence s.clean.order).report),
    ("structures", .object
      [("summary", s.structured.summary.report),
        ("graph", s.structured.graph.report s.vars),
        ("tree", s.structured.tree.report),
        ("events", EventLog.report (events ++ s.structured.events))])]

/-- A method that has been written. -/
def Emission.Result.report (r : Emission.Result) : Json :=
  .object
    [("text", .string (r.method.render 0)),
      ("comments", .ofStrings r.method.comments),
      ("visited", .ofNats (r.visited.mergeSort fun a b => a ≤ b)),
      ("vars", r.vars.report),
      ("interned", .ofNat r.naming.size)]

/-- All stages of decompiling a method, in order, with a bound on the passes of merging. -/
def stageReports (m : Bytecode.Method) (passes : Nat) :
    Except FlowError (List (String × Json)) := do
  let built := FlowGraph.ofMethod m (.ofMethod m) []
  let graph ← built.graph
  let stages := Stages.ofGraph graph built.vars m.returnType m.qualifiedName passes
  let found := stages.structured.graph
  let written := Emission.emit { method := m, skipSuper := true } found stages.vars .empty
  return ("construct", .object
      [("graph", graph.report built.vars),
        ("vars", built.vars.report),
        ("events", EventLog.report built.events)]) ::
    ("reaching", graph.reachingReport built.vars) ::
    (stages.codeReports ++ stages.graphReports built.events ++
      [("dot", .string (found.draw m.name stages.vars)), ("emit", written.report)])

end DalvikDecompiler
