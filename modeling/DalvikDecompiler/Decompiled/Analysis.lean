import DalvikDecompiler.Chains.DeadCode
import DalvikDecompiler.Chains.Declaration
import DalvikDecompiler.Chains.Propagation
import DalvikDecompiler.Chains.Typing
import DalvikDecompiler.Chains.Web
import DalvikDecompiler.FlowGraph.Cleanup
import DalvikDecompiler.FlowGraph.OfMethod
import DalvikDecompiler.Region.Structure

/-!
# Analysis

The stages of analysis, and how they run on a method.
-/

/-!
## Stages of analysis

**Input.** The flow graph of a method and its variables.

**Algorithm.** Registers are split into webs, dead code is removed, values are
propagated, types are inferred and declarations are placed. Then the graph is
cleaned up and its structure is found.

**Results.** `Stages` holds what each of these leaves behind.
-/

namespace DalvikDecompiler

open Symbolic (Variables)

/-- What each stage of analysis leaves behind. -/
structure Stages where
  /-- The chains of the graph as it was built. -/
  chains : Chains
  /-- The number of variables that were split. -/
  splitCount : Nat
  split : Splitting
  pruned : Pruning
  propagated : Propagation
  /-- The variables with their types. -/
  vars : Variables
  /-- The dominator tree for placing declarations. -/
  earlyTree : DominatorTree
  /-- The number of declarations placed. -/
  declarationCount : Nat
  declared : FlowGraph
  /-- The number of branch nodes that were split. -/
  branchCount : Nat
  branched : FlowGraph
  /-- Whether simplification changed something. -/
  simplified : Bool
  clean : FlowGraph
  /-- The dominator tree of the graph after cleaning up. -/
  tree : DominatorTree
  structured : Structured

/-- Run all stages on the graph of a method with a given result type and name, with a bound on the
passes of merging. -/
def Stages.ofGraph (graph : FlowGraph) (vars : Variables) (returns name : String) (passes : Nat) :
    Stages :=
  let chains := Chains.ofGraph graph vars.params
  let (splitCount, split) := Splitting.run { graph, vars, chains }
  let pruned := Pruning.run split.graph split.chains
  let propagated := Propagation.run pruned.graph pruned.chains
  let vars := Typing.infer propagated.graph returns split.vars
  let earlyTree := propagated.graph.dominatorTree
  let declared := Declaration.place propagated.graph vars propagated.chains earlyTree
  let (branchCount, branched) := declared.splitBranches
  let (simplified, simple) := branched.compact
  let clean := simple.reorder
  let tree := clean.dominatorTree
  { chains
    splitCount
    split
    pruned
    propagated
    vars
    earlyTree
    declarationCount := (Declaration.all propagated.graph vars propagated.chains earlyTree).length
    declared
    branchCount
    branched
    simplified
    clean
    tree
    structured := clean.structured tree passes name }

end DalvikDecompiler

/-!
## Analysed methods

**Input.** A method with a body.

**Algorithm.** The flow graph is built and goes through all stages of
analysis.

**Results.** A structured flow graph, or the reason why there is none.  Events
are kept in either case.
-/

namespace DalvikDecompiler

open Symbolic (Variables)

/-- How a method is decompiled. -/
structure Options where
  /-- The time allowed for a method in milliseconds.  A limit of zero is used up by the first
  check; no other limit is ever reached. -/
  timeLimit : Option Nat
  /-- Whether to give the syntax tree. -/
  keepTree : Bool
  /-- Whether to give the source text. -/
  keepText : Bool
  /-- The number of passes allowed for merging conditions. -/
  passes : Nat
  /-- Whether a call of the superclass constructor without arguments is left out. -/
  skipSuper : Bool
  deriving DecidableEq, Repr

namespace Options

/-- Both outputs, without a limit on time. -/
def standard : Options :=
  { timeLimit := none, keepTree := true, keepText := true, passes := 64, skipSuper := true }

/-- Whether the time is used up at the first check. -/
def isOutOfTime (o : Options) : Bool :=
  o.timeLimit == some 0

end Options

/-- Why a method cannot be decompiled. -/
inductive DecompileError where
  | flow (error : FlowError)
  | timeout (method stage : String)
  deriving DecidableEq, Repr

namespace DecompileError

/-- The wording of an error. -/
def message : DecompileError → String
  | .flow error => error.message
  | .timeout method stage => "Decompilation of " ++ method ++ " timed out after " ++ stage

/-- The kind of an error. -/
def kind : DecompileError → String
  | .flow .noBlocks => "Empty"
  | .flow (.noSuccessor _) => "Invariant"
  | .flow _ => "Malformed"
  | .timeout .. => "Timeout"

/-- The text of an error in reports: faults of the code are introduced by their kind. -/
def text (e : DecompileError) : String :=
  match e with
  | .flow .noBlocks => e.message
  | .flow _ => e.kind ++ ": " ++ e.message
  | .timeout .. => e.message

end DecompileError

/-- A method after analysis. -/
structure Analysis where
  graph : FlowGraph
  vars : Variables
  tree : DominatorTree
  summary : StructureCounts

/-- An outcome with the events on the way to it. -/
structure Outcome (α : Type) where
  result : Except DecompileError α
  events : EventLog

namespace Analysis

/-- Analyse a method. -/
def ofMethod (options : Options) (m : Bytecode.Method) : Outcome Analysis :=
  let built := FlowGraph.ofMethod m (.ofMethod m) []
  match built.graph with
  | .error e => { result := .error (.flow e), events := built.events }
  | .ok graph =>
      if options.isOutOfTime then
        { result := .error (.timeout m.qualifiedName "construction"), events := built.events }
      else
        let stages := Stages.ofGraph graph built.vars m.returnType m.qualifiedName options.passes
        let found := stages.structured
        { result := .ok
            { graph := found.graph
              vars := stages.vars
              tree := found.tree
              summary := found.summary }
          events := built.events ++ found.events }

end Analysis

end DalvikDecompiler
