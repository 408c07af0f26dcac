import DalvikDecompiler.Chains.Basic

/-!
# Webs

**Input.** A flow graph with its chains.

**Algorithm.** A register may hold unrelated values one after another.
Definitions of a register that share a use belong to one web.  A register with
several webs is split: each web without an argument gets a variable of its
own, without a type.
-/

namespace DalvikDecompiler

open Symbolic (VarId Variables Expr Instr)

/-- Definitions of a variable that are connected by shared uses. -/
structure Web where
  defs : List Loc
  uses : List Loc
  deriving DecidableEq, Repr

namespace Web

/-- A web that is still growing, with the definitions whose uses have not been followed. -/
structure Growth where
  web : Web
  pending : List Loc

/-- Take a definition into a web. -/
def Growth.addDef (s : Growth) (definition : Loc) : Growth :=
  if s.web.defs.contains definition then
    s
  else
    { web := { s.web with defs := s.web.defs ++ [definition] }
      pending := definition :: s.pending }

/-- Take a use into a web, with the definitions that supply it. -/
def Growth.addUse (c : Chains) (v : VarId) (s : Growth) (use : Loc) : Growth :=
  if s.web.uses.contains use then
    s
  else
    (c.defs v use).foldl addDef { s with web := { s.web with uses := s.web.uses ++ [use] } }

/-- Follow the definitions of a web, at most `steps` of them. -/
def grow (c : Chains) (v : VarId) : Nat → Growth → Web
  | 0, s => s.web
  | steps + 1, s =>
      match s.pending with
      | [] => s.web
      | definition :: pending =>
          grow c v steps ((c.uses v definition).foldl (Growth.addUse c v) { s with pending })

/-- The web of a definition.  Each definition in it is the first one or supplies a use. -/
def ofDef (c : Chains) (v : VarId) (definition : Loc) : Web :=
  let bound := Natural.total (c.defsAt.map fun entry => entry.2.length) + 2
  grow c v bound { web := { defs := [definition], uses := [] }, pending := [definition] }

/-- Add the web of a definition to the webs of its variable, unless it is among them. -/
def collect (c : Chains) (vars : Variables) (found : List (VarId × List Web)) (site : DefSite) :
    List (VarId × List Web) :=
  let (v, definition) := site
  if (vars.get? v).any Symbolic.Variable.isRegister then
    let webs := (found.lookup v).getD []
    if webs.any fun web => web.defs.contains definition then
      found
    else
      OrderedMap.insert v (webs ++ [ofDef c v definition]) found
  else
    found

/-- The webs of all registers with a used definition. -/
def all (c : Chains) (vars : Variables) : List (VarId × List Web) :=
  c.definitionsInUse.foldl (collect c vars) []

end Web

/-- A graph with its variables and chains. -/
structure Splitting where
  graph : FlowGraph
  vars : Variables
  chains : Chains

namespace Splitting

/-- Give the definitions and uses of a web another variable. -/
def rename (s : Splitting) (old new : VarId) (web : Web) : Splitting :=
  let graph := web.defs.foldl
    (fun g definition => g.modifyInstr definition fun ins => ins.replaceTarget new) s.graph
  { s with
    graph := web.uses.foldl
      (fun g use => g.modifyInstr use fun ins => ins.substitute old (.var new)) graph
    chains := web.defs.foldl (fun c definition => c.reassign old definition new) s.chains }

/-- Give a web a variable of its own, unless it holds an argument. -/
def separate (v : VarId) (s : Splitting) (entry : Web × Nat) : Splitting :=
  let (web, version) := entry
  if web.defs.any fun definition => definition < 0 then
    s
  else
    let (new, vars) := s.vars.addSplit v version
    let vars := vars.modify new fun fresh => { fresh with type := none }
    { s with vars }.rename v new web

/-- Separate the webs of all variables that have several, and say how many such variables there
are. -/
def run (s : Splitting) : Nat × Splitting :=
  let several := (Web.all s.chains s.vars).filter fun entry => 2 ≤ entry.2.length
  (several.length,
    several.foldl (fun s entry => entry.2.zipIdx.foldl (separate entry.1) s) s)

end Splitting

end DalvikDecompiler
