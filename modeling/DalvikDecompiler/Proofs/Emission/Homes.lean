import DalvikDecompiler.Proofs.Emission.Declarations
import DalvikDecompiler.Proofs.Emission.Layout

/-!
# Where variables are at home

While the code of a node is written, one goes on to other nodes: to those that it leads to, to those
that stand behind the statement that it starts, and to handlers.  A variable that is mentioned
anywhere has to be declared at its home, on each of these ways.

The ways of writing are more than the edges of the flow graph: from the head of a loop one comes
directly to what follows the loop, and to the condition at its end.  A home that dominates in the
flow graph may therefore be passed by here.

**Results.**
* `Homes`: what makes declarations at home good for all mentions.
* `Homes.not_settles`: what is at home at a condition is declared in front of it.
* `Homes.of_front`: what is declared in front of the entry is at home there.
-/

namespace DalvikDecompiler

open Symbolic (VarId Variables Instr)

namespace FlowGraph

/-- The instructions that are written as statements of a node. -/
def ownCode (g : FlowGraph) (n : NodeId) : List Instr :=
  match (g.node n).kind.base with
  | .statement | .ret | .throw => (g.node n).ins
  | .switch _ => (g.node n).ins.dropLast
  | _ => []

/-- The instructions that the condition of a node is made of; for a switch, that of its selector.
The number of slots bounds the depth. -/
def testsWithin (g : FlowGraph) : Nat → NodeId → List Instr
  | 0, _ => []
  | depth + 1, n =>
      match (g.node n).kind.base with
      | .shortCircuit sc => g.testsWithin depth sc.first ++ g.testsWithin depth sc.second
      | _ => (g.node n).ins.getLast?.toList

/-- The instructions that the condition of a node is made of. -/
def tests (g : FlowGraph) (n : NodeId) : List Instr :=
  g.testsWithin (g.size + 1) n

/-- A handler that binds the exception to a variable. -/
def Binds (g : FlowGraph) (handler : NodeId) (v : VarId) : Prop :=
  ∃ start type, (g.node handler).kind = .catchBlock start (some v) type

end FlowGraph

namespace Emission

section Ways

variable (g : FlowGraph)

/-- The code of a node may be written while that of another one is. -/
inductive GoesOn (n m : NodeId) : Prop
  | straight
      (hkind : (g.node n).kind.base = .statement) (hnext : g.succs n = [m])
  | branch {b : BranchTargets}
      (htargets : (g.node n).kind.targets? = some b) (hmem : m = b.onTrue ∨ m = b.onFalse)
  | join {b : BranchTargets}
      (htargets : (g.node n).kind.targets? = some b) (hfollow : (g.node n).ifFollow = some m)
  | arm {cases : SwitchTable}
      (hkind : (g.node n).kind.base = .switch cases)
      (hmem : m ∈ cases.cases ∨ cases.fallback = some m)
  | behindSwitch {cases : SwitchTable}
      (hkind : (g.node n).kind.base = .switch cases) (hfollow : (g.node n).switchFollow = some m)
  | behindLoop
      (hkind : (g.node n).kind.isLoop = true) (hfollow : (g.node n).loopFollow = some m)
  | latch {inner : NodeKind} {type : LoopTest}
      (hloop : Inside (.loop inner type) (g.node n).kind) (huntested : type ≠ .postTest)
      (hlatch : (g.node n).latch = some m)
  | region {start : NodeId} {catches : List NodeId} {follow : Option NodeId}
      (hkind : (g.node n).kind.base = .tryBlock start catches follow)
      (hmem : m = start ∨ follow = some m)
  | handler {binding : Option VarId} {type : Option String}
      (hkind : (g.node n).kind.base = .catchBlock m binding type)

/-- A handler belongs to a protected region. -/
inductive Catches (n m : NodeId) : Prop
  | mk {start : NodeId} {catches : List NodeId} {follow : Option NodeId}
      (hkind : (g.node n).kind.base = .tryBlock start catches follow) (hmem : m ∈ catches)

/-- The condition of a node is tested at the end of a loop. -/
inductive TestedBehind (n m : NodeId) : Prop
  | mk {inner : NodeKind}
      (hloop : Inside (.loop inner .postTest) (g.node n).kind) (hlatch : (g.node n).latch = some m)
      (hcond : (g.node m).kind.isCond = true)

/-- The ways from a node to another one while code is written. -/
inductive Way (n m : NodeId) : Prop
  | goesOn (h : GoesOn g n m)
  | catches (h : Catches g n m)
  | testedBehind (h : TestedBehind g n m)

/-- A node that is not only marked where it is met. -/
def Entered (n : NodeId) : Prop :=
  n = g.entry ∨ ∃ p, GoesOn g p n

/-- Each handler belongs to one region and to nothing else. -/
structure HandlersApart : Prop where
  nodup : ∀ {n start : NodeId} {catches : List NodeId} {follow : Option NodeId},
    (g.node n).kind.base = .tryBlock start catches follow → catches.Nodup
  owned : ∀ p q n, Catches g p n → Catches g q n → p = q
  apart : ∀ p n, Catches g p n → ¬ Entered g n

/-- What is written behind the block of the node that a loop starts with. -/
inductive Leaves (n m : NodeId) : Prop
  | follow (hkind : (g.node n).kind.isLoop = true) (hfollow : (g.node n).loopFollow = some m)
  | condition (htested : TestedBehind g n m)
  | nested {inner : NodeKind} {type outer : LoopTest}
      (hloop : Inside (.loop (.loop inner type) outer) (g.node n).kind)
      (hlatch : (g.node n).latch = some m)

variable (vars : Variables)

/-- The code or the condition of a node mentions a variable that is not an argument. -/
structure Mentions (n : NodeId) (v : VarId) : Prop where
  plain : vars.isParam v = false
  mention : (∃ ins ∈ g.ownCode n, v ∈ ins.reads ∨ ins.target? = some v) ∨
    ∃ ins ∈ g.tests n, v ∈ ins.reads

variable (home : VarId → NodeId)

/-- From a node one comes to a mention of a variable without coming to its home first. -/
inductive Needs : NodeId → VarId → Prop
  | here {n : NodeId} {v : VarId} (hmentions : Mentions g vars n v) : Needs n v
  | later {n m : NodeId} {v : VarId} (hway : Way g n m) (haway : home v ≠ m) (hneeds : Needs m v) :
      Needs n v

/-- Some code defines a variable before it reads it. -/
def DefinesFirst (v : VarId) : List Instr → Prop
  | [] => False
  | ins :: rest => v ∉ ins.reads ∧ (ins.target? = some v ∨ DefinesFirst v rest)

/-- Each variable has a home that lies on all ways to its mentions, where it is declared or defined
first; what is written behind the block of the home needs a declaration in front of it. -/
structure Homes : Prop where
  exits_end : ExitsEnd g
  handlers : HandlersApart g
  exists_of_mentions : ∀ n v, Mentions g vars n v → (vars.get? v).isSome = true
  undeclared : ∀ v, vars.isDeclared v = false
  placed : ∀ n, ∀ v ∈ (g.node n).declares, vars.isParam v = false → home v = n
  bound : ∀ n v, g.Binds n v → (vars.get? v).isSome = true ∧ vars.isParam v = false ∧ home v = n
  passed : ∀ v, Needs g vars home g.entry v → home v = g.entry
  entered : ∀ n v, Entered g n → home v = n → Needs g vars home n v →
    v ∈ (g.node n).declares ∨ DefinesFirst v (g.ownCode n)
  caught : ∀ p n v, Catches g p n → home v = n → Needs g vars home n v → g.Binds n v
  tested : ∀ n m v, TestedBehind g n m → home v = m → Mentions g vars m v → m = n
  outlives : ∀ n m v, Leaves g n m → home v = n → Needs g vars home m v →
    v ∈ (g.node n).declares

end Ways

section Static

variable {g : FlowGraph} {vars : Variables} {home : VarId → NodeId}
variable {n m : NodeId} {v : VarId}

theorem Needs.plain
    (h : Needs g vars home n v) :
    vars.isParam v = false := by
  induction h with
  | here hmentions => exact hmentions.plain
  | later _ _ _ ih => exact ih

theorem Needs.exists_mentions
    (h : Needs g vars home n v) :
    ∃ m, Mentions g vars m v := by
  induction h with
  | here hmentions => exact ⟨_, hmentions⟩
  | later _ _ _ ih => exact ih

theorem Homes.isSome_get?
    (homes : Homes g vars home)
    (h : Needs g vars home n v) :
    (vars.get? v).isSome = true := by
  obtain ⟨m, hmentions⟩ := h.exists_mentions
  exact homes.exists_of_mentions m v hmentions

/-- A variable of a node that is at home there without being declared in front. -/
def Settles (g : FlowGraph) (home : VarId → NodeId) (n : NodeId) (v : VarId) : Prop :=
  home v = n ∧ v ∉ (g.node n).declares

theorem ownCode_of_cond
    (h : (g.node n).kind.isCond = true) :
    g.ownCode n = [] := by
  have htargets (kind : NodeKind) : kind.targets? = kind.base.targets? := by
    induction kind with
    | loop inner type ih => exact ih
    | _ => rfl
  rw [NodeKind.isCond, htargets] at h
  unfold FlowGraph.ownCode
  cases hbase : (g.node n).kind.base <;> simp [hbase, NodeKind.targets?] at h ⊢

/-- A condition is written in the block of what stands in front of it. -/
theorem Homes.not_settles
    (homes : Homes g vars home)
    (hentered : Entered g n)
    (hcode : g.ownCode n = [])
    (h : Needs g vars home n v) :
    ¬ Settles g home n v := by
  rintro ⟨here, habsent⟩
  rcases homes.entered n v hentered here h with hfront | hfirst
  · exact habsent hfront
  · rw [hcode] at hfirst
    exact hfirst

/-- Variables that are declared in front of the entry are at home there. -/
theorem Homes.of_front
    (hexits_end : ExitsEnd g)
    (hunprotected : ∀ n start catches follow, (g.node n).kind.base ≠ .tryBlock start catches follow)
    (hunbound : ∀ n v, ¬ g.Binds n v)
    (hundeclared : ∀ v, vars.isDeclared v = false)
    (hmentioned : ∀ n v, Mentions g vars n v →
      (vars.get? v).isSome = true ∧ v ∈ (g.node g.entry).declares)
    (hplaced : ∀ n, ∀ v ∈ (g.node n).declares, vars.isParam v = false → g.entry = n)
    (htested : ∀ n, TestedBehind g n g.entry → g.entry = n) :
    Homes g vars fun _ => g.entry := by
  have hfront {n : NodeId} {v : VarId} (hneeds : Needs g vars (fun _ => g.entry) n v) :
      v ∈ (g.node g.entry).declares := by
    obtain ⟨m, hmentions⟩ := hneeds.exists_mentions
    exact (hmentioned m v hmentions).2
  have huncaught (p n : NodeId) : ¬ Catches g p n := fun ⟨hkind, _⟩ => hunprotected p _ _ _ hkind
  exact
    { exits_end := hexits_end
      handlers :=
        { nodup := fun hkind => absurd hkind (hunprotected _ _ _ _)
          owned := fun p _ n hcatches _ => absurd hcatches (huncaught p n)
          apart := fun p n hcatches => absurd hcatches (huncaught p n) }
      exists_of_mentions := fun n v hmentions => (hmentioned n v hmentions).1
      undeclared := hundeclared
      placed := hplaced
      bound := fun n v hbinds => absurd hbinds (hunbound n v)
      passed := fun _ _ => rfl
      entered := fun n v _ here hneeds => .inl (here ▸ hfront hneeds)
      caught := fun p n v hcatches => absurd hcatches (huncaught p n)
      tested := fun n m v hbehind here _ => by
        subst here
        exact htested n hbehind
      outlives := fun n m v _ here hneeds => here ▸ hfront hneeds }

end Static

end Emission
end DalvikDecompiler
