import DalvikDecompiler.Chains.DeadCode
import DalvikDecompiler.Chains.Declaration
import DalvikDecompiler.Chains.Propagation
import DalvikDecompiler.Chains.Web
import DalvikDecompiler.Proofs.FlowGraph.Places

/-!
# What analysis does to instructions

**Input.** A flow graph with its chains.

Splitting variables, removing dead code and propagating values change instructions at their places
one after another, or remove them.  Placing declarations changes what nodes declare.  Whatever the
chains say, nothing else happens to the graph.

**Results.**
* `Amends`: a graph whose instructions have been changed or removed one after another.
* `Splitting.run_amends`, `Pruning.run_amends`, `Propagation.run_amends`: the passes do no more.
* `Amends.exact`, `Amends.instrAt`: the index stays exact, and each instruction descends from the
  one that stood at its place before.
-/

namespace DalvikDecompiler

open Symbolic (Expr Instr VarId)

/-- What a pass of analysis may do to an instruction that stays. -/
inductive Revision : (Instr → Instr) → Prop
  | retarget (v : VarId) : Revision fun ins => ins.replaceTarget v
  | substitute (v : VarId) (value : Expr) : Revision fun ins => ins.substitute v value
  | dropTarget : Revision fun ins => ins.dropTarget

/-- An instruction has become another one by some revisions. -/
def Descends : Instr → Instr → Prop :=
  Relation.ReflTransGen fun ins ins' => ∃ f, Revision f ∧ f ins = ins'

namespace FlowGraph

/-- Instructions of a graph have been revised or removed one after another. -/
inductive Amends (g : FlowGraph) : FlowGraph → Prop
  | refl : Amends g g
  | modify {g' : FlowGraph} {f : Instr → Instr} (loc : Loc) (hbefore : Amends g g')
      (hrevision : Revision f) : Amends g (g'.modifyInstr loc f)
  | remove {g' : FlowGraph} (loc : Loc) (hbefore : Amends g g') : Amends g (g'.removeInstr loc)

section Amending

variable {g g' g'' : FlowGraph} {loc : Loc} {ins : Instr}

theorem Amends.trans
    (h : Amends g g')
    (h' : Amends g' g'') :
    Amends g g'' := by
  induction h' with
  | refl => exact h
  | modify loc _ hrevision ih => exact ih.modify loc hrevision
  | remove loc _ ih => exact ih.remove loc

theorem amends_modifyInstr
    {f : Instr → Instr}
    (hrevision : Revision f)
    (g : FlowGraph)
    (loc : Loc) :
    Amends g (g.modifyInstr loc f) :=
  Amends.refl.modify loc hrevision

theorem amends_removeInstr
    (g : FlowGraph)
    (loc : Loc) :
    Amends g (g.removeInstr loc) :=
  Amends.refl.remove loc

/-- Steps that each amend a graph amend it together. -/
theorem amends_foldl
    {σ α : Type}
    (graph : σ → FlowGraph)
    {step : σ → α → σ}
    (heach : ∀ s x, Amends (graph s) (graph (step s x)))
    (xs : List α)
    (s : σ) :
    Amends (graph s) (graph (xs.foldl step s)) := by
  induction xs generalizing s with
  | nil => exact .refl
  | cons x xs ih => exact (heach s x).trans (ih (step s x))

theorem Amends.retouches
    (h : Amends g g') :
    Retouches Recoded g g' := by
  induction h with
  | refl => exact .refl Recoded.refl g
  | modify loc _ _ ih => exact ih.trans Recoded.trans (retouches_modifyInstr _ loc _)
  | remove loc _ ih => exact ih.trans Recoded.trans (retouches_removeInstr _ loc)

theorem Amends.exact
    (h : Amends g g')
    (hexact : g.Exact) :
    g'.Exact := by
  induction h with
  | refl => exact hexact
  | modify loc _ _ ih => exact ih.modifyInstr loc _
  | remove loc _ ih => exact ih.removeInstr loc

/-- **Every instruction descends from the one that stood at its place.** -/
theorem Amends.instrAt
    (h : Amends g g')
    (hexact : g.Exact)
    (hfound : g'.instrAt loc = some ins) :
    ∃ before, g.instrAt loc = some before ∧ Descends before ins := by
  induction h generalizing ins with
  | refl => exact ⟨ins, hfound, .refl⟩
  | modify place hbefore hrevision ih =>
      rw [(hbefore.exact hexact).instrAt_modifyInstr] at hfound
      split at hfound
      · obtain ⟨old, held, rfl⟩ := Option.map_eq_some_iff.1 hfound
        obtain ⟨first, hstood, hdescends⟩ := ih held
        exact ⟨first, hstood, hdescends.tail ⟨_, hrevision, rfl⟩⟩
      · exact ih hfound
  | remove place hbefore ih =>
      rw [(hbefore.exact hexact).instrAt_removeInstr] at hfound
      split at hfound
      · cases hfound
      · exact ih hfound

end Amending

end FlowGraph

open FlowGraph (Amends amends_foldl amends_modifyInstr amends_removeInstr)

namespace Splitting

theorem rename_amends
    (s : Splitting)
    (old new : VarId)
    (web : Web) :
    Amends s.graph (s.rename old new web).graph :=
  (amends_foldl (fun g => g) (amends_modifyInstr (.retarget new)) web.defs s.graph).trans
    (amends_foldl (fun g => g) (amends_modifyInstr (.substitute old (.var new))) web.uses _)

theorem separate_amends
    (v : VarId)
    (s : Splitting)
    (entry : Web × Nat) :
    Amends s.graph (separate v s entry).graph := by
  unfold separate
  dsimp only
  split
  · exact .refl
  · exact rename_amends _ _ _ _

theorem run_amends
    (s : Splitting) :
    Amends s.graph s.run.2.graph := by
  unfold run
  dsimp only
  refine amends_foldl Splitting.graph (fun s entry => ?_) _ s
  exact amends_foldl Splitting.graph (separate_amends entry.1) _ s

end Splitting

namespace Pruning

theorem removeDead_amends
    (depth : Nat)
    (s : Pruning)
    (loc : Loc) :
    Amends s.graph (removeDead depth s loc).graph := by
  induction depth generalizing s loc with
  | zero => exact .refl
  | succ depth ih =>
      unfold removeDead
      split
      · exact .refl
      · split
        · exact amends_modifyInstr .dropTarget _ loc
        split
        · exact .refl
        · refine (amends_removeInstr s.graph loc).trans ?_
          let rest : Pruning :=
            { s with graph := s.graph.removeInstr loc, removed := s.removed + 1 }
          refine amends_foldl Pruning.graph (fun s v => ?_) _ rest
          let forgotten : Pruning := { s with chains := s.chains.forgetUse v loc }
          refine amends_foldl Pruning.graph (fun s definition => ?_) _ forgotten
          split
          · exact ih s definition
          · exact .refl

theorem run_amends
    (g : FlowGraph)
    (chains : Chains) :
    Amends g (run g chains).graph := by
  refine amends_foldl Pruning.graph (fun s id => ?_) g.order { graph := g, chains, removed := 0 }
  refine amends_foldl Pruning.graph (fun s loc => ?_) _ s
  unfold removeUnused
  split
  · exact .refl
  · split
    · exact .refl
    · exact removeDead_amends _ s loc

end Pruning

namespace Propagation

theorem apply_amends
    (s : Propagation)
    (use : Loc)
    (move : Move) :
    Amends s.graph (s.apply use move).graph := by
  have hmoved := amends_modifyInstr (.substitute move.target move.value) s.graph use
  unfold apply
  dsimp only
  split
  · exact hmoved
  · exact hmoved.remove move.source

theorem round_amends
    (s : Propagation) :
    Amends s.graph s.round.graph := by
  refine amends_foldl Propagation.graph (fun s id => ?_) _ s
  refine amends_foldl Propagation.graph (fun s use => ?_) _ s
  unfold moveInto
  split
  · exact .refl
  · split
    · exact .refl
    · exact apply_amends s use _

theorem rounds_amends
    (bound : Nat)
    (s : Propagation) :
    Amends s.graph (rounds bound s).graph := by
  induction bound generalizing s with
  | zero => exact .refl
  | succ bound ih =>
      unfold Propagation.rounds
      dsimp only
      split
      · exact round_amends s
      · exact (round_amends s).trans (ih s.round)

theorem run_amends
    (g : FlowGraph)
    (chains : Chains) :
    Amends g (run g chains).graph :=
  rounds_amends _ { graph := g, chains, moves := 0 }

end Propagation

/-- What holds of a graph, and stays when a node declares one more variable, holds when all
declarations have been placed. -/
theorem Declaration.place_induction
    {P : FlowGraph → Prop}
    {g : FlowGraph}
    (hstart : P g)
    (hdeclare : ∀ g id v, P g → P (g.modifyNode id fun n => n.declare v))
    (vars : Symbolic.Variables)
    (c : Chains)
    (tree : DominatorTree) :
    P (place g vars c tree) := by
  have hdeclares : ∀ edit ∈ all g vars c tree, ∃ id v, edit = .declare id v := by
    intro edit hmem
    obtain ⟨entry, -, hfound⟩ := List.mem_filterMap.1 hmem
    obtain ⟨id, -, rfl⟩ := Option.map_eq_some_iff.1 hfound
    exact ⟨id, _, rfl⟩
  unfold place
  generalize all g vars c tree = edits at hdeclares
  induction edits generalizing g with
  | nil => exact hstart
  | cons edit rest ih =>
      obtain ⟨⟨id, v, rfl⟩, hothers⟩ := List.forall_mem_cons.1 hdeclares
      exact ih (hdeclare g id v hstart) hothers

end DalvikDecompiler
