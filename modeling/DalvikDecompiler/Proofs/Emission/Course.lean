import DalvikDecompiler.Emission.Method
import Mathlib

/-!
# The course of a walk

Writing code changes a state: the nodes that were visited and met again, and the arm of a switch
that is being written, decide how a walk goes on.  Naming types, declaring variables and writing
instructions leave this course as it is.

Main statements: `Ensures.bind`, `steady_instructions`, `steady_declareVars`.
-/

namespace DalvikDecompiler
namespace Emission

open Symbolic (VarId Instr)

/-- What holds of the result and of the state when a computation is run from a state. -/
def Ensures {α : Type} (m : EmitM α) (s : Progress) (post : α → Progress → Prop) : Prop :=
  post (m.run s).1 (m.run s).2

namespace Ensures

variable {α β : Type}
variable {s : Progress}

theorem pure
    {a : α}
    {post : α → Progress → Prop}
    (h : post a s) :
    Ensures (Pure.pure a) s post :=
  h

theorem bind
    {m : EmitM α}
    {f : α → EmitM β}
    {mid : α → Progress → Prop}
    {post : β → Progress → Prop}
    (h : Ensures m s mid)
    (hf : ∀ a s', mid a s' → Ensures (f a) s' post) :
    Ensures (m >>= f) s post :=
  hf _ _ h

theorem get_bind
    {f : Progress → EmitM β}
    {post : β → Progress → Prop}
    (h : Ensures (f s) s post) :
    Ensures (get >>= f) s post :=
  h

theorem modify_bind
    {change : Progress → Progress}
    {f : PUnit → EmitM β}
    {post : β → Progress → Prop}
    (h : Ensures (f ⟨⟩) (change s) post) :
    Ensures (modify change >>= f) s post :=
  h

theorem mono
    {m : EmitM α}
    {post post' : α → Progress → Prop}
    (h : Ensures m s post)
    (hp : ∀ a s', post a s' → post' a s') :
    Ensures m s post' :=
  hp _ _ h

end Ensures

/-- The part of the state that the way of a walk depends on. -/
structure SameCourse (s s' : Progress) : Prop where
  visited : s'.visited = s.visited
  gotoTargets : s'.gotoTargets = s.gotoTargets
  nextCase : s'.nextCase = s.nextCase
  needBreak : s'.needBreak = s.needBreak

theorem SameCourse.refl
    (s : Progress) :
    SameCourse s s :=
  ⟨rfl, rfl, rfl, rfl⟩

theorem SameCourse.trans
    {s s' s'' : Progress}
    (h : SameCourse s s')
    (h' : SameCourse s' s'') :
    SameCourse s s'' :=
  ⟨h'.visited.trans h.visited, h'.gotoTargets.trans h.gotoTargets, h'.nextCase.trans h.nextCase,
    h'.needBreak.trans h.needBreak⟩

theorem SameCourse.symm
    {s s' : Progress}
    (h : SameCourse s s') :
    SameCourse s' s :=
  ⟨h.visited.symm, h.gotoTargets.symm, h.nextCase.symm, h.needBreak.symm⟩

/-- A computation that leaves the course as it is. -/
def Steady {α : Type} (m : EmitM α) : Prop :=
  ∀ s, SameCourse s (m.run s).2

namespace Steady

variable {α β : Type}
variable {m : EmitM α} {f : α → EmitM β}

theorem pure
    (a : α) :
    Steady (Pure.pure a) :=
  fun s => .refl s

theorem bind
    (h : Steady m)
    (hf : ∀ a, Steady (f a)) :
    Steady (m >>= f) :=
  fun s => (h s).trans (hf (m.run s).1 (m.run s).2)

theorem get_bind
    {f : Progress → EmitM β}
    (hf : ∀ s, Steady (f s)) :
    Steady (get >>= f) :=
  fun s => hf s s

theorem modify
    {change : Progress → Progress}
    (h : ∀ s, SameCourse s (change s)) :
    Steady (modify change : EmitM Unit) :=
  h

/-- What follows a computation that leaves the course as it is. -/
theorem bind_ensures
    {s : Progress}
    {post : β → Progress → Prop}
    (h : Steady m)
    (hf : ∀ a s', SameCourse s s' → Ensures (f a) s' post) :
    Ensures (m >>= f) s post :=
  hf _ _ (h s)

end Steady

section Notes

variable (src : Source)

theorem steady_mention
    (types : List String) :
    Steady (Source.mention types) :=
  .modify fun _ => ⟨rfl, rfl, rfl, rfl⟩

theorem steady_requireSlot
    (id : NodeId) :
    Steady (src.requireSlot id) :=
  .modify fun _ => ⟨rfl, rfl, rfl, rfl⟩

theorem steady_instruction
    (ins : Instr) :
    Steady (src.instruction ins) :=
  Steady.get_bind fun _ => (steady_mention _).bind fun _ =>
    Steady.bind (Steady.modify fun _ => ⟨rfl, rfl, rfl, rfl⟩) fun _ => .pure _

theorem steady_instructions
    (code : List Instr) :
    Steady (src.instructions code) := by
  induction code with
  | nil => exact .pure _
  | cons ins code ih => exact (steady_instruction src ins).bind fun _ => ih.bind fun _ => .pure _

theorem steady_declareVar
    (v : VarId) :
    Steady (Source.declareVar v) := by
  refine .get_bind fun s => ?_
  dsimp only
  split
  · exact .pure _
  · refine (steady_mention _).bind fun _ => ?_
    split
    · exact Steady.bind (Steady.modify fun _ => ⟨rfl, rfl, rfl, rfl⟩) fun _ => .pure _
    · exact .pure _

theorem steady_declareVars
    (vs : List VarId) :
    Steady (Source.declareVars vs) := by
  induction vs with
  | nil => exact .pure _
  | cons v vs ih => exact (steady_declareVar v).bind fun _ => ih.bind fun _ => .pure _

theorem steady_conditionOf
    (id : NodeId)
    (negate : Bool) :
    Steady (src.conditionOf id negate) :=
  .get_bind fun _ => (steady_mention _).bind fun _ => .pure _

theorem steady_isReversed
    (id follow : NodeId)
    (b : BranchTargets) :
    Steady (src.isReversed id follow b) := by
  refine .get_bind fun s => ?_
  split
  · exact .pure _
  · exact (steady_requireSlot src _).bind fun _ => .pure _

theorem steady_selectorOf
    (ins : Instr) :
    Steady (src.selectorOf ins) := by
  refine .get_bind fun s => ?_
  split
  · exact (steady_mention _).bind fun _ => .pure _
  · exact .pure _

theorem steady_catchDeclaration
    (binding : Option VarId)
    (type : Option String) :
    Steady (Source.catchDeclaration binding type) := by
  refine .get_bind fun s => ?_
  dsimp only
  split
  · exact Steady.bind (Steady.modify fun _ => ⟨rfl, rfl, rfl, rfl⟩) fun _ =>
      (steady_mention _).bind fun _ => .pure _
  · exact (steady_mention _).bind fun _ => .pure _

end Notes

end Emission
end DalvikDecompiler
