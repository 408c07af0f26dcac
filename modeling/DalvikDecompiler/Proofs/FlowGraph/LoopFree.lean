import DalvikDecompiler.FlowGraph.Basic
import Mathlib

/-!
# Walks through code without loops

A walk performs the instructions of a node, tests its condition if it has one, and goes on to the
target that the outcome selects, until it leaves the method.  A short circuit tests its second
condition only if the first one leaves the answer open.

`LoopFree` is the class of graphs whose nodes run straight on, branch or leave the method, in which
no walk comes back to a node, and whose code stands where it belongs.  Where branches come together
may be recorded in any way.

Main statements: `LoopFree.induction`, `LoopFree.exists_walk`.
-/

namespace DalvikDecompiler

open Symbolic (Instr)

/-- What happens while a graph is walked. -/
inductive FlowEvent where
  /-- An instruction is performed. -/
  | performs (ins : Instr)
  /-- The comparison of a branch comes out true or false. -/
  | tests (ins : Instr) (holds : Bool)

/-- How a test comes out. -/
def FlowEvent.outcome? : FlowEvent → Option Bool
  | .performs _ => none
  | .tests _ holds => some holds

/-- Whether an instruction leaves the method. -/
def Symbolic.Instr.leaves : Instr → Bool
  | .ret _ => true
  | .throw _ => true
  | _ => false

/-- The target that an outcome selects. -/
def BranchTargets.toward (b : BranchTargets) (holds : Bool) : NodeId :=
  if holds then b.onTrue else b.onFalse

namespace FlowGraph

/-- How the condition of a node comes out, and what happens until then. -/
inductive Decides (g : FlowGraph) : NodeId → List FlowEvent → Bool → Prop
  | single {id : NodeId} {ahead : List Instr} {ins : Instr} (holds : Bool)
      (hplain : ∀ sc, (g.node id).kind.base ≠ .shortCircuit sc)
      (hcode : (g.node id).ins = ahead ++ [ins]) :
      Decides g id (ahead.map .performs ++ [.tests ins holds]) holds
  /-- The first condition of a short circuit gives the answer. -/
  | settled {id : NodeId} {sc : ShortCircuit} {holds : Bool} {before : List FlowEvent}
      (hjoined : (g.node id).kind.base = .shortCircuit sc)
      (htested : Decides g sc.first before holds)
      (hanswer : (holds != sc.isNot) ≠ sc.isAnd) :
      Decides g id ((g.node id).ins.map .performs ++ before) (holds != sc.isNot)
  /-- The first condition of a short circuit leaves the answer to the second one. -/
  | passed {id : NodeId} {sc : ShortCircuit} {first holds : Bool} {before after : List FlowEvent}
      (hjoined : (g.node id).kind.base = .shortCircuit sc)
      (htested : Decides g sc.first before first)
      (hgoesOn : (first != sc.isNot) = sc.isAnd)
      (hrest : Decides g sc.second after holds) :
      Decides g id ((g.node id).ins.map .performs ++ (before ++ after)) holds

/-- What happens on a walk from a node until it leaves the method. -/
inductive Walks (g : FlowGraph) : NodeId → List FlowEvent → Prop
  | straight {id next : NodeId} {events : List FlowEvent}
      (hkind : (g.node id).kind = .statement)
      (hsuccs : g.succs id = [next])
      (hrest : Walks g next events) :
      Walks g id ((g.node id).ins.map .performs ++ events)
  | branch {id : NodeId} {b : BranchTargets} {holds : Bool} {before events : List FlowEvent}
      (htargets : (g.node id).kind.targets? = some b)
      (hdecided : Decides g id before holds)
      (hrest : Walks g (b.toward holds) events) :
      Walks g id (before ++ events)
  | leave {id : NodeId}
      (hkind : (g.node id).kind.isExit = true) :
      Walks g id ((g.node id).ins.map .performs)

/-- One step of a walk. -/
inductive Leads (g : FlowGraph) (id next : NodeId) : Prop
  | straight
      (hkind : (g.node id).kind = .statement)
      (hsuccs : g.succs id = [next])
  | branch {b : BranchTargets} (holds : Bool)
      (htargets : (g.node id).kind.targets? = some b)
      (hselects : b.toward holds = next)

/-- A condition that is one comparison, or joins such conditions, without any other code. -/
inductive Testable (g : FlowGraph) : NodeId → Prop
  | single {id : NodeId} {ins : Instr}
      (hplain : ∀ sc, (g.node id).kind.base ≠ .shortCircuit sc)
      (hcode : (g.node id).ins = [ins]) :
      Testable g id
  | joined {id : NodeId} {sc : ShortCircuit}
      (hjoined : (g.node id).kind.base = .shortCircuit sc)
      (hcode : (g.node id).ins = [])
      (hfirst : Testable g sc.first)
      (hsecond : Testable g sc.second) :
      Testable g id

/-- The ways a node without a loop, a switch or a protected region ends. -/
inductive Shape (g : FlowGraph) (id : NodeId) : Prop
  | straight {next : NodeId}
      (hkind : (g.node id).kind = .statement)
      (hsuccs : g.succs id = [next])
      (hlive : g.isLive next = true)
  | branch {b : BranchTargets}
      (hloop : (g.node id).kind.isLoop = false)
      (htargets : (g.node id).kind.targets? = some b)
      (hlive : ∀ holds, g.isLive (b.toward holds) = true)
      (hfollow : ∀ n ∈ (g.node id).ifFollow, g.isLive n = true)
  | leave
      (hkind : (g.node id).kind = .ret ∨ (g.node id).kind = .throw)

/-- Whether a node ends in one of these ways. -/
def hasShape (g : FlowGraph) (id : NodeId) : Bool :=
  match (g.node id).kind.targets?, g.succs id with
  | some b, _ =>
      !(g.node id).kind.isLoop && g.isLive b.onTrue && g.isLive b.onFalse &&
        (g.node id).ifFollow.all g.isLive
  | none, succs =>
      (g.node id).kind == .ret || (g.node id).kind == .throw ||
        ((g.node id).kind == .statement && succs.length == 1 && succs.all g.isLive)

/-- A graph of such nodes in which no walk comes back to a node. -/
structure Acyclic (g : FlowGraph) : Prop where
  entry : g.isLive g.entry = true
  shape : ∀ id, g.isLive id = true → g.Shape id
  acyclic : ∀ id, g.isLive id = true → ¬ Relation.TransGen g.Leads id id

/-- Code that stands where it belongs: a node with a condition holds nothing else, and only the last
instruction of an exit leaves the method. -/
structure Tidy (g : FlowGraph) : Prop where
  stays : ∀ id, g.isLive id = true → (g.node id).kind = .statement →
    ∀ ins ∈ (g.node id).ins, ins.leaves = false
  testable : ∀ id, g.isLive id = true → (g.node id).kind.isCond = true → g.Testable id
  leaves : ∀ id, g.isLive id = true → (g.node id).kind.isExit = true →
    ∃ ahead last, (g.node id).ins = ahead ++ [last] ∧
      (∀ ins ∈ ahead, ins.leaves = false) ∧ last.leaves = true

/-- Code without loops. -/
structure LoopFree (g : FlowGraph) : Prop extends g.Acyclic, g.Tidy

theorem lt_size_of_isLive
    {g : FlowGraph}
    {id : NodeId}
    (h : g.isLive id = true) :
    id < g.size := by
  by_contra hn
  simp [isLive, Array.getElem?_eq_none (Nat.le_of_not_lt hn)] at h

theorem mem_liveIds_iff
    {g : FlowGraph}
    {id : NodeId} :
    id ∈ g.liveIds ↔ g.isLive id = true := by
  simp only [liveIds, List.mem_filter, List.mem_range, and_iff_right_iff_imp]
  exact lt_size_of_isLive

theorem node_of_size_le
    {g : FlowGraph}
    {id : NodeId}
    (h : g.size ≤ id) :
    g.node id = .plain "" .statement := by
  simp [node, Array.getElem?_eq_none h]

section Conditions

variable {g : FlowGraph}
variable {id : NodeId}
variable {flow : List FlowEvent}
variable {holds : Bool}

theorem decides_single_iff
    {ins : Instr}
    (hplain : ∀ sc, (g.node id).kind.base ≠ .shortCircuit sc)
    (hcode : (g.node id).ins = [ins]) :
    g.Decides id flow holds ↔ flow = [.tests ins holds] := by
  constructor
  · intro h
    cases h with
    | @single _ ahead last _ _ hsame =>
        obtain ⟨rfl, rfl⟩ : ahead = [] ∧ last = ins := by
          simpa [hcode, List.singleton_eq_append_iff] using hsame
        rfl
    | settled hjoined => exact absurd hjoined (hplain _)
    | passed hjoined => exact absurd hjoined (hplain _)
  · rintro rfl
    exact @Decides.single g id [] ins holds hplain hcode

theorem decides_joined_iff
    {sc : ShortCircuit}
    (hjoined : (g.node id).kind.base = .shortCircuit sc)
    (hcode : (g.node id).ins = []) :
    g.Decides id flow holds ↔
      g.Decides sc.first flow (holds != sc.isNot) ∧ holds ≠ sc.isAnd ∨
        ∃ before after,
          flow = before ++ after ∧ g.Decides sc.first before (sc.isAnd != sc.isNot) ∧
            g.Decides sc.second after holds := by
  have hxor_xor (a b : Bool) : ((a != b) != b) = a := by cases a <;> cases b <;> rfl
  constructor
  · intro h
    cases h with
    | single _ hplain => exact absurd hjoined (hplain sc)
    | settled hsame htested hanswer =>
        obtain rfl : sc = _ := by simpa [hjoined] using hsame
        exact .inl ⟨by simpa [hcode, hxor_xor] using htested, hanswer⟩
    | @passed _ _ first _ _ _ hsame htested hgoesOn hrest =>
        obtain rfl : sc = _ := by simpa [hjoined] using hsame
        obtain rfl : first = (sc.isAnd != sc.isNot) := by rw [← hgoesOn, hxor_xor]
        exact .inr ⟨_, _, by simp [hcode], htested, hrest⟩
  · rintro (⟨htested, hanswer⟩ | ⟨before, after, rfl, htested, hrest⟩)
    · simpa [hcode, hxor_xor] using Decides.settled hjoined htested (by rwa [hxor_xor])
    · simpa [hcode] using Decides.passed hjoined htested (hxor_xor ..) hrest

end Conditions

namespace Testable

variable {g : FlowGraph}
variable {id : NodeId}

theorem lt_size
    (h : g.Testable id) :
    id < g.size := by
  by_contra hn
  have hblank := node_of_size_le (Nat.le_of_not_lt hn)
  cases h with
  | single _ hcode => simp [hblank, Node.plain] at hcode
  | joined hjoined => simp [hblank, Node.plain, NodeKind.base] at hjoined

/-- Whatever the tests answer, a condition comes out. -/
theorem exists_outcome
    (outcomes : Nat → Bool)
    (h : g.Testable id)
    (n : Nat) :
    ∃ before holds count,
      g.Decides id before holds ∧
        before.filterMap FlowEvent.outcome? = (List.range' n count).map outcomes := by
  induction h generalizing n with
  | @single id ins hplain hcode =>
      have hdecided := @Decides.single g id [] ins (outcomes n) hplain hcode
      exact ⟨_, _, 1, hdecided, by simp [FlowEvent.outcome?]⟩
  | @joined id sc hjoined hcode _ _ hfirst hsecond =>
      obtain ⟨before, holds, count, hbefore, houts⟩ := hfirst n
      by_cases hgoesOn : (holds != sc.isNot) = sc.isAnd
      · obtain ⟨after, last, more, hafter, houts'⟩ := hsecond (n + count)
        refine ⟨_, last, count + more, .passed hjoined hbefore hgoesOn hafter, ?_⟩
        simp [hcode, houts, houts', ← List.map_append, List.range'_append_1]
      · exact ⟨_, _, count, .settled hjoined hbefore hgoesOn, by simp [hcode, houts]⟩

/-- A condition can come out either way. -/
theorem exists_decides
    (h : g.Testable id)
    (holds : Bool) :
    ∃ before, g.Decides id before holds := by
  induction h generalizing holds with
  | single hplain hcode => exact ⟨_, @Decides.single g _ [] _ holds hplain hcode⟩
  | @joined id sc hjoined _ _ _ hfirst hsecond =>
      have hundone (value : Bool) : ((value != sc.isNot) != sc.isNot) = value := by
        cases value <;> cases sc.isNot <;> rfl
      obtain ⟨before, htested⟩ := hfirst (holds != sc.isNot)
      by_cases hgoesOn : holds = sc.isAnd
      · obtain ⟨after, hrest⟩ := hsecond holds
        exact ⟨_, .passed hjoined htested ((hundone holds).trans hgoesOn) hrest⟩
      · have hsettled := Decides.settled hjoined htested (by rwa [hundone])
        exact ⟨_, hundone holds ▸ hsettled⟩

end Testable

section Steps

variable {g : FlowGraph}
variable {id next : NodeId}

theorem leads_straight_iff
    (hkind : (g.node id).kind = .statement)
    (hsuccs : g.succs id = [next])
    {n : NodeId} :
    g.Leads id n ↔ n = next := by
  constructor
  · intro h
    cases h with
    | straight _ hsame => simpa [hsuccs, eq_comm] using hsame
    | branch _ htargets => simp [hkind, NodeKind.targets?] at htargets
  · rintro rfl
    exact .straight hkind hsuccs

theorem leads_branch_iff
    {b : BranchTargets}
    (htargets : (g.node id).kind.targets? = some b)
    {n : NodeId} :
    g.Leads id n ↔ ∃ holds, b.toward holds = n := by
  constructor
  · intro h
    cases h with
    | straight hkind => simp [hkind, NodeKind.targets?] at htargets
    | branch holds hsame hselects =>
        obtain rfl : _ = _ := by simpa [htargets] using hsame
        exact ⟨holds, hselects⟩
  · rintro ⟨holds, hselects⟩
    exact .branch holds htargets hselects

theorem not_leads_of_leave
    (hkind : (g.node id).kind = .ret ∨ (g.node id).kind = .throw) :
    ¬ g.Leads id next := by
  intro h
  cases h with
  | straight hsame => rcases hkind with hkind | hkind <;> simp [hkind] at hsame
  | branch _ htargets => rcases hkind with hkind | hkind
    <;> simp [hkind, NodeKind.targets?] at htargets

theorem isExit_of_leave
    (hkind : (g.node id).kind = .ret ∨ (g.node id).kind = .throw) :
    (g.node id).kind.isExit = true := by
  rcases hkind with hkind | hkind <;> simp [hkind, NodeKind.isExit, NodeKind.base]

theorem walks_straight_iff
    (hkind : (g.node id).kind = .statement)
    (hsuccs : g.succs id = [next])
    {flow : List FlowEvent} :
    g.Walks id flow ↔
      ∃ rest, flow = (g.node id).ins.map .performs ++ rest ∧ g.Walks next rest := by
  constructor
  · intro h
    cases h with
    | straight _ hsame hrest =>
        obtain rfl : next = _ := by simpa [hsuccs] using hsame
        exact ⟨_, rfl, hrest⟩
    | branch htargets => simp [hkind, NodeKind.targets?] at htargets
    | leave hexit => simp [hkind, NodeKind.isExit, NodeKind.base] at hexit
  · rintro ⟨rest, rfl, hwalk⟩
    exact .straight hkind hsuccs hwalk

theorem walks_branch_iff
    {b : BranchTargets}
    (hloop : (g.node id).kind.isLoop = false)
    (htargets : (g.node id).kind.targets? = some b)
    {flow : List FlowEvent} :
    g.Walks id flow ↔
      ∃ before holds rest,
        flow = before ++ rest ∧ g.Decides id before holds ∧ g.Walks (b.toward holds) rest := by
  constructor
  · intro h
    cases h with
    | straight hkind => simp [hkind, NodeKind.targets?] at htargets
    | branch hsame hdecided hrest =>
        obtain rfl : b = _ := by simpa [htargets] using hsame
        exact ⟨_, _, _, rfl, hdecided, hrest⟩
    | leave hexit =>
        cases hkind : (g.node id).kind <;>
          simp [hkind, NodeKind.isLoop, NodeKind.targets?, NodeKind.isExit, NodeKind.base]
            at hloop htargets hexit
  · rintro ⟨before, holds, rest, rfl, hdecided, hwalk⟩
    exact .branch htargets hdecided hwalk

theorem walks_leave_iff
    (hkind : (g.node id).kind = .ret ∨ (g.node id).kind = .throw)
    {flow : List FlowEvent} :
    g.Walks id flow ↔ flow = (g.node id).ins.map .performs := by
  constructor
  · intro h
    cases h with
    | straight hsame => rcases hkind with hkind | hkind <;> simp [hkind] at hsame
    | branch htargets =>
        rcases hkind with hkind | hkind <;> simp [hkind, NodeKind.targets?] at htargets
    | leave => rfl
  · rintro rfl
    exact .leave (isExit_of_leave hkind)

/-- The nodes that a step may lead to. -/
def ways (g : FlowGraph) (id : NodeId) : List NodeId :=
  match (g.node id).kind.targets? with
  | some b => [b.onTrue, b.onFalse]
  | none => g.succs id

theorem Leads.mem_ways
    (h : g.Leads id next) :
    next ∈ g.ways id := by
  cases h with
  | straight hkind hsuccs => simp [ways, hkind, NodeKind.targets?, hsuccs]
  | branch holds htargets hselects =>
      subst hselects
      cases holds <;> simp [ways, htargets, BranchTargets.toward]

theorem not_transGen_of_lt
    (h : ∀ id < g.size, ∀ next ∈ g.ways id, id < next) :
    ¬ Relation.TransGen g.Leads id id := by
  have hstep {i j : NodeId} (hleads : g.Leads i j) : i < j := by
    refine h i ?_ j hleads.mem_ways
    by_contra hn
    have hblank := node_of_size_le (Nat.le_of_not_lt hn)
    cases hleads with
    | straight _ hsuccs =>
        simp [FlowGraph.succs, Array.getElem?_eq_none (Nat.le_of_not_lt hn)] at hsuccs
    | branch _ htargets => simp [hblank, Node.plain, NodeKind.targets?] at htargets
  intro hcycle
  have hincreases : ∀ {i j}, Relation.TransGen g.Leads i j → i < j := by
    intro i j hpath
    induction hpath with
    | single hleads => exact hstep hleads
    | tail _ hleads ih => exact ih.trans (hstep hleads)
  exact lt_irrefl id (hincreases hcycle)

end Steps

theorem hasShape_iff
    {g : FlowGraph}
    {id : NodeId} :
    g.hasShape id = true ↔ g.Shape id := by
  unfold hasShape
  constructor
  · intro h
    split at h
    · next b _ htargets =>
        simp only [Bool.and_eq_true, Bool.not_eq_true', Option.all_eq_true] at h
        obtain ⟨⟨⟨hloop, honTrue⟩, honFalse⟩, hfollow⟩ := h
        exact .branch hloop htargets (fun holds => by cases holds <;> assumption) hfollow
    · simp only [Bool.or_eq_true, Bool.and_eq_true, beq_iff_eq, List.length_eq_one_iff] at h
      obtain hkind | ⟨⟨hkind, next, hsuccs⟩, hlive⟩ := h
      · exact .leave hkind
      · exact .straight hkind hsuccs (by simpa [hsuccs] using hlive)
  · intro h
    cases h with
    | straight hkind hsuccs hlive => simp [hkind, NodeKind.targets?, hsuccs, hlive]
    | branch hloop htargets hlive hfollow =>
        have honTrue := hlive true
        have honFalse := hlive false
        simp only [BranchTargets.toward] at honTrue honFalse
        simp_all [Option.all_eq_true]
    | leave hkind => rcases hkind with hkind | hkind <;> simp [hkind, NodeKind.targets?]

instance (g : FlowGraph) (id : NodeId) : Decidable (g.Shape id) :=
  decidable_of_iff _ hasShape_iff

/-- A graph whose steps all lead to later slots has no cycle. -/
theorem acyclic_of_lt
    {g : FlowGraph}
    (hentry : g.isLive g.entry = true)
    (hshape : ∀ id ∈ g.liveIds, g.Shape id)
    (hincreasing : ∀ id < g.size, ∀ next ∈ g.ways id, id < next) :
    g.Acyclic where
  entry := hentry
  shape id hlive := hshape id (mem_liveIds_iff.2 hlive)
  acyclic _ _ := not_transGen_of_lt hincreasing

namespace LoopFree

variable {g : FlowGraph}

theorem isLoop_of_targets
    (h : g.LoopFree)
    {id : NodeId}
    {b : BranchTargets}
    (hlive : g.isLive id = true)
    (htargets : (g.node id).kind.targets? = some b) :
    (g.node id).kind.isLoop = false := by
  cases h.shape id hlive with
  | straight hkind => simp [hkind, NodeKind.targets?] at htargets
  | branch hloop => exact hloop
  | leave hkind => rcases hkind with hkind | hkind <;> simp [hkind, NodeKind.targets?] at htargets

theorem leave_of_isExit
    (h : g.LoopFree)
    {id : NodeId}
    (hlive : g.isLive id = true)
    (hexit : (g.node id).kind.isExit = true) :
    (g.node id).kind = .ret ∨ (g.node id).kind = .throw := by
  cases h.shape id hlive with
  | straight hkind => simp [hkind, NodeKind.isExit, NodeKind.base] at hexit
  | branch hloop htargets =>
      cases hkind : (g.node id).kind <;>
        simp [hkind, NodeKind.isLoop, NodeKind.targets?, NodeKind.isExit, NodeKind.base]
          at hloop htargets hexit
  | leave hkind => exact hkind

theorem isLive_of_leads
    (h : g.LoopFree)
    {id next : NodeId}
    (hlive : g.isLive id = true)
    (hleads : g.Leads id next) :
    g.isLive next = true := by
  cases h.shape id hlive with
  | straight hkind hsuccs hlive => exact (leads_straight_iff hkind hsuccs).1 hleads ▸ hlive
  | branch _ htargets hlive =>
      obtain ⟨holds, rfl⟩ := (leads_branch_iff htargets).1 hleads
      exact hlive holds
  | leave hkind => exact absurd hleads (not_leads_of_leave hkind)

/-- To prove something of all nodes, it may be assumed of those that a walk goes on to. -/
theorem induction
    (h : g.LoopFree)
    {motive : NodeId → Prop}
    (hstep : ∀ id, g.isLive id = true → (∀ next, g.Leads id next → motive next) → motive id) :
    ∀ id, g.isLive id = true → motive id := by
  let After (a b : { id // g.isLive id = true }) : Prop := Relation.TransGen g.Leads b.1 a.1
  have : Finite { id // g.isLive id = true } :=
    Finite.of_injective (fun a => (⟨a.1, lt_size_of_isLive a.2⟩ : Fin g.size)) fun a b hab =>
      Subtype.ext (Fin.mk.inj hab)
  have : IsTrans _ After := ⟨fun _ _ _ hab hbc => hbc.trans hab⟩
  have : Std.Irrefl After := ⟨fun a => h.acyclic a.1 a.2⟩
  intro id hlive
  exact (Finite.wellFounded_of_trans_of_irrefl After).induction
    (C := fun a => motive a.1) ⟨id, hlive⟩ fun a ih => hstep a.1 a.2 fun next hleads =>
      ih ⟨next, h.isLive_of_leads a.2 hleads⟩ (.single hleads)

/-- Whatever the tests answer, a walk leaves the method. -/
theorem exists_walk
    (h : g.LoopFree)
    (outcomes : Nat → Bool) :
    ∀ id, g.isLive id = true → ∀ n, ∃ events count,
      g.Walks id events ∧
        events.filterMap FlowEvent.outcome? = (List.range' n count).map outcomes := by
  refine h.induction fun id hlive ih n => ?_
  have hperforms (code : List Instr) :
      (code.map FlowEvent.performs).filterMap FlowEvent.outcome? = [] := by
    simp [List.filterMap_map, Function.comp_def, FlowEvent.outcome?]
  cases h.shape id hlive with
  | straight hkind hsuccs =>
      obtain ⟨events, count, hwalk, houts⟩ := ih _ (.straight hkind hsuccs) n
      exact ⟨_, count, .straight hkind hsuccs hwalk, by simp [hperforms, houts]⟩
  | branch _ htargets =>
      have hcondition := h.testable id hlive (by simp [NodeKind.isCond, htargets])
      obtain ⟨before, holds, count, hdecided, houts⟩ := hcondition.exists_outcome outcomes n
      obtain ⟨events, more, hwalk, houts'⟩ := ih _ (.branch holds htargets rfl) (n + count)
      refine ⟨_, count + more, .branch htargets hdecided hwalk, ?_⟩
      simp [houts, houts', ← List.map_append, List.range'_append_1]
  | leave hkind =>
      exact ⟨_, 0, .leave (isExit_of_leave hkind), by simp [hperforms]⟩

end LoopFree

end FlowGraph
end DalvikDecompiler
