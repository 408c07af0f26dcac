import DalvikDecompiler.Proofs.Emission.Coupling
import DalvikDecompiler.Proofs.Emission.Positions
import DalvikDecompiler.Proofs.Java.Labels
import DalvikDecompiler.Region.Structure

/-!
# Labels and the jumps to them

A body is written with a label in front of each node that a jump leads to.  A node that is visited
is also written, where it is visited first, with two exceptions: the node at the end of a loop that
is tested behind, whose condition is part of the loop, and the handlers of a protected region, which
are part of the statement for it.  A jump to such a node has no label.

Main statement: `goto_resolves`, for graphs of all kinds.
-/

namespace DalvikDecompiler
namespace Emission

open Symbolic (VarId Variables Instr)
open Java (Block Statement Mark SwitchArm CatchClause blockMarks elseMarks armMarks clauseMarks
  labelNames gotoNames)

theorem elseMarks_unlessEmpty
    (block : Block) :
    elseMarks (unlessEmpty block) = blockMarks block := by
  cases block <;> rfl

mutual

/-- Only jumps without a label are dropped at the end of a loop body. -/
theorem blockMarks_dropFinalContinue :
    ∀ block : List Statement, blockMarks (dropFinalContinue block) = blockMarks block
  | [] => rfl
  | [s] => by
      rw [dropFinalContinue, blockMarks_dropContinue s, blockMarks, blockMarks, List.append_nil]
  | s :: t :: rest => by
      rw [dropFinalContinue.eq_3 s (t :: rest) (List.cons_ne_nil t rest), Java.blockMarks_cons,
        blockMarks_dropFinalContinue (t :: rest), Java.blockMarks_cons s]

theorem blockMarks_dropContinue :
    ∀ s : Statement, blockMarks (dropContinue s) = s.marks
  | .jump .continue _ => rfl
  | .jump .break _ => rfl
  | .jump .goto name => by simp [dropContinue]
  | .ifThen c thenBlock elseBlock => by
      rw [dropContinue, blockMarks, Statement.marks, Statement.marks,
        blockMarks_dropFinalContinue thenBlock, elseMarks_dropElseContinue elseBlock]
      simp
  | .block _ => by simp [dropContinue]
  | .whileLoop .. => by simp [dropContinue]
  | .doLoop .. => by simp [dropContinue]
  | .switch .. => by simp [dropContinue]
  | .tryCatch .. => by simp [dropContinue]
  | .ret _ => rfl
  | .throw _ => rfl
  | .expression _ => rfl
  | .declaration .. => rfl
  | .label _ => rfl

theorem elseMarks_dropElseContinue :
    ∀ elseBlock : Option (List Statement),
      elseMarks (dropElseContinue elseBlock) = elseMarks elseBlock
  | none => rfl
  | some block => by
      rw [dropElseContinue, elseMarks_unlessEmpty, blockMarks_dropFinalContinue block, elseMarks]

end

/-- A kind is another one, or what this one is a loop around. -/
inductive Inside : NodeKind → NodeKind → Prop
  | refl (kind : NodeKind) : Inside kind kind
  | loop {inner outer : NodeKind} {type : LoopTest} (h : Inside (.loop inner type) outer) :
      Inside inner outer

theorem Inside.base_eq
    {inner outer : NodeKind}
    (h : Inside inner outer) :
    inner.base = outer.base := by
  induction h with
  | refl => rfl
  | loop _ ih => exact ih

/-- The nodes that may be visited without being written: ends of loops that are tested behind,
unless they are the heads of these loops, and handlers. -/
inductive OnlyMarked (g : FlowGraph) (id : NodeId) : Prop
  | latch {head : NodeId} {inner : NodeKind}
      (hloop : Inside (.loop inner .postTest) (g.node head).kind)
      (hlatch : (g.node head).latch = some id)
      (hother : id ≠ head)
      (hcond : (g.node id).kind.isCond = true)
  | handler {region start : NodeId} {catches : List NodeId} {follow : Option NodeId}
      (hkind : (g.node region).kind.base = .tryBlock start catches follow)
      (hmem : id ∈ catches)

/-- The code of a node, with the declarations in front of it and what follows it. -/
def codeOf (src : Source) (visit : Walk) (ctx : Context) (id : NodeId) : EmitM Block := do
  let declared ← Source.declareVars (src.node id).declares
  let body ← src.writeKind visit id (src.node id).kind ctx
  return declared ++ body

/-- Some code is what is written for a node from some state on. -/
def WrittenFor (src : Source) (id : NodeId) (code : Block) : Prop :=
  ∃ depth ctx s, ((codeOf src (src.walk depth) ctx id).run s).1 = code

/-- A label stands directly in front of the code of its node. -/
def InFront (src : Source) (marks : List Mark) (id : NodeId) : Prop :=
  ∃ before code behind, WrittenFor src id code ∧
    marks = before ++ .label (src.labelOf id) :: (blockMarks code ++ behind)

theorem InFront.append
    {src : Source}
    {marks : List Mark}
    {id : NodeId}
    (h : InFront src marks id)
    (marks' marks'' : List Mark) :
    InFront src (marks' ++ marks ++ marks'') id := by
  obtain ⟨before, code, behind, hwrote, rfl⟩ := h
  exact ⟨marks' ++ before, code, behind ++ marks'', hwrote, by simp⟩

/-- What the labels and jumps of some code are, which is written between two states: the labels are
those of the nodes that are written, each of which is visited for the first time; a node that is not
an exit is either written or only marked where it is visited; jumps lead to nodes that were visited
before. -/
structure Tracks (src : Source) (s : Progress) (marks : List Mark) (s' : Progress) : Prop where
  visited : s.visited ⊆ s'.visited
  gotoTargets : s.gotoTargets ⊆ s'.gotoTargets
  labels : ∃ written : List NodeId,
    written.Nodup ∧ labelNames marks = written.map src.labelOf ∧
      (∀ id ∈ written, id ∉ s.visited ∧ id ∈ s'.visited ∧ InFront src marks id) ∧
      (∀ id ∈ s'.visited, id ∉ s.visited → id ∈ src.labels → id ∈ written ∨ OnlyMarked src.graph id)
  gotos : ∀ name, .goto name ∈ marks → ∃ id ∈ s'.gotoTargets, src.labelOf id = name
  met : ∀ id ∈ s'.gotoTargets, id ∈ s.gotoTargets ∨
    id ∈ s'.visited ∧ (src.node id).kind.isExit = false

namespace Tracks

variable {src : Source}
variable {s s₁ s₂ : Progress}
variable {marks marks' : List Mark}

theorem inert
    (h : ∀ mark ∈ marks, mark.isInert = true)
    (hvisited : s₁.visited = s.visited)
    (hgotoTargets : s₁.gotoTargets = s.gotoTargets) :
    Tracks src s marks s₁ where
  visited := hvisited ▸ List.Subset.refl _
  gotoTargets := hgotoTargets ▸ List.Subset.refl _
  labels := by
    refine ⟨[], List.nodup_nil, ?_, nofun, fun _ hid hn => absurd (hvisited ▸ hid) hn⟩
    refine List.filterMap_eq_nil_iff.2 fun mark hm => ?_
    cases mark with
    | label => nomatch h _ hm
    | goto | tests | simple => rfl
  gotos name hm := nomatch h _ hm
  met _ h := .inl (hgotoTargets ▸ h)

theorem of_eq
    (hvisited : s₁.visited = s.visited)
    (hgotoTargets : s₁.gotoTargets = s.gotoTargets) :
    Tracks src s [] s₁ :=
  inert nofun hvisited hgotoTargets

theorem append
    (h : Tracks src s marks s₁)
    (h' : Tracks src s₁ marks' s₂) :
    Tracks src s (marks ++ marks') s₂ where
  visited := List.Subset.trans h.visited h'.visited
  gotoTargets := List.Subset.trans h.gotoTargets h'.gotoTargets
  labels := by
    obtain ⟨written, hnodup, hnames, hnew, hall⟩ := h.labels
    obtain ⟨written', hnodup', hnames', hnew', hall'⟩ := h'.labels
    refine ⟨written ++ written', ?_, ?_, fun id hid => ?_, fun id hid hn hneeded => ?_⟩
    · refine List.nodup_append.2 ⟨hnodup, hnodup', fun id hid other hother he => ?_⟩
      exact (hnew' other hother).1 (he ▸ (hnew id hid).2.1)
    · simp only [labelNames, List.filterMap_append, List.map_append] at hnames hnames' ⊢
      rw [hnames, hnames']
    · rcases List.mem_append.1 hid with hid | hid
      · obtain ⟨hfresh, hvisited, hfront⟩ := hnew id hid
        exact ⟨hfresh, h'.visited hvisited, hfront.append [] marks'⟩
      · obtain ⟨hfresh, hvisited, hfront⟩ := hnew' id hid
        refine ⟨fun hs => hfresh (h.visited hs), hvisited, ?_⟩
        simpa using hfront.append marks []
    · by_cases hearly : id ∈ s₁.visited
      · exact (hall id hearly hn hneeded).imp_left fun hw => List.mem_append_left _ hw
      · exact (hall' id hid hearly hneeded).imp_left fun hw => List.mem_append_right _ hw
  gotos name hname := by
    rcases List.mem_append.1 hname with hname | hname
    · obtain ⟨id, hid, rfl⟩ := h.gotos name hname
      exact ⟨id, h'.gotoTargets hid, rfl⟩
    · exact h'.gotos name hname
  met id hid := by
    rcases h'.met id hid with hid | hid
    · exact (h.met id hid).imp_right fun hid => ⟨h'.visited hid.1, hid.2⟩
    · exact .inr hid

theorem cons
    (h : Tracks src s marks s₁)
    (mark : Mark)
    (hm : mark.isInert = true) :
    Tracks src s (mark :: marks) s₁ := by
  have hfirst : Tracks src s [mark] s := inert (by simpa using hm) rfl rfl
  exact hfirst.append h

theorem then_eq
    (h : Tracks src s marks s₁)
    (hvisited : s₂.visited = s₁.visited)
    (hgotoTargets : s₂.gotoTargets = s₁.gotoTargets) :
    Tracks src s marks s₂ := by
  simpa using h.append (.of_eq hvisited hgotoTargets)

theorem after_eq
    (h : Tracks src s₁ marks s₂)
    (hvisited : s₁.visited = s.visited)
    (hgotoTargets : s₁.gotoTargets = s.gotoTargets) :
    Tracks src s marks s₂ :=
  (of_eq hvisited hgotoTargets).append h

theorem markVisited
    {id : NodeId}
    (honly : id ∉ s.visited → OnlyMarked src.graph id) :
    Tracks src s [] { s with visited := OrderedSet.insert s.visited id } where
  visited n hn := OrderedSet.mem_insert.2 (.inl hn)
  gotoTargets := List.Subset.refl _
  labels := by
    refine ⟨[], List.nodup_nil, rfl, nofun, fun n hn hnew _ => .inr ?_⟩
    obtain rfl := (OrderedSet.mem_insert.1 hn).resolve_left hnew
    exact honly hnew
  gotos := nofun
  met _ h := .inl h

theorem goto
    {id : NodeId}
    (hvisited : id ∈ s.visited)
    (hstays : (src.node id).kind.isExit = false) :
    Tracks src s [.goto (src.labelOf id)]
      { s with gotoTargets := OrderedSet.insert s.gotoTargets id } where
  visited := List.Subset.refl _
  gotoTargets n hn := OrderedSet.mem_insert.2 (.inl hn)
  labels := ⟨[], List.nodup_nil, rfl, nofun, fun _ h hn => absurd h hn⟩
  gotos name hname := by
    obtain rfl : name = src.labelOf id := by simpa using hname
    exact ⟨id, OrderedSet.mem_insert.2 (.inr rfl), rfl⟩
  met n hn := by
    rcases OrderedSet.mem_insert.1 hn with hn | rfl
    · exact .inl hn
    · exact .inr ⟨hvisited, hstays⟩

/-- A node is written, with a label in front of its code if a jump leads to it. -/
theorem enter
    {id : NodeId}
    {code : Block}
    (hnew : id ∈ src.labels → id ∉ s.visited)
    (hwrote : WrittenFor src id code)
    (h : Tracks src { s with visited := OrderedSet.insert s.visited id } (blockMarks code) s₁) :
    Tracks src s
      ((if src.labels.contains id then [.label (src.labelOf id)] else []) ++ blockMarks code)
      s₁ where
  visited n hn := h.visited (OrderedSet.mem_insert.2 (.inl hn))
  gotoTargets := h.gotoTargets
  labels := by
    obtain ⟨written, hnodup, hnames, hnew', hall⟩ := h.labels
    have hfresh {n : NodeId} (hn : n ∈ written) : n ≠ id ∧ n ∉ s.visited := by
      have := (hnew' n hn).1
      rw [OrderedSet.mem_insert] at this
      tauto
    by_cases hneeded : id ∈ src.labels
    · rw [if_pos (by simpa using hneeded)]
      refine ⟨id :: written, List.nodup_cons.2 ⟨fun hid => (hfresh hid).1 rfl, hnodup⟩, ?_,
        fun n hn => ?_, fun n hn hs hneeded' => ?_⟩
      · simpa [labelNames] using hnames
      · rcases List.mem_cons.1 hn with rfl | hn
        · have hfront : InFront src ([.label (src.labelOf n)] ++ blockMarks code) n :=
            ⟨[], code, [], hwrote, by simp⟩
          exact ⟨hnew hneeded, h.visited (OrderedSet.mem_insert.2 (.inr rfl)), hfront⟩
        · exact ⟨(hfresh hn).2, (hnew' n hn).2.1, by simpa using (hnew' n hn).2.2.append [_] []⟩
      · by_cases hid : n = id
        · exact .inl (hid ▸ List.mem_cons_self)
        · have hs' : n ∉ OrderedSet.insert s.visited id := by simp [OrderedSet.mem_insert, hs, hid]
          exact (hall n hn hs' hneeded').imp_left fun hw => List.mem_cons_of_mem id hw
    · rw [if_neg (by simpa using hneeded)]
      refine ⟨written, hnodup, hnames, fun n hn => ⟨(hfresh hn).2, (hnew' n hn).2⟩,
        fun n hn hs hneeded' => hall n hn ?_ hneeded'⟩
      have hid : n ≠ id := fun he => hneeded (he ▸ hneeded')
      simp [OrderedSet.mem_insert, hs, hid]
  gotos name hname := by
    refine h.gotos name ((List.mem_append.1 hname).resolve_left fun hm => ?_)
    split at hm <;> simp at hm
  met := h.met

end Tracks

/-- Code whose labels and jumps are tracked, from any state on. -/
def Tracked {α : Type} (src : Source) (marksOf : α → List Mark) (m : EmitM α) : Prop :=
  ∀ s, Ensures m s fun a s' => Tracks src s (marksOf a) s'

/-- Code whose labels and jumps are tracked from any state on in which its node has been visited. -/
def TrackedFor {α : Type} (src : Source) (id : NodeId) (marksOf : α → List Mark) (m : EmitM α) :
    Prop :=
  ∀ s, id ∈ s.visited → Ensures m s fun a s' => Tracks src s (marksOf a) s'

section Writing

variable {src : Source} {visit : Walk}
variable {ctx : Context} {id : NodeId}

theorem Steady.tracked
    {α : Type}
    {m : EmitM α}
    (h : Steady m)
    (src : Source) :
    Tracked src (fun _ => []) m :=
  fun s => .of_eq (h s).visited (h s).gotoTargets

theorem Steady.tracked_tests
    {m : EmitM Java.Expression}
    (h : Steady m)
    (src : Source) :
    Tracked src (fun value => [.tests value]) m :=
  fun s => (h.tracked src s).mono fun _ _ ht => ht.cons _ rfl

theorem Spells.isInert_of_mem_blockMarks
    {w : Writing}
    {vars : Variables}
    {code : List Instr}
    {block : Block}
    (h : Spells w vars code block) :
    ∀ mark ∈ blockMarks block, mark.isInert = true := by
  induction h with
  | nil => nofun
  | silent _ _ ih => exact ih
  | @cons vars' ins s _ _ _ hwritten _ ih =>
      intro mark hm
      rcases List.mem_append.1 hm with hm | hm
      · exact (form_of_statement vars' w hwritten).elim (·.isInert_of_mem_marks mark hm)
          (·.isInert_of_mem_marks mark hm)
      · exact ih mark hm

theorem tracked_instructions
    (code : List Instr) :
    Tracked src blockMarks (src.instructions code) := fun _ =>
  (ensures_instructions rfl code).mono fun _ _ ⟨hspells, hquiet⟩ =>
    .inert hspells.isInert_of_mem_blockMarks hquiet.visited hquiet.gotoTargets

theorem tracked_declareVars
    (src : Source)
    (vs : List VarId) :
    Tracked src blockMarks (Source.declareVars vs) := fun s =>
  (ensures_declareVars vs).mono fun block _ ⟨hbare, hquiet⟩ => by
    refine .inert (Java.isInert_of_mem_blockMarks fun st hst => ?_) hquiet.visited
      hquiet.gotoTargets
    obtain ⟨decl, rfl⟩ := hbare st hst
    simp [Statement.marks, Mark.isInert]

theorem tracked_conditionOf
    (id : NodeId)
    (negate : Bool) :
    Tracked src (fun condition => [.tests condition]) (src.conditionOf id negate) :=
  (steady_conditionOf src id negate).tracked_tests src

theorem tracked_latchCondition
    {inner : NodeKind}
    (hloop : Inside (.loop inner .postTest) (src.node id).kind) :
    TrackedFor src id (fun condition => [.tests condition])
      (src.latchCondition id (src.node id).latch) := by
  intro s hvisited
  unfold Source.latchCondition
  split
  · next latch hfound =>
      obtain ⟨hlatch, hcond⟩ := Option.filter_eq_some_iff.1 hfound
      have honly (hnew : latch ∉ s.visited) : OnlyMarked src.graph latch :=
        .latch hloop hlatch (fun hsame => hnew (hsame ▸ hvisited)) hcond
      refine .modify_bind ?_
      exact (tracked_conditionOf latch _ _).mono fun _ _ h => (Tracks.markVisited honly).append h
  · exact ((steady_mention _).tracked src s).bind fun _ _ h => .pure (h.cons _ rfl)

section Visiting

variable (hv : ∀ ctx id, Tracked src blockMarks (visit ctx id))
include hv

theorem tracked_writeNext
    (next : Option NodeId) :
    Tracked src blockMarks (Source.writeNext visit ctx next) := by
  cases next with
  | none => exact fun s => .of_eq rfl rfl
  | some id => exact hv ctx id

theorem tracked_preTestLoop
    (b : BranchTargets) :
    Tracked src Statement.marks (src.preTestLoop visit ctx id b) := fun s =>
  (tracked_conditionOf id _ s).bind fun _ _ h => (hv _ _ _).bind fun _ _ h' => .pure <| by
    simpa [Statement.marks, blockMarks_dropFinalContinue] using h.append h'

omit hv in
theorem tracked_postTestLoop
    {head : Context → EmitM Block}
    (hh : ∀ ctx, TrackedFor src id blockMarks (head ctx))
    {inner : NodeKind}
    (hloop : Inside (.loop inner .postTest) (src.node id).kind) :
    TrackedFor src id Statement.marks (src.postTestLoop head ctx id) := by
  have hslots (latch : Option NodeId) : Steady (latch.forM src.requireSlot) := by
    cases latch with
    | none => exact .pure _
    | some l => exact steady_requireSlot src l
  refine fun s hvisited => ((hslots _).tracked src s).bind fun _ _ h₀ => ?_
  refine (hh _ _ (h₀.visited hvisited)).bind fun _ _ h => ?_
  have hinside := h₀.append h
  exact (tracked_latchCondition hloop _ (hinside.visited hvisited)).bind fun _ _ h' => .pure <| by
    simpa [Statement.marks, blockMarks_dropFinalContinue] using hinside.append h'

theorem tracked_endlessLoop
    {head : Context → EmitM Block}
    (hh : ∀ ctx, TrackedFor src id blockMarks (head ctx)) :
    TrackedFor src id Statement.marks (src.endlessLoop visit head ctx id) := fun s hvisited =>
  (hh _ s hvisited).bind fun _ _ h => .get_bind <| (tracked_writeNext hv _ _).bind fun _ _ h' =>
    ((steady_mention _).tracked src _).bind fun _ _ h'' => .pure <| by
      have hloop := ((h.append h').append h'').cons (.tests (truthLiteral true)) rfl
      simpa [Statement.marks, blockMarks_dropFinalContinue] using hloop

theorem tracked_writeLoop
    {head : Context → EmitM Block}
    (hh : ∀ ctx, TrackedFor src id blockMarks (head ctx))
    {inner : NodeKind}
    {type : LoopTest}
    (hloop : Inside (.loop inner type) (src.node id).kind) :
    TrackedFor src id blockMarks (src.writeLoop visit head ctx id inner type) := by
  intro s hvisited
  have hrest : Tracked src blockMarks (Source.writeNext visit ctx (src.node id).loopFollow) :=
    tracked_writeNext hv _
  unfold Source.writeLoop
  dsimp only
  split
  · exact (tracked_preTestLoop hv _ s).bind fun _ _ h => (hrest _).bind fun _ _ h' =>
      .pure (h.append h')
  · exact (tracked_postTestLoop hh hloop s hvisited).bind fun _ _ h => (hrest _).bind fun _ _ h' =>
      .pure (h.append h')
  · exact (tracked_endlessLoop hv hh s hvisited).bind fun _ _ h => (hrest _).bind fun _ _ h' =>
      .pure (h.append h')

theorem tracked_writeBranch
    (b : BranchTargets) :
    Tracked src blockMarks (src.writeBranch visit ctx id b) := by
  have hbreaking (negate : Bool) (other : NodeId) :
      Tracked src blockMarks (src.breakingBranch visit ctx id negate other) := fun s =>
    (tracked_conditionOf id negate s).bind fun _ _ h => (hv _ _ _).bind fun _ _ h' => .pure <| by
      simpa [Statement.marks, plainJump, elseMarks_unlessEmpty] using h.append h'
  have hcontinuing (negate : Bool) (other : NodeId) :
      Tracked src blockMarks (src.continuingBranch visit ctx id negate other) := fun s =>
    (tracked_conditionOf id negate s).bind fun _ _ h => (hv _ _ _).bind fun _ _ h' => .pure <| by
      simpa [Statement.marks, plainJump, elseMarks] using h.append h'
  have hreversed (follow : NodeId) : Tracked src (fun _ => []) (src.isReversed id follow b) :=
    (steady_isReversed src id follow b).tracked src
  have hjoined (follow : NodeId) :
      Tracked src blockMarks (src.joinedBranch visit ctx id follow b) := by
    intro s
    unfold Source.joinedBranch
    refine (hreversed follow s).bind fun r s₁ h₀ => ?_
    refine (tracked_conditionOf id r s₁).bind fun _ _ h => (hv _ _ _).bind fun _ _ h₁ => ?_
    have hinside := (h₀.append h).append h₁
    dsimp only
    split
    · refine (hv ctx follow _).bind fun _ _ h₃ => .pure ?_
      simpa [Statement.marks, unlessEmpty, elseMarks] using hinside.append h₃
    · refine (hv _ _ _).bind fun _ _ h₂ => (hv ctx follow _).bind fun _ _ h₃ => .pure ?_
      simpa [Statement.marks, elseMarks_unlessEmpty] using (hinside.append h₂).append h₃
  intro s
  unfold Source.writeBranch
  dsimp only
  split
  · have hcondition := (steady_conditionOf src id false).tracked src
    exact (hcondition s).bind fun _ _ h => (hv _ _ _).bind fun _ _ h' =>
      .pure ((h.append h').cons _ rfl)
  split
  · exact hbreaking _ _ s
  split
  · exact hbreaking _ _ s
  split
  · exact hcontinuing _ _ s
  split
  · exact hcontinuing _ _ s
  split
  · exact hjoined _ s
  · exact (tracked_conditionOf id false s).bind fun _ _ h => (hv _ _ _).bind fun _ _ h₁ =>
      (hv _ _ _).bind fun _ _ h₂ => .pure <| by
        simpa [Statement.marks, elseMarks_unlessEmpty] using (h.append h₁).append h₂

theorem tracked_armBody
    (target : NodeId) :
    Tracked src blockMarks (Source.armBody visit ctx target) := by
  refine fun s => (hv _ _ s).bind fun body s₁ h => .get_bind (.modify_bind ?_)
  have hinside : Tracks src s (blockMarks body) { s₁ with needBreak := true } := h.then_eq rfl rfl
  split
  · exact .pure (by simpa [plainJump, Statement.marks] using hinside)
  · exact .pure hinside

theorem tracked_writeArms
    (cases : SwitchTable)
    (targets : List NodeId)
    (fallback : Option NodeId) :
    Tracked src (fun a => armMarks a.1) (Source.writeArms visit ctx cases targets fallback) := by
  induction targets generalizing fallback with
  | nil => exact fun s => .of_eq rfl rfl
  | cons target rest ih =>
      refine fun s => .get_bind ?_
      split
      · exact ih fallback s
      · refine .modify_bind <| (tracked_armBody hv target _).bind fun body _ h =>
          (ih _ _).bind fun arms _ h' => .pure ((h.append h').after_eq rfl rfl)

theorem tracked_defaultArm
    (fallback : Option NodeId) :
    Tracked src armMarks (Source.defaultArm visit ctx fallback) := by
  cases fallback with
  | none => exact fun s => .of_eq rfl rfl
  | some target =>
      exact fun s => (hv _ _ s).bind fun _ _ h => .pure (by simpa [armMarks] using h)

theorem tracked_writeSwitch
    (cases : SwitchTable) :
    Tracked src blockMarks (src.writeSwitch visit ctx id cases) := by
  intro s
  unfold Source.writeSwitch
  split
  · exact .pure (.of_eq rfl rfl)
  · refine (tracked_instructions _ s).bind fun _ _ h₀ =>
      ((steady_selectorOf src _).tracked_tests src _).bind fun _ _ h₁ =>
        (tracked_writeArms hv cases cases.cases cases.fallback _).bind fun arms s₂ h₂ => ?_
    refine .modify_bind <| (tracked_defaultArm hv _ _).bind fun _ _ h₃ =>
      (tracked_writeNext hv _ _).bind fun _ _ h₄ => .pure ?_
    have hinside := ((h₀.append h₁).append h₂).append (h₃.after_eq rfl rfl)
    simpa [Statement.marks] using hinside.append h₄

theorem tracked_writeStraight :
    Tracked src blockMarks (src.writeStraight visit ctx id) := by
  refine fun s => (tracked_instructions _ s).bind fun own s₁ h => ?_
  split
  · split
    · exact .pure (by simpa [plainJump, Statement.marks] using h)
    · refine .get_bind ?_
      split
      · exact .modify_bind (.pure (h.then_eq rfl rfl))
      · exact (hv _ _ _).bind fun _ _ h' => .pure (by simpa using h.append h')
  · exact .pure h

theorem tracked_writeHandlers
    {region start : NodeId}
    {catches : List NodeId}
    {follow : Option NodeId}
    (hkind : (src.node region).kind.base = .tryBlock start catches follow)
    (handlers : List NodeId)
    (hsub : handlers ⊆ catches) :
    Tracked src clauseMarks (src.writeHandlers visit ctx handlers) := by
  induction handlers with
  | nil => exact fun s => .of_eq rfl rfl
  | cons id rest ih =>
      have hlater := ih fun n hn => hsub (List.mem_cons_of_mem id hn)
      have hmarked (s : Progress) :
          Tracks src s [] { s with visited := OrderedSet.insert s.visited id } :=
        .markVisited fun _ => .handler hkind (hsub List.mem_cons_self)
      refine fun s => .modify_bind ?_
      split
      · refine ((steady_catchDeclaration _ _).tracked src _).bind fun _ _ h₁ =>
          (hv _ _ _).bind fun _ _ h₂ => (hlater _).bind fun _ _ h₃ => .pure ?_
        exact ((((hmarked s).append h₁).append h₂).append h₃)
      · exact (hlater _).mono fun _ _ h => (hmarked s).append h

theorem tracked_writeRegion
    {start : NodeId}
    {catches : List NodeId}
    {follow : Option NodeId}
    (hkind : (src.node id).kind.base = .tryBlock start catches follow) :
    Tracked src blockMarks (src.writeRegion visit ctx start catches follow) := fun s =>
  (hv _ _ s).bind fun _ _ h₁ =>
    (tracked_writeHandlers hv hkind catches (List.Subset.refl _) _).bind fun _ _ h₂ =>
      (tracked_writeNext hv follow _).bind fun _ _ h₃ => .pure <| by
        simpa [Statement.marks] using (h₁.append h₂).append h₃

theorem tracked_writeKind
    (kind : NodeKind)
    (hinside : Inside kind (src.node id).kind)
    (ctx : Context) :
    TrackedFor src id blockMarks (src.writeKind visit id kind ctx) := by
  have htwoWay (ctx : Context) : Tracked src blockMarks (src.writeCond visit ctx id) := by
    intro s
    unfold Source.writeCond
    split
    · exact .pure (.of_eq rfl rfl)
    · exact tracked_writeBranch hv _ s
  induction kind generalizing ctx with
  | loop inner type ih => exact tracked_writeLoop hv (ih hinside.loop) hinside
  | statement => exact fun s _ => tracked_writeStraight hv s
  | ret => exact fun s _ => tracked_instructions _ s
  | throw => exact fun s _ => tracked_instructions _ s
  | conditional => exact fun s _ => htwoWay ctx s
  | shortCircuit => exact fun s _ => htwoWay ctx s
  | switch cases => exact fun s _ => tracked_writeSwitch hv cases s
  | tryBlock start catches follow =>
      exact fun s _ => tracked_writeRegion hv hinside.base_eq.symm s
  | catchBlock start => exact fun s _ => hv ctx start s

theorem tracked_codeOf :
    TrackedFor src id blockMarks (codeOf src visit ctx id) :=
  fun s hvisited => (tracked_declareVars src _ s).bind fun _ _ h =>
    (tracked_writeKind hv _ (.refl _) ctx _ (h.visited hvisited)).bind
      fun _ _ h' => .pure (by simpa using h.append h')

end Visiting

theorem writeNode_eq : src.writeNode visit ctx id = do
    Source.markVisited id
    let code ← codeOf src visit ctx id
    return (if src.labels.contains id then [.label (src.labelOf id)] else []) ++ code := by
  simp [Source.writeNode, codeOf, List.append_assoc]

theorem tracked_enterNode
    (hstay : ∀ n ∈ src.labels, (src.node n).kind.isExit = false)
    {depth : Nat}
    (hv : ∀ ctx id, Tracked src blockMarks (src.walk depth ctx id)) :
    Tracked src blockMarks (src.enterNode (src.walk depth) ctx id) := by
  intro s
  unfold Source.enterNode
  split
  · exact .pure (.of_eq rfl rfl)
  split
  · exact .pure (.of_eq rfl rfl)
  refine .modify_bind (.get_bind ?_)
  split
  · next hagain =>
      obtain ⟨hstays, hvisited⟩ := Bool.and_eq_true_iff.1 hagain
      refine .modify_bind (.pure ((Tracks.goto ?_ ?_).after_eq rfl rfl))
      · simpa using hvisited
      · simpa using hstays
  · next hfirst =>
      have hnew : id ∈ src.labels → id ∉ s.visited := fun hneeded => by
        simpa [hstay id hneeded] using hfirst
      have hlabel : blockMarks (if src.labels.contains id then [.label (src.labelOf id)] else []) =
          if src.labels.contains id then [.label (src.labelOf id)] else [] := by
        split <;> rfl
      have hwritten (s : Progress) (hvisited : id ∈ s.visited) :
          Ensures (codeOf src (src.walk depth) ctx id) s fun code s' =>
            WrittenFor src id code ∧ Tracks src s (blockMarks code) s' :=
        ⟨⟨depth, ctx, s, rfl⟩, tracked_codeOf hv s hvisited⟩
      rw [writeNode_eq]
      refine .modify_bind ?_
      refine (hwritten _ (OrderedSet.mem_insert.2 (.inr rfl))).bind fun code s' ⟨hwrote, h⟩ => ?_
      refine .pure ?_
      rw [Java.blockMarks_append, hlabel]
      exact Tracks.enter hnew hwrote (h.after_eq rfl rfl)

theorem tracked_walk
    (hstay : ∀ n ∈ src.labels, (src.node n).kind.isExit = false)
    (depth : Nat) :
    ∀ ctx id, Tracked src blockMarks (src.walk depth ctx id) := by
  induction depth with
  | zero => exact fun _ _ s => .of_eq rfl rfl
  | succ depth ih => exact fun ctx id => tracked_enterNode hstay ih

end Writing

/-- No jump leads to an exit, which is written again instead. -/
theorem isExit_of_mem_gotoTargets
    (src : Source)
    (vars : Variables)
    (naming : Java.Naming) :
    ∀ id ∈ (src.body.run (.start vars naming)).2.gotoTargets,
      (src.node id).kind.isExit = false := by
  have htracks := @tracked_walk (src.relabel []) nofun
    ((src.graph.size + 1) * (src.graph.size + 1)) .outermost src.graph.entry (.start vars naming)
  have hsame : (src.body.run (.start vars naming)).2.gotoTargets =
      ((src.relabel []).body.run (.start vars naming)).2.gotoTargets :=
    gotoTargets_relabel (src.relabel []) src.labels vars naming naming
  intro id hid
  rw [hsame] at hid
  exact ((htracks.met id hid).resolve_left List.not_mem_nil).2

/-- How labels and jumps of a body belong together: its labels are those of the nodes that are
written for jumps, each of which is written once, behind its label, and a jump leads to a node that
is written, unless this is only marked.  If the numbers of these nodes differ, each of them has one
label. -/
structure Resolves (src : Source) (visited : List NodeId) (body : Block) (written : List NodeId) :
    Prop where
  nodup : written.Nodup
  subset : written ⊆ visited
  names : labelNames (blockMarks body) = written.map src.labelOf
  inFront : ∀ id ∈ written, InFront src (blockMarks body) id
  gotos : ∀ name ∈ gotoNames (blockMarks body), ∃ id ∈ visited,
    (src.node id).kind.isExit = false ∧ src.labelOf id = name ∧
      (id ∈ written ∨ OnlyMarked src.graph id)
  single :
    (∀ id ∈ written, ∀ other ∈ written, (src.node id).num = (src.node other).num → id = other) →
      ∀ id ∈ written, (labelNames (blockMarks body)).count (src.labelOf id) = 1

/-- What one pass writes, if its labels are those of the nodes that it meets again. -/
theorem tracks_body
    {src : Source}
    {vars : Variables}
    {naming : Java.Naming}
    {body : Block}
    {s : Progress}
    (hrun : src.body.run (.start vars naming) = (body, s))
    (hlabels : s.gotoTargets = src.labels) :
    Tracks src (.start vars naming) (blockMarks body) s := by
  have hstay : ∀ id ∈ src.labels, (src.node id).kind.isExit = false := by
    have := isExit_of_mem_gotoTargets src vars naming
    rwa [hrun, hlabels] at this
  have htracks := tracked_walk hstay ((src.graph.size + 1) * (src.graph.size + 1)) .outermost
    src.graph.entry (.start vars naming)
  rwa [Ensures, show src.walk _ _ _ = src.body from rfl, hrun] at htracks

/-- Each node that is met again has its label, unless it is only marked. -/
theorem Tracks.inFront
    {src : Source}
    {vars : Variables}
    {naming : Java.Naming}
    {marks : List Mark}
    {s : Progress}
    (h : Tracks src (.start vars naming) marks s)
    (hlabels : s.gotoTargets = src.labels) :
    ∀ id ∈ src.labels, InFront src marks id ∨ OnlyMarked src.graph id := by
  intro id hid
  obtain ⟨written, -, -, hnew, hall⟩ := h.labels
  obtain ⟨hvisited, -⟩ := (h.met id (hlabels ▸ hid)).resolve_left List.not_mem_nil
  exact (hall id hvisited List.not_mem_nil hid).imp_left fun hmem => (hnew id hmem).2.2

/-- The labels and jumps of every method resolve. -/
theorem goto_resolves
    (w : Writing)
    (g : FlowGraph)
    (vars : Variables)
    (naming : Java.Naming) :
    ∃ (src : Source) (body : Block) (written : List NodeId),
      src.writing = w ∧ src.graph = g ∧ (emit w g vars naming).method.body = some body ∧
        Resolves src (emit w g vars naming).visited body written := by
  obtain ⟨src, naming', body, s, rfl, rfl, hrun, hlabels, hbody, hvisited, -⟩ :=
    emit_eq w g vars naming
  have htracks := tracks_body hrun hlabels
  obtain ⟨written, hnodup, hnames, hnew, hall⟩ := htracks.labels
  refine ⟨src, body, written, rfl, rfl, hbody, hvisited ▸ ?_⟩
  exact
    { nodup := hnodup
      subset := fun id hid => (hnew id hid).2.1
      names := hnames
      inFront := fun id hid => (hnew id hid).2.2
      gotos := fun name hname => by
        obtain ⟨id, hid, rfl⟩ := htracks.gotos name (Java.mem_gotoNames.1 hname)
        obtain ⟨hvisited', hstays⟩ := (htracks.met id hid).resolve_left List.not_mem_nil
        exact ⟨id, hvisited', hstays, rfl, hall id hvisited' List.not_mem_nil (hlabels ▸ hid)⟩
      single := fun hdistinct id hid => by
        have hunique : (written.map src.labelOf).Nodup :=
          List.Nodup.map_on
            (fun i hi j hj hsame => hdistinct i hi j hj (num_of_labelOf_eq hsame)) hnodup
        rw [hnames]
        exact List.count_eq_one_of_mem hunique (List.mem_map_of_mem hid) }

/-- Two loops: one is tested behind, and the other one starts at the node with its condition. -/
def sharedCondition : FlowGraph :=
  { FlowGraph.empty with
    slots := #[
      sampleSlot 1 none (.conditional ⟨1, 1⟩) [sampleTest 0] [1] [1],
      sampleSlot 2 none (.conditional ⟨0, 2⟩) [sampleTest 2] [2, 0] [0, 3],
      sampleSlot 3 none .statement [] [3] [1],
      sampleSlot 4 none (.conditional ⟨1, 4⟩) [sampleTest 1] [4, 1] [2],
      sampleSlot 5 none .ret [.ret none] [] [3]]
    order := [0, 1, 2, 3, 4] }

/-- The second loop jumps back to the condition of the first one, in front of which no label can
stand. -/
theorem sharedCondition_unlabelled :
    let g := (sharedCondition.structured sharedCondition.dominatorTree 64 "f").graph
    let marks := (emit sampleWriting g .empty .empty).method.body.map blockMarks
    marks.map gotoNames = some ["L2", "L1"] ∧ marks.map labelNames = some ["L1"] := by
  cbv

end Emission
end DalvikDecompiler
