import DalvikDecompiler.Proofs.Emission.Loops
import DalvikDecompiler.Proofs.Emission.WalkScoping

/-!
# The scopes of a body

A node is written with the declarations that stand in front of it.  Where a node that leaves the
method is met again, its code is written again, but nothing is declared again, so that variables at
home there are used out of scope.  All other uses lie in the scope of a declaration.

Main statement: `emit_scoped`, for graphs whose variables have homes.
-/

namespace DalvikDecompiler
namespace Emission

open Symbolic (VarId Variables Instr)
open Java (Block Expression Statement Mark blockMarks blockStrays blockDeclared boundNames)

section Marking

variable {src : Source} {vars : Variables} {home : VarId → NodeId}
variable {id : NodeId} {names strays declared : List String} {s s' : Progress} {code : Block}

/-- A node that leaves the method is no region. -/
theorem not_catches_of_isExit
    {g : FlowGraph}
    {n handler : NodeId}
    (hleaves : (g.node n).kind.isExit = true) :
    ¬ Catches g n handler := by
  rintro ⟨hkind, -⟩
  rw [NodeKind.isExit, hkind] at hleaves
  cases hleaves

/-- The code of a node that is met for the first time. -/
theorem Scopes.enter
    (homes : Homes src.graph vars home)
    (hentered : Entered src.graph id)
    (hnew : id ∉ s.visited)
    (hwrote : WrittenFor src id code)
    (h : Scopes src vars home (some id) { s with visited := OrderedSet.insert s.visited id } strays
      declared (blockMarks code) s')
    (hleaving : (src.node id).kind.isExit = true → strays = []) :
    Scopes src vars home none s strays declared (blockMarks code) s' where
  synced := h.synced
  visited := fun n hn => h.visited (OrderedSet.mem_insert.2 (.inl hn))
  kept := h.kept
  declares := h.declares
  copies n hn hfresh hleaves := by
    by_cases here : n = id
    · exact .inl ⟨[], code, [], here ▸ hwrote, by simp⟩
    · refine h.copies n hn (fun hmarked => ?_) hleaves
      exact (OrderedSet.mem_insert.1 hmarked).elim hfresh here
  guards region handler v hcatches hbinds hn := by
    rcases h.guards region handler v hcatches hbinds hn with hmarked | houtside | ⟨⟨⟩⟩
    · rcases OrderedSet.mem_insert.1 hmarked with hold | rfl
      · exact .inl hold
      · exact absurd hentered (homes.handlers.apart region handler hcatches)
    · exact .inr (.inl fun hold => houtside (OrderedSet.mem_insert.2 (.inl hold)))
    · exact .inr (.inl hnew)
  strays name hname := by
    obtain ⟨v, rfl, hrep, huncaught⟩ := h.strays name hname
    refine ⟨v, rfl, ⟨hrep.leaves, hrep.again.imp_left fun ⟨hmarked, hcopied⟩ => ⟨?_, hcopied⟩⟩,
      huncaught⟩
    refine (OrderedSet.mem_insert.1 hmarked).resolve_right fun here => ?_
    rw [hleaving (here ▸ hrep.leaves)] at hname
    cases hname

/-- The code of a node that leaves the method and is met again. -/
theorem Scopes.again
    (homes : Homes src.graph vars home)
    (hold : id ∈ s.visited)
    (hleaves : (src.node id).kind.isExit = true)
    (hwrote : WrittenFor src id code)
    (h : Scopes src vars home (some id) s [] declared (blockMarks code) s')
    (hsettled : ∀ name ∈ strays, ∃ v, name = vars.name v ∧ home v = id ∧
      Needs src.graph vars home id v) :
    Scopes src vars home none s strays declared (blockMarks code) s' :=
  { h with
    guards := fun region handler v hcatches hbinds hn => by
      rcases h.guards region handler v hcatches hbinds hn with hbefore | houtside | ⟨⟨⟩⟩
      · exact .inl hbefore
      · exact .inr (.inl houtside)
      · exact absurd hcatches (not_catches_of_isExit hleaves)
    strays := fun name hname => by
      obtain ⟨v, rfl, rfl, hneeds⟩ := hsettled name hname
      refine ⟨v, rfl, ⟨hleaves, .inl ⟨hold, [], code, [], hwrote, by simp⟩⟩,
        fun region hcaught => ?_⟩
      obtain ⟨start, type, hkind⟩ := homes.caught region _ v hcaught rfl hneeds
      rw [Source.node, hkind] at hleaves
      cases hleaves }

end Marking

section Nodes

variable {src : Source} {vars : Variables} {home : VarId → NodeId} {visit : Walk} {depth : Nat}
variable {ctx : Context} {id : NodeId} {names : List String} {s : Progress}

variable (homes : Homes src.graph vars home)
include homes

/-- The code of a node keeps variables in scope, if those at home there that have been declared are
so in front of it. -/
theorem scoped_codeOf
    (houter : Scoped src vars home none visit)
    (h : Prepared src vars home names s id)
    (hvisited : id ∈ s.visited)
    (hknown : ∀ v, Needs src.graph vars home id v → home v = id → s.vars.isDeclared v = true →
      vars.name v ∈ names)
    (hfresh : ∀ handler v, Catches src.graph id handler → src.graph.Binds handler v →
      handler ∉ s.visited) :
    Ensures (codeOf src visit ctx id) s fun code s' =>
      BlockScopes src vars home (some id) names s code s' ∧
        ((src.node id).kind.isExit = true → blockStrays names code = []) := by
  have here (v : VarId) (hmem : v ∈ (src.node id).declares) (hplain : vars.isParam v = false) :
      home v ∈ s.visited :=
    homes.placed id v hmem hplain ▸ hvisited
  have hdeclared : Ensures (Source.declareVars (src.node id).declares) s
      (Declared src vars home s (src.node id).declares) :=
    declared_declareVars _ h.synced here
  unfold codeOf
  refine hdeclared.bind fun block s₁ hfront => ?_
  have hsettled (v : VarId) (hneeds : Needs src.graph vars home id v) (here : home v = id)
      (hdeclared : s₁.vars.isDeclared v = true) : vars.name v ∈ names ++ boundNames block := by
    rcases hfront.only v hdeclared with hold | ⟨-, hbound⟩
    · exact List.mem_append_left _ (hknown v hneeds here hold)
    · exact List.mem_append_right _ hbound
  have hopened : Opened src vars home (names ++ boundNames block) s₁ id :=
    { h.toSupplied.after hfront.wrote (List.subset_append_left _ _) with
      held := fun v hneeds hunsettled => by
        by_cases here : home v = id
        · have hmem : v ∈ (src.node id).declares :=
            by_contra fun habsent => hunsettled ⟨here, habsent⟩
          have hdeclared := hfront.all v hmem hneeds.plain (homes.isSome_get? hneeds)
          exact ⟨hsettled v hneeds here hdeclared, hdeclared⟩
        · exact (h.held v hneeds here).mono (List.subset_append_left _ _) (hfront.wrote.kept v)
      entered := h.entered
      visited := hfront.visited ▸ hvisited
      settled := hsettled
      fresh := hfront.visited ▸ hfresh }
  refine (scoped_writeKind homes houter _ (.refl _) ctx _ s₁ hopened).bind fun body s₂ hkind =>
    .pure ⟨?_, fun hleaves => ?_⟩
  · have hdeclaring : BlockScopes src vars home (some id) names s block s₁ := by
      rw [BlockScopes, hfront.strays]
      exact hfront.wrote.within _
    exact hdeclaring.append hkind.wrote
  · have hplain := leaves_of_isExit hleaves (homes.exits_end id hleaves)
    rw [Java.blockStrays_append, hfront.strays, hkind.leaving hplain, List.append_nil]

omit homes in
theorem ensures_written
    {post : Block → Progress → Prop}
    (h : Ensures (codeOf src (src.walk depth) ctx id) s post) :
    Ensures (codeOf src (src.walk depth) ctx id) s fun code s' =>
      WrittenFor src id code ∧ post code s' :=
  ⟨⟨depth, ctx, s, rfl⟩, h⟩

variable (houter : Scoped src vars home none (src.walk depth))
include houter

theorem scoped_firstCode
    (h : Prepared src vars home names s id)
    (hnew : id ∉ s.visited) :
    Ensures (codeOf src (src.walk depth) ctx id)
      { s with visited := OrderedSet.insert s.visited id }
      (BlockScopes src vars home none names s) := by
  have huncaught (region : NodeId) : ¬ Catches src.graph region id := fun hcatches =>
    homes.handlers.apart region id hcatches h.entered
  have hmarked : Prepared src vars home names
      { s with visited := OrderedSet.insert s.visited id } id :=
    { h with
      synced := h.synced.mark fun region _ hcatches _ => absurd hcatches (huncaught region)
      held := fun v hneeds hapart =>
        (h.held v hneeds hapart).mono (List.Subset.refl _) fun hstill => hstill }
  refine (ensures_written (scoped_codeOf homes houter hmarked (OrderedSet.mem_insert.2 (.inr rfl))
    ?_ ?_)).mono fun code s' ⟨hwrote, hkept, hnoStrays⟩ =>
      Scopes.enter homes h.entered hnew hwrote hkept hnoStrays
  · intro v hneeds here hdeclared
    exact absurd (here ▸ h.synced.visited v hneeds.plain hdeclared) hnew
  · intro handler v hcatches hbinds hvisited
    rcases OrderedSet.mem_insert.1 hvisited with hbefore | rfl
    · exact hnew (h.synced.regions id handler v hcatches hbinds hbefore)
    · exact huncaught _ hcatches

theorem scoped_nextCode
    (h : Prepared src vars home names s id)
    (hold : id ∈ s.visited)
    (hleaves : (src.node id).kind.isExit = true) :
    Ensures (codeOf src (src.walk depth) ctx id) s (BlockScopes src vars home none names s) := by
  classical
  -- With the variables in scope that are at home here, nothing would be used out of scope.
  let more := (vars.ids.filter fun v => Needs src.graph vars home id v ∧ home v = id).map vars.name
  have hinside : Prepared src vars home (names ++ more) s id :=
    { h with
      arguments := List.Subset.trans h.arguments (List.subset_append_left _ _)
      held := fun v hneeds hapart => (h.held v hneeds hapart).widen (List.subset_append_left _ _) }
  have hknown (v : VarId) (hneeds : Needs src.graph vars home id v) (here : home v = id)
      (_ : s.vars.isDeclared v = true) : vars.name v ∈ names ++ more := by
    refine List.mem_append_right _ (List.mem_map_of_mem (List.mem_filter.2 ⟨?_, ?_⟩))
    · have hexist := homes.isSome_get? hneeds
      simpa [Variables.ids, Variables.size, Variables.get?] using hexist
    · simpa using ⟨hneeds, here⟩
  refine (ensures_written (scoped_codeOf homes houter hinside hold hknown fun _ _ hcatches =>
    absurd hcatches (not_catches_of_isExit hleaves))).mono fun code s' hwritten => ?_
  obtain ⟨hwrote, hkept, hnoStrays⟩ := hwritten
  rw [BlockScopes, hnoStrays hleaves] at hkept
  refine hkept.again homes hold hleaves hwrote fun name hname => ?_
  rcases Java.mem_or_mem_blockStrays more names hname with hmem | hstray
  · obtain ⟨v, hlisted, rfl⟩ := List.mem_map.1 hmem
    obtain ⟨hneeds, here⟩ := of_decide_eq_true (List.mem_filter.1 hlisted).2
    exact ⟨v, rfl, here, hneeds⟩
  · rw [hnoStrays hleaves] at hstray
    cases hstray

theorem scoped_writeNode
    (h : Prepared src vars home names s id)
    (hfirst : (src.node id).kind.isExit = true ∨ id ∉ s.visited) :
    Ensures (src.writeNode (src.walk depth) ctx id) s
      (BlockScopes src vars home none names s) := by
  have hcode : Ensures (codeOf src (src.walk depth) ctx id)
      { s with visited := OrderedSet.insert s.visited id }
      (BlockScopes src vars home none names s) := by
    by_cases hold : id ∈ s.visited
    · rw [OrderedSet.insert_of_mem hold]
      exact scoped_nextCode homes houter h hold (hfirst.resolve_right (not_not.2 hold))
    · exact scoped_firstCode homes houter h hold
  rw [writeNode_eq]
  refine .modify_bind <| hcode.bind fun code s' hwrote => .pure ?_
  split
  · have hlabel : BlockScopes src vars home none names s [.label (src.labelOf id)] s :=
      .inert h.synced rfl rfl [.label (src.labelOf id)]
    exact hlabel.append (by simpa [Statement.bound] using hwrote)
  · exact hwrote

theorem scoped_enterNode :
    Scoped src vars home none (src.enterNode (src.walk depth)) := by
  intro ctx id names s h
  unfold Source.enterNode
  split
  · exact .pure (blockScopes_plainJump h.synced .continue)
  split
  · exact .pure (.nil h.synced)
  refine .modify_bind (.get_bind ?_)
  have hsame : Prepared src vars home names
      { s with dangling := s.dangling || !src.graph.hasSlot id } id :=
    ⟨h.toSupplied.then_eq rfl rfl, h.entered⟩
  split
  · refine .modify_bind (.pure ?_)
    exact .inert h.synced (by rfl) (by rfl) [.goto (src.labelOf id)]
  · next hfirst =>
      have hfirst : (src.node id).kind.isExit = true ∨ id ∉ s.visited := by
        simpa [or_iff_not_imp_left] using hfirst
      exact (scoped_writeNode homes houter hsame hfirst).mono fun code s' hwrote =>
        Scopes.after_eq hwrote h.synced rfl rfl

omit houter in
/-- A walk keeps variables in scope. -/
theorem scoped_walk
    (depth : Nat) :
    Scoped src vars home none (src.walk depth) := by
  induction depth with
  | zero => exact fun _ _ _ _ h => .pure (.nil h.synced)
  | succ depth ih => exact scoped_enterNode homes ih

end Nodes

/-- The declarations of a method are in place: no variable is declared twice, and what is used out
of scope is at home in a node that leaves the method, the code of which stands in the text twice. -/
structure InPlace (src : Source) (vars : Variables) (home : VarId → NodeId) (body : Block) :
    Prop where
  once : ∃ ids : List (Option VarId), ids.reduceOption.Nodup ∧
    blockDeclared body = ids.map (boundName vars)
  strays : ∀ name ∈ blockStrays (argumentNames vars) body, ∃ v, name = vars.name v ∧
    (src.node (home v)).kind.isExit = true ∧ Twice src (blockMarks body) (home v)

/-- `if (a == 0) { b = 1; } else { b = 2; } while (b == 0) { b = 3; } return b;` -/
def chosenStart : FlowGraph :=
  { FlowGraph.empty with
    slots := #[
      markedSlot (sampleSlot 1 none (.conditional ⟨1, 2⟩) [sampleTest 0] [1, 2] []) fun node =>
        { node with declares := [1] },
      sampleSlot 3 none .statement [sampleAssignment 1] [3] [0],
      sampleSlot 2 none .statement [sampleAssignment 2] [3] [0],
      sampleSlot 4 none (.conditional ⟨4, 5⟩) [sampleTest 1] [4, 5] [1, 2, 4],
      sampleSlot 6 none .statement [sampleAssignment 3] [3] [3],
      sampleSlot 5 none .ret [.ret (some (.var 1))] [] [3]]
    order := [0, 2, 1, 3, 5, 4] }

/-- The same graph with the marks of the structuring stages. -/
def chosenStartMarked : FlowGraph :=
  { chosenStart with
    slots := #[
      markedSlot (sampleSlot 1 (some 3) (.conditional ⟨1, 2⟩) [sampleTest 0] [1, 2] []) fun node =>
        { node with declares := [1] },
      sampleSlot 3 none .statement [sampleAssignment 1] [3] [0],
      sampleSlot 2 none .statement [sampleAssignment 2] [3] [0],
      markedSlot
        (sampleSlot 4 (some 5) (.loop (.conditional ⟨4, 5⟩) .preTest) [sampleTest 1] [4, 5]
          [1, 2, 4])
        fun node =>
          { node with
            loopFollow := some 5
            startsLoop := true
            latch := some 4
            loopNodes := [3, 4] },
      markedSlot (sampleSlot 6 none .statement [sampleAssignment 3] [3] [3]) fun node =>
        { node with loopFollow := some 5 },
      sampleSlot 5 none .ret [.ret (some (.var 1))] [] [3]] }

/-- An argument and another variable. -/
def twoVariables : Variables :=
  { entries := #[.fresh (.param 0) (some "I"), .fresh (.register 1) (some "I")]
    registers := []
    params := [0]
    temps := 0 }

theorem structured_chosenStart :
    sampleStructured chosenStart = chosenStartMarked := by cbv

/-- The code of the nodes mentions the two variables. -/
theorem used_chosenStart :
    ((List.range 6).all fun n => (chosenStartMarked.ownCode n ++ chosenStartMarked.tests n).all
      fun ins => (ins.reads ++ ins.target?.toList).all (· < 2)) = true := by
  decide

theorem mentions_chosenStart
    {n : NodeId}
    {v : VarId}
    (hmentions : Mentions chosenStartMarked twoVariables n v) :
    v = 1 := by
  obtain ⟨ins, hlisted, hused⟩ : ∃ ins ∈ chosenStartMarked.ownCode n ++ chosenStartMarked.tests n,
      v ∈ ins.reads ++ ins.target?.toList := by
    rcases hmentions.mention with ⟨ins, hlisted, hreads | htarget⟩ | ⟨ins, hlisted, hreads⟩
    · exact ⟨ins, List.mem_append_left _ hlisted, List.mem_append_left _ hreads⟩
    · exact ⟨ins, List.mem_append_left _ hlisted, List.mem_append_right _ (by simp [htarget])⟩
    · exact ⟨ins, List.mem_append_right _ hlisted, List.mem_append_left _ hreads⟩
  rcases Nat.lt_or_ge n 6 with hknown | hunknown
  · have hchecked := List.all_eq_true.1 used_chosenStart n (List.mem_range.2 hknown)
    have hbound : v < 2 := of_decide_eq_true
      (List.all_eq_true.1 (List.all_eq_true.1 hchecked ins hlisted) v hused)
    have hplain := hmentions.plain
    interval_cases v
    · cases hplain
    · rfl
  · have hbare := FlowGraph.node_of_size_le (g := chosenStartMarked) hunknown
    simp [FlowGraph.ownCode, FlowGraph.tests, FlowGraph.testsWithin, hbare, Node.plain,
      NodeKind.base] at hlisted

theorem homes_chosenStart :
    Homes (sampleStructured chosenStart) twoVariables fun _ => 0 := by
  rw [structured_chosenStart]
  have hnodes (n : NodeId) :
      (n < 6 ∨ chosenStartMarked.node n = .plain "" .statement) :=
    (Nat.lt_or_ge n 6).imp_right FlowGraph.node_of_size_le
  refine Homes.of_front ?exits_end ?unprotected ?unbound ?undeclared ?mentioned ?placed ?tested
  case exits_end =>
    intro n hleaves
    rcases hnodes n with hknown | hbare
    · interval_cases n <;> first | rfl | cases hleaves
    · rw [hbare]
      rfl
  case unprotected =>
    intro n start catches follow hkind
    rcases hnodes n with hknown | hbare
    · interval_cases n <;> cases hkind
    · rw [hbare] at hkind
      cases hkind
  case unbound =>
    rintro n v ⟨start, type, hkind⟩
    rcases hnodes n with hknown | hbare
    · interval_cases n <;> cases hkind
    · rw [hbare] at hkind
      cases hkind
  case undeclared =>
    rintro (- | - | v)
    · rfl
    · rfl
    · simp [Variables.isDeclared, Variables.get?, twoVariables]
  case mentioned =>
    intro n v hmentions
    obtain rfl := mentions_chosenStart hmentions
    decide
  case placed =>
    intro n v hmem _
    rcases hnodes n with hknown | hbare
    · interval_cases n <;> first | rfl | cases hmem
    · rw [hbare] at hmem
      cases hmem
  case tested =>
    rintro n ⟨hloop, hlatch, -⟩
    rcases hnodes n with hknown | hbare
    · interval_cases n <;> first | rfl | cases hlatch
    · rw [hbare] at hlatch
      cases hlatch

/-- `do { b = a; } while (b == 0); return b;` -/
def testedLast : FlowGraph :=
  { FlowGraph.empty with
    slots := #[
      sampleSlot 1 none .statement [.assign (some 1) (.var 0)] [1] [1],
      sampleSlot 2 none (.conditional ⟨0, 2⟩) [sampleTest 1] [0, 2] [0],
      sampleSlot 3 none .ret [.ret (some (.var 1))] [] [1]]
    order := [0, 1, 2] }

/-- The same graph with the marks of the structuring stages. -/
def testedLastMarked : FlowGraph :=
  { testedLast with
    slots := #[
      markedSlot
        (sampleSlot 1 none (.loop .statement .postTest) [.assign (some 1) (.var 0)] [1] [1])
        fun node =>
          { node with
            loopFollow := some 2
            startsLoop := true
            latch := some 1
            loopNodes := [0, 1] },
      markedSlot (sampleSlot 2 (some 2) (.conditional ⟨0, 2⟩) [sampleTest 1] [0, 2] [0]) fun node =>
        { node with loopFollow := some 2 },
      sampleSlot 3 none .ret [.ret (some (.var 1))] [] [1]] }

theorem structured_testedLast :
    sampleStructured testedLast = testedLastMarked := by cbv

/-- The method as it is written. -/
def testedLastBody : Block :=
  [.doLoop (condition twoVariables "LT;" (sampleTest 1) false)
      (statement sampleWriting twoVariables (.assign (some 1) (.var 0))).1.toList,
    .ret (some (.localVar "v1"))]

end Emission
end DalvikDecompiler
