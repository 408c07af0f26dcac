import DalvikDecompiler.Proofs.Emission.Jumps
import DalvikDecompiler.Proofs.Emission.Scoping
import DalvikDecompiler.Proofs.Emission.WalkLayout

/-!
# The scopes of what a walk writes

Each way of writing a node keeps variables in scope, provided that the nodes it leads to are written
so.  Code that stands behind other code in a block sees what this declares; code behind a loop, a
branch, an arm or a protected region does not see what is declared inside.

Main statement: `scoped_writeKind`, for nodes of all kinds in graphs whose variables have homes.
-/

namespace DalvikDecompiler
namespace Emission

open Symbolic (VarId Variables Instr)
open Java (Block Expression Statement Mark SwitchArm CatchClause blockMarks elseMarks armMarks
  clauseMarks blockStrays elseStrays armStrays clauseStrays boundNames outside outside_eq_nil
  blockStrays_append blockDeclared elseDeclared armDeclared clauseDeclared)

/-- A block that keeps variables in scope, if some names are in scope in front of it. -/
abbrev BlockScopes (src : Source) (vars : Variables) (home : VarId → NodeId)
    (current : Option NodeId) (names : List String) (s : Progress) (block : Block)
    (s' : Progress) : Prop :=
  Scopes src vars home current s (blockStrays names block) (blockDeclared block)
    (blockMarks block) s'

/-- A statement that keeps variables in scope, and puts none in scope behind it. -/
structure StatementScopes (src : Source) (vars : Variables) (home : VarId → NodeId)
    (current : Option NodeId) (names : List String) (s : Progress) (st : Statement)
    (s' : Progress) : Prop where
  wrote : Scopes src vars home current s (st.strays names) st.declared st.marks s'
  unbound : st.bound = []

/-- A way of writing nodes that keeps variables in scope, if they are so where it starts. -/
def Scoped (src : Source) (vars : Variables) (home : VarId → NodeId) (current : Option NodeId)
    (visit : Walk) : Prop :=
  ∀ ctx id names s, Prepared src vars home names s id →
    Ensures (visit ctx id) s (BlockScopes src vars home current names s)

/-- What the code of a node of some kind does: unless the block of the node is the body of a loop,
everything that is needed is in scope behind it. -/
structure KindScopes (src : Source) (vars : Variables) (home : VarId → NodeId)
    (current : Option NodeId) (id : NodeId) (kind : NodeKind) (names : List String) (s : Progress)
    (block : Block) (s' : Progress) : Prop where
  wrote : BlockScopes src vars home current names s block s'
  furnished : kind.isLoop = false → Furnished src vars home (names ++ boundNames block) s' id
  leaving : kind = .ret ∨ kind = .throw → blockStrays names block = []

/-- A way of writing the code of a node that keeps variables in scope. -/
def ScopedKind (src : Source) (vars : Variables) (home : VarId → NodeId)
    (current : Option NodeId) (id : NodeId) (kind : NodeKind) (head : Context → EmitM Block) :
    Prop :=
  ∀ ctx names s, Opened src vars home names s id →
    Ensures (head ctx) s (KindScopes src vars home current id kind names s)

section Blocks

variable {src : Source} {vars : Variables} {home : VarId → NodeId} {current : Option NodeId}
variable {names : List String} {s s₁ s₂ s₃ : Progress}

theorem BlockScopes.append
    {block block' : Block}
    (h : BlockScopes src vars home current names s block s₁)
    (h' : BlockScopes src vars home current (names ++ boundNames block) s₁ block' s₂) :
    BlockScopes src vars home current names s (block ++ block') s₂ := by
  rw [BlockScopes, blockStrays_append, Java.blockDeclared_append, Java.blockMarks_append]
  exact Scopes.append h h'

theorem BlockScopes.nil
    (hsynced : Synced src.graph vars home s) :
    BlockScopes src vars home current names s [] s :=
  .inert hsynced rfl rfl []

theorem StatementScopes.cons
    {st : Statement}
    {block : Block}
    (h : StatementScopes src vars home current names s st s₁)
    (h' : BlockScopes src vars home current names s₁ block s₂) :
    BlockScopes src vars home current names s (st :: block) s₂ := by
  rw [BlockScopes, Java.blockStrays_cons, Java.blockDeclared_cons, Java.blockMarks_cons, h.unbound,
    List.append_nil]
  exact h.wrote.append h'

theorem StatementScopes.single
    {st : Statement}
    (h : StatementScopes src vars home current names s st s₁) :
    BlockScopes src vars home current names s [st] s₁ :=
  h.cons (.nil h.wrote.synced)

/-- A jump without a label uses nothing. -/
theorem blockScopes_plainJump
    (hsynced : Synced src.graph vars home s)
    (keyword : Java.JumpKind) :
    BlockScopes src vars home current names s [plainJump keyword] s := by
  cases keyword <;> exact .inert hsynced rfl rfl []

/-- A loop whose condition is tested in front of its body. -/
theorem TestScopes.whileLoop
    {e : Expression}
    {body : Block}
    (h : TestScopes src vars home names s e s₁)
    (hinside : BlockScopes src vars home current names s₁ body s₂) :
    StatementScopes src vars home current names s (.whileLoop e (dropFinalContinue body)) s₂ := by
  refine ⟨?_, rfl⟩
  rw [Statement.strays, Statement.declared, Statement.marks, h.inScope,
    blockStrays_dropFinalContinue, blockDeclared_dropFinalContinue, blockMarks_dropFinalContinue]
  exact (h.wrote current [.tests e]).append hinside

/-- A loop whose condition is tested behind its body. -/
theorem TestScopes.doLoop
    {e : Expression}
    {body : Block}
    (hinside : BlockScopes src vars home current names s body s₁)
    (h : TestScopes src vars home names s₁ e s₂) :
    StatementScopes src vars home current names s (.doLoop e (dropFinalContinue body)) s₂ := by
  refine ⟨?_, rfl⟩
  rw [Statement.strays, Statement.declared, Statement.marks, h.inScope,
    blockStrays_dropFinalContinue, blockDeclared_dropFinalContinue, blockMarks_dropFinalContinue]
  simpa using Scopes.append hinside (h.wrote current [.tests e])

/-- A branch. -/
theorem TestScopes.ifThen
    {e : Expression}
    {thenBlock : Block}
    {elseBlock : Option Block}
    (h : TestScopes src vars home names s e s₁)
    (hinside : BlockScopes src vars home current names s₁ thenBlock s₂)
    (hotherwise : Scopes src vars home current s₂ (elseStrays names elseBlock)
      (elseDeclared elseBlock) (elseMarks elseBlock) s₃) :
    StatementScopes src vars home current names s (.ifThen e thenBlock elseBlock) s₃ := by
  refine ⟨?_, rfl⟩
  rw [Statement.strays, Statement.declared, Statement.marks, h.inScope]
  exact (h.wrote current [.tests e]).append (Scopes.append hinside hotherwise)

theorem TestScopes.expression
    {e : Expression}
    (h : TestScopes src vars home names s e s₁) :
    StatementScopes src vars home current names s (.expression e) s₁ := by
  refine ⟨?_, rfl⟩
  rw [Statement.strays, h.inScope]
  exact h.wrote current [.simple (.expression e)]

theorem BlockScopes.unlessEmpty
    {block : Block}
    (h : BlockScopes src vars home current names s block s₁) :
    Scopes src vars home current s (elseStrays names (unlessEmpty block))
      (elseDeclared (unlessEmpty block)) (elseMarks (unlessEmpty block)) s₁ := by
  rw [elseStrays_unlessEmpty, elseDeclared_unlessEmpty, elseMarks_unlessEmpty]
  exact h

end Blocks

section Visiting

variable {src : Source} {vars : Variables} {home : VarId → NodeId} {current : Option NodeId}
variable {visit : Walk}
variable {ctx : Context} {id : NodeId} {names : List String} {s : Progress}

variable (homes : Homes src.graph vars home)
variable (hv : Scoped src vars home current visit)

include hv in
theorem scoped_writeNext
    {next : Option NodeId}
    (hsynced : Synced src.graph vars home s)
    (hprepared : ∀ n, next = some n → Prepared src vars home names s n) :
    Ensures (Source.writeNext visit ctx next) s (BlockScopes src vars home current names s) := by
  cases next with
  | none => exact .pure (.nil hsynced)
  | some n => exact hv ctx n names s (hprepared n rfl)

section Loops

include hv in
theorem scoped_preTestLoop
    {b : BranchTargets}
    (h : Furnished src vars home names s id)
    (htargets : (src.node id).kind.targets? = some b) :
    Ensures (src.preTestLoop visit ctx id b) s (StatementScopes src vars home current names s) := by
  refine (tests_conditionOf h (fun _ _ => trivial) _).bind fun e s₁ htest => ?_
  have hinside := h.after (htest.wrote none []) (List.Subset.refl _)
  refine (hv _ _ names s₁ (hinside.prepared (.branch htargets ?_))).bind fun body s₂ hwrote =>
    .pure (htest.whileLoop hwrote)
  split
  · exact .inr rfl
  · exact .inl rfl

variable {head : Context → EmitM Block} {inner : NodeKind} {type : LoopTest}

include homes in
theorem scoped_postTestLoop
    (hh : ScopedKind src vars home current id inner head)
    (hloop : Inside (.loop inner .postTest) (src.node id).kind)
    (h : Opened src vars home names s id) :
    Ensures (src.postTestLoop head ctx id) s (StatementScopes src vars home current names s) := by
  have hslots (latch : Option NodeId) :
      Ensures (latch.forM src.requireSlot) s fun _ s₁ =>
        s₁.visited = s.visited ∧ s₁.vars = s.vars := by
    cases latch <;> exact ⟨rfl, rfl⟩
  refine (hslots _).bind fun _ s₁ ⟨hvisited, hsame⟩ => ?_
  have hopened : Opened src vars home names s₁ id :=
    { h.toSupplied.then_eq hvisited hsame with
      entered := h.entered
      visited := hvisited ▸ h.visited
      settled := hsame ▸ h.settled
      fresh := hvisited ▸ h.fresh }
  refine (hh _ names s₁ hopened).bind fun body s₂ hkind => ?_
  have hbehind := hopened.toSupplied.after hkind.wrote (List.Subset.refl _)
  refine (tests_latchCondition homes hbehind hloop).bind fun e s₃ htest => .pure ?_
  have hwritten := TestScopes.doLoop hkind.wrote htest
  exact ⟨hwritten.wrote.after_eq h.synced hvisited hsame, hwritten.unbound⟩

include homes hv in
theorem scoped_endlessLoop
    (hh : ScopedKind src vars home current id inner head)
    (hloop : Inside (.loop inner type) (src.node id).kind)
    (huntested : type ≠ .postTest)
    (h : Opened src vars home names s id) :
    Ensures (src.endlessLoop visit head ctx id) s
      (StatementScopes src vars home current names s) := by
  refine (hh _ names s h).bind fun first s₁ hkind => .get_bind ?_
  have hlatched : ∀ n, ((src.node id).latch.filter fun l => !s₁.visited.contains l) = some n →
      Prepared src vars home (names ++ boundNames first) s₁ n := by
    intro n hn
    have hlatch := (Option.filter_eq_some_iff.1 hn).1
    have hgoes : GoesOn src.graph id n := .latch hloop huntested hlatch
    cases inner with
    | loop inner' type' =>
        exact (h.toSupplied.after hkind.wrote (List.subset_append_left _ _)).prepared_behind homes
          hgoes (.nested hloop hlatch)
    | _ => exact (hkind.furnished rfl).prepared hgoes
  refine (scoped_writeNext hv hkind.wrote.synced hlatched).bind fun last s₂ hwrote => ?_
  refine .modify_bind (.pure ?_)
  have htest : TestScopes src vars home names s (truthLiteral true) s :=
    ⟨fun _ => .inert h.synced rfl rfl, rfl⟩
  have hwritten := htest.whileLoop (hkind.wrote.append hwrote)
  exact ⟨hwritten.wrote.then_eq rfl rfl, hwritten.unbound⟩

include homes hv in
theorem scoped_writeLoop
    (hh : ScopedKind src vars home current id inner head)
    (hloop : Inside (.loop inner type) (src.node id).kind)
    (h : Opened src vars home names s id) :
    Ensures (src.writeLoop visit head ctx id inner type) s
      (KindScopes src vars home current id (.loop inner type) names s) := by
  have hisLoop : (src.node id).kind.isLoop = true := hloop.isLoop
  have hrest (st : Statement) (s₁ : Progress)
      (hwritten : StatementScopes src vars home current names s st s₁) :
      Ensures (do
          let rest ← Source.writeNext visit ctx (src.node id).loopFollow
          return st :: rest) s₁
        (KindScopes src vars home current id (.loop inner type) names s) := by
    have hbehind := h.toSupplied.after hwritten.wrote (List.Subset.refl _)
    refine (scoped_writeNext hv hwritten.wrote.synced fun n hn => hbehind.prepared_behind homes
      (.behindLoop hisLoop hn) (.follow hisLoop hn)).bind fun block s₂ hwrote' => .pure ?_
    exact ⟨hwritten.cons hwrote', nofun, nofun⟩
  unfold Source.writeLoop
  dsimp only
  split
  · next b htargets =>
      rw [hloop.loop.targets_eq] at htargets
      have hcode : src.graph.ownCode id = [] := ownCode_of_cond (by
        rw [NodeKind.isCond]
        exact htargets ▸ rfl)
      exact (scoped_preTestLoop hv (h.furnished homes hcode) htargets).bind hrest
  · exact (scoped_postTestLoop homes hh hloop h).bind hrest
  · next huntested _ => exact (scoped_endlessLoop homes hv hh hloop huntested h).bind hrest

end Loops

section Branching

variable {b : BranchTargets}

include hv in
theorem scoped_breakingBranch
    (h : Furnished src vars home names s id)
    (negate : Bool)
    {other : NodeId}
    (hgoes : GoesOn src.graph id other) :
    Ensures (src.breakingBranch visit ctx id negate other) s
      (BlockScopes src vars home current names s) := by
  refine (tests_conditionOf h (fun _ _ => trivial) _).bind fun e s₁ htest => ?_
  have hinside := h.after (htest.wrote none []) (List.Subset.refl _)
  refine (hv _ _ names s₁ (hinside.prepared hgoes)).bind fun block s₂ hwrote => .pure ?_
  exact (htest.ifThen (blockScopes_plainJump hinside.synced .break) hwrote.unlessEmpty).single

include hv in
theorem scoped_continuingBranch
    (h : Furnished src vars home names s id)
    (negate : Bool)
    {other : NodeId}
    (hgoes : GoesOn src.graph id other) :
    Ensures (src.continuingBranch visit ctx id negate other) s
      (BlockScopes src vars home current names s) := by
  refine (tests_conditionOf h (fun _ _ => trivial) _).bind fun e s₁ htest => ?_
  have hinside := h.after (htest.wrote none []) (List.Subset.refl _)
  refine (hv _ _ names s₁ (hinside.prepared hgoes)).bind fun block s₂ hwrote => .pure ?_
  have hjump : BlockScopes src vars home current names s₁ [plainJump .continue] s₁ :=
    blockScopes_plainJump hinside.synced .continue
  exact (htest.ifThen hjump (.inert hinside.synced rfl rfl [])).cons hwrote

include hv in
theorem scoped_joinedBranch
    (h : Furnished src vars home names s id)
    (htargets : (src.node id).kind.targets? = some b)
    {follow : NodeId}
    (hjoin : (src.node id).ifFollow = some follow) :
    Ensures (src.joinedBranch visit ctx id follow b) s
      (BlockScopes src vars home current names s) := by
  have hreversed : Ensures (src.isReversed id follow b) s fun _ s₁ =>
      s₁.visited = s.visited ∧ s₁.vars = s.vars := by
    refine .get_bind ?_
    split <;> exact ⟨rfl, rfl⟩
  have htoward {m : NodeId} (hmem : m = b.onTrue ∨ m = b.onFalse) : GoesOn src.graph id m :=
    .branch htargets hmem
  unfold Source.joinedBranch
  refine hreversed.bind fun r s₀ ⟨hvisited, hsame⟩ => ?_
  have hready := h.then_eq hvisited hsame
  dsimp only
  generalize hchosen : (if r = true then (b.onFalse, b.onTrue) else (b.onTrue, b.onFalse)) = way
  have hfirst : GoesOn src.graph id way.1 := htoward (by subst hchosen; split <;> simp)
  have hsecond : GoesOn src.graph id way.2 := htoward (by subst hchosen; split <;> simp)
  refine (tests_conditionOf hready (fun _ _ => trivial) _).bind fun e s₁ htest => ?_
  have hinside := hready.after (htest.wrote none []) (List.Subset.refl _)
  refine (hv _ _ names s₁ (hinside.prepared hfirst)).bind fun thenBlock s₂ hwrote => ?_
  have hbetween := hinside.after hwrote (List.Subset.refl _)
  have hbehind (elseBlock : Block) (s₃ : Progress)
      (hwrote' : BlockScopes src vars home current names s₂ elseBlock s₃) :
      Ensures (do
          let rest ← visit ctx follow
          return .ifThen e thenBlock (unlessEmpty elseBlock) :: rest) s₃
        (BlockScopes src vars home current names s) := by
    have hready := hbetween.after hwrote' (List.Subset.refl _)
    refine (hv ctx follow names s₃ (hready.prepared (.join htargets hjoin))).bind
      fun rest s₄ hwrote'' => .pure ?_
    have hwritten := (htest.ifThen hwrote hwrote'.unlessEmpty).cons hwrote''
    exact hwritten.after_eq h.synced hvisited hsame
  split
  · exact hbehind [] s₂ (.nil hbetween.synced)
  · exact (hv _ _ names s₂ (hbetween.prepared hsecond)).bind hbehind

include hv in
theorem scoped_openBranch
    (h : Furnished src vars home names s id)
    (htargets : (src.node id).kind.targets? = some b) :
    Ensures (src.openBranch visit ctx id b) s (BlockScopes src vars home current names s) := by
  refine (tests_conditionOf h (fun _ _ => trivial) _).bind fun e s₁ htest => ?_
  have hinside := h.after (htest.wrote none []) (List.Subset.refl _)
  refine (hv _ _ names s₁ (hinside.prepared (.branch htargets (.inl rfl)))).bind
    fun thenBlock s₂ hwrote => ?_
  have hbetween := hinside.after hwrote (List.Subset.refl _)
  refine (hv _ _ names s₂ (hbetween.prepared (.branch htargets (.inr rfl)))).bind
    fun elseBlock s₃ hwrote' => .pure ?_
  exact (htest.ifThen hwrote hwrote'.unlessEmpty).single

include hv in
theorem scoped_writeBranch
    (h : Furnished src vars home names s id)
    (htargets : (src.node id).kind.targets? = some b) :
    Ensures (src.writeBranch visit ctx id b) s (BlockScopes src vars home current names s) := by
  have honTrue : GoesOn src.graph id b.onTrue := .branch htargets (.inl rfl)
  have honFalse : GoesOn src.graph id b.onFalse := .branch htargets (.inr rfl)
  unfold Source.writeBranch
  dsimp only
  split
  · refine (tests_conditionOf h (fun _ _ => trivial) _).bind fun e s₁ htest => ?_
    have hinside := h.after (htest.wrote none []) (List.Subset.refl _)
    exact (hv _ _ names s₁ (hinside.prepared honTrue)).bind fun rest s₂ hwrote =>
      .pure (htest.expression.cons hwrote)
  split
  · exact scoped_breakingBranch hv h true honTrue
  split
  · exact scoped_breakingBranch hv h false honFalse
  split
  · exact scoped_continuingBranch hv h false honFalse
  split
  · exact scoped_continuingBranch hv h true honTrue
  split
  · next hjoin => exact scoped_joinedBranch hv h htargets hjoin
  · exact scoped_openBranch hv h htargets

include homes hv in
theorem scoped_writeCond
    (hcond : (src.node id).kind.isCond = true)
    (h : Opened src vars home names s id) :
    Ensures (src.writeCond visit ctx id) s fun block s' =>
      BlockScopes src vars home current names s block s' ∧
        Furnished src vars home (names ++ boundNames block) s' id := by
  have hready := h.furnished homes (ownCode_of_cond hcond)
  unfold Source.writeCond
  split
  · exact .pure ⟨.nil h.synced, by simpa using hready⟩
  · next htargets =>
      exact (scoped_writeBranch hv hready htargets).mono fun block s' hwrote =>
        ⟨hwrote, hready.after hwrote (List.subset_append_left _ _)⟩

end Branching

/-- The variables of the own code of a node are in scope, or it defines them first. -/
theorem Opened.met
    (homes : Homes src.graph vars home)
    (h : Opened src vars home names s id)
    {v : VarId}
    (hneeds : Needs src.graph vars home id v) :
    Met src vars home names s (src.graph.ownCode id) v := by
  by_cases hsettles : Settles src.graph home id v
  · have hfirst := (homes.entered id v h.entered hsettles.1 hneeds).resolve_left hsettles.2
    exact .defined hfirst (homes.isSome_get? hneeds) (hsettles.1 ▸ h.visited)
      (h.settled v hneeds hsettles.1)
  · exact .held (h.held v hneeds hsettles)

include homes in
/-- The own code of a node declares what is not in scope, and then all that is needed is so. -/
theorem scoped_ownCode
    (h : Opened src vars home names s id) :
    Ensures (src.instructions (src.graph.ownCode id)) s fun block s' =>
      BlockScopes src vars home current names s block s' ∧ blockStrays names block = [] ∧
        Furnished src vars home (names ++ boundNames block) s' id := by
  have hmet : ∀ v, vars.isParam v = false →
      (∃ ins ∈ src.graph.ownCode id, v ∈ ins.reads ∨ ins.target? = some v) →
        Met src vars home names s (src.graph.ownCode id) v :=
    fun v hplain hmention => h.met homes (.here ⟨hplain, .inl hmention⟩)
  have hcode := @scoped_instructions src vars home current names s _ h.synced h.arguments hmet
  refine hcode.mono fun block s' ⟨hwrote, hnoStrays, held⟩ => ⟨?_, hnoStrays, ?_⟩
  · rw [BlockScopes, hnoStrays]
    exact hwrote
  · exact
      { synced := hwrote.synced
        arguments := List.Subset.trans h.arguments (List.subset_append_left _ _)
        held := fun v hneeds _ => held v hneeds.plain (h.met homes hneeds) }

section Switches

variable {cases : SwitchTable}

include hv in
theorem scoped_armBody
    (target : NodeId)
    (h : Prepared src vars home names s target) :
    Ensures (Source.armBody visit ctx target) s (BlockScopes src vars home current names s) := by
  refine (hv ctx target names s h).bind fun body s₁ hwrote => .get_bind (.modify_bind ?_)
  have hclosed : BlockScopes src vars home current names s body { s₁ with needBreak := true } :=
    hwrote.then_eq rfl rfl
  split
  · exact .pure (hclosed.append (blockScopes_plainJump hclosed.synced .break))
  · exact .pure hclosed

include hv in
theorem scoped_writeArms
    (hkind : (src.node id).kind.base = .switch cases)
    (targets : List NodeId)
    (fallback : Option NodeId)
    (hsub : targets ⊆ cases.cases)
    (h : Furnished src vars home names s id) :
    Ensures (Source.writeArms visit ctx cases targets fallback) s fun arms s' =>
      Scopes src vars home current s (armStrays names arms.1) (armDeclared arms.1)
          (armMarks arms.1) s' ∧
        (arms.2 = none ∨ arms.2 = fallback) := by
  induction targets generalizing fallback s with
  | nil => exact .pure ⟨.inert h.synced rfl rfl [], .inr rfl⟩
  | cons target rest ih =>
      have hsub' : rest ⊆ cases.cases := fun n hn => hsub (List.mem_cons_of_mem target hn)
      refine .get_bind ?_
      split
      · exact ih fallback hsub' h
      · refine .modify_bind ?_
        have hready : Furnished src vars home names { s with nextCase := rest.head? } id :=
          h.then_eq rfl rfl
        have hgoes : GoesOn src.graph id target := .arm hkind (.inl (hsub List.mem_cons_self))
        refine (scoped_armBody hv target (hready.prepared hgoes)).bind fun body s₁ hwrote => ?_
        have hnext := hready.after hwrote (List.Subset.refl _)
        refine (ih _ hsub' hnext).bind fun arms s₂ ⟨hwrote', hleft⟩ => .pure ⟨?_, ?_⟩
        · rw [armStrays, armDeclared, armMarks]
          exact (Scopes.append hwrote hwrote').after_eq h.synced rfl rfl
        · split at hleft
          · exact .inl (or_self_iff.1 hleft)
          · exact hleft

include hv in
theorem scoped_defaultArm
    {fallback : Option NodeId}
    (hsynced : Synced src.graph vars home s)
    (hprepared : ∀ n, fallback = some n → Prepared src vars home names s n) :
    Ensures (Source.defaultArm visit ctx fallback) s fun arms s' =>
      Scopes src vars home current s (armStrays names arms) (armDeclared arms) (armMarks arms)
        s' := by
  cases fallback with
  | none => exact .pure (.inert hsynced rfl rfl [])
  | some target =>
      refine (hv ctx target names s (hprepared target rfl)).bind fun body s₁ hwrote => .pure ?_
      simpa [armStrays, armDeclared, armMarks] using hwrote

theorem tests_selectorOf
    {last : Instr}
    (h : Furnished src vars home names s id)
    (hselector : last ∈ src.graph.tests id) :
    Ensures (src.selectorOf last) s (TestScopes src vars home names s) := by
  refine .get_bind ?_
  split
  · next value =>
      refine .modify_bind (.pure ⟨fun _ => .inert h.synced (by rfl) (by rfl), ?_⟩)
      refine outside_eq_nil.2 (locals_expression _ h.super value _ fun v hv => ?_)
      rw [h.synced.same.name]
      refine h.tests_subset (fun _ _ => trivial) _ hselector v ?_
      simpa [Instr.reads, Instr.operands] using hv
  · exact .pure ⟨fun _ => .inert h.synced rfl rfl, rfl⟩

/-- A switch. -/
theorem TestScopes.switch
    {e : Expression}
    {arms : List SwitchArm}
    {s₁ s₂ : Progress}
    (h : TestScopes src vars home names s e s₁)
    (hinside : Scopes src vars home current s₁ (armStrays names arms) (armDeclared arms)
      (armMarks arms) s₂) :
    StatementScopes src vars home current names s (.switch e arms) s₂ := by
  refine ⟨?_, rfl⟩
  rw [Statement.strays, Statement.declared, Statement.marks, h.inScope]
  exact (h.wrote current [.tests e]).append hinside

theorem mem_tests_of_switch
    {last : Instr}
    (hkind : (src.node id).kind.base = .switch cases)
    (hfound : (src.node id).ins.getLast? = some last) :
    last ∈ src.graph.tests id := by
  rw [Source.node] at hkind hfound
  simp [FlowGraph.tests, FlowGraph.testsWithin, hkind, hfound]

include homes hv in
theorem scoped_writeSwitch
    (hkind : (src.node id).kind.base = .switch cases)
    (h : Opened src vars home names s id) :
    Ensures (src.writeSwitch visit ctx id cases) s fun block s' =>
      BlockScopes src vars home current names s block s' ∧
        Furnished src vars home (names ++ boundNames block) s' id := by
  have hcode : src.graph.ownCode id = (src.node id).ins.dropLast := by
    rw [Source.node] at hkind
    simp [FlowGraph.ownCode, hkind, Source.node]
  unfold Source.writeSwitch
  split
  · next hnone =>
      have hempty : src.graph.ownCode id = [] := by
        rw [hcode, List.getLast?_eq_none_iff.1 hnone]; rfl
      exact .pure ⟨.nil h.synced, by simpa using h.furnished homes hempty⟩
  next last hfound =>
  rw [← hcode]
  have hown := @scoped_ownCode src vars home current id names s homes h
  refine hown.bind fun before s₁ hwrote => ?_
  obtain ⟨hfront, -, hready⟩ := hwrote
  refine (tests_selectorOf hready (mem_tests_of_switch hkind hfound)).bind fun e s₂ htest => ?_
  have hinside := hready.after (htest.wrote none []) (List.Subset.refl _)
  dsimp only
  refine (scoped_writeArms hv hkind _ _ (List.Subset.refl _) hinside).bind
    fun written s₃ hwrote => .modify_bind ?_
  obtain ⟨harms, hleft⟩ := hwrote
  have hclosed : Scopes src vars home current s₂ (armStrays (names ++ boundNames before) written.1)
      (armDeclared written.1) (armMarks written.1) { s₃ with nextCase := none } :=
    harms.then_eq rfl rfl
  have hbetween := hinside.after hclosed (List.Subset.refl _)
  refine (scoped_defaultArm hv hbetween.synced fun n hn => hbetween.prepared (.arm hkind ?_)).bind
    fun more s₄ hlast => ?_
  · obtain ⟨hisLeft, -⟩ := Option.filter_eq_some_iff.1 hn
    rcases hleft with hleft | hleft <;> rw [hleft] at hisLeft
    · cases hisLeft
    · exact .inr hisLeft
  have hbehind := hbetween.after hlast (List.Subset.refl _)
  refine (scoped_writeNext hv hbehind.synced fun n hn =>
    hbehind.prepared (.behindSwitch hkind hn)).bind fun rest s₅ hwrote' => .pure ?_
  have hall : Scopes src vars home current s₂
      (armStrays (names ++ boundNames before) (written.1 ++ more))
      (armDeclared (written.1 ++ more)) (armMarks (written.1 ++ more)) s₄ := by
    rw [Java.armStrays_append, Java.armDeclared_append, Java.armMarks_append]
    exact hclosed.append hlast
  refine ⟨hfront.append ((htest.switch hall).cons hwrote'), ?_⟩
  rw [Java.boundNames_append, ← List.append_assoc]
  exact hbehind.after hwrote' (List.subset_append_left _ _)

end Switches

include homes hv in
theorem scoped_writeStraight
    (hkind : (src.node id).kind.base = .statement)
    (h : Opened src vars home names s id) :
    Ensures (src.writeStraight visit ctx id) s fun block s' =>
      BlockScopes src vars home current names s block s' ∧
        Furnished src vars home (names ++ boundNames block) s' id := by
  have hcode : (src.node id).ins = src.graph.ownCode id := by
    rw [Source.node] at hkind ⊢
    simp [FlowGraph.ownCode, hkind]
  unfold Source.writeStraight
  rw [hcode]
  have hown := @scoped_ownCode src vars home current id names s homes h
  refine hown.bind fun block s₁ hwrote => ?_
  obtain ⟨hfront, -, hready⟩ := hwrote
  split
  · next succ hnext =>
      split
      · refine .pure ⟨hfront.append (blockScopes_plainJump hready.synced .break), ?_⟩
        simpa [plainJump, Statement.bound] using hready
      · refine .get_bind ?_
        split
        · exact .modify_bind (.pure ⟨hfront.then_eq rfl rfl, hready.then_eq rfl rfl⟩)
        · refine (hv ctx succ _ s₁ (hready.prepared (.straight hkind hnext))).bind
            fun rest s₂ hwrote' => .pure ⟨hfront.append hwrote', ?_⟩
          rw [Java.boundNames_append, ← List.append_assoc]
          exact hready.after hwrote' (List.subset_append_left _ _)
  · exact .pure ⟨hfront, hready⟩

section Regions

variable {handlers : List NodeId}

/-- Handlers of a region that have not been written, while what the region needs is in scope. -/
structure Pending (src : Source) (vars : Variables) (home : VarId → NodeId) (names : List String)
    (s : Progress) (id : NodeId) (handlers : List NodeId) : Prop extends
    Supplied src vars home names s id fun _ => True where
  visited : id ∈ s.visited
  nodup : handlers.Nodup
  catches : ∀ handler ∈ handlers, Catches src.graph id handler
  fresh : ∀ handler ∈ handlers, ∀ v, src.graph.Binds handler v → handler ∉ s.visited

/-- The handlers of a region are not written while something else is. -/
theorem Pending.after
    {strays declared : List String}
    {marks : List Mark}
    {s' : Progress}
    (h : Pending src vars home names s id handlers)
    (hwrote : Scopes src vars home none s strays declared marks s') :
    Pending src vars home names s' id handlers :=
  { h.toSupplied.after hwrote (List.Subset.refl _) with
    visited := hwrote.visited h.visited
    nodup := h.nodup
    catches := h.catches
    fresh := fun handler hlisted v hbinds hvisited => by
      rcases hwrote.guards id handler v (h.catches handler hlisted) hbinds hvisited with
        hold | hnew | hother
      · exact h.fresh handler hlisted v hbinds hold
      · exact hnew h.visited
      · cases hother }

/-- A handler declares the variable that it binds, if it binds any. -/
theorem scoped_catchDeclaration
    {binding : Option VarId}
    (type : Option String)
    (hsynced : Synced src.graph vars home s)
    (hbound : ∀ v, binding = some v → (vars.get? v).isSome = true ∧ home v ∈ s.visited ∧
      s.vars.isDeclared v = false) :
    Ensures (Source.catchDeclaration binding type) s fun decl s' =>
      Scopes src vars home none s [] [decl.name] [] s' ∧
        ∀ v, binding = some v → Held vars [decl.name] s' v := by
  refine .get_bind ?_
  cases binding with
  | none =>
      have hnothing (s' : Progress) (hvisited : s'.visited = s.visited) (hsame : s'.vars = s.vars) :
          Scopes src vars home none s [] ["_"] [] s' :=
        { Scopes.inert hsynced hvisited hsame [] with
          declares := ⟨[none], List.nodup_nil, rfl, nofun⟩ }
      exact .modify_bind (.pure ⟨hnothing _ rfl rfl, nofun⟩)
  | some v =>
      obtain ⟨hknown, hvisited, hfresh⟩ := hbound v rfl
      replace hknown : (s.vars.get? v).isSome = true := by rwa [hsynced.same.isSome_get?]
      have hnew : s.vars.isUndeclared v = true := by
        by_contra hold
        rw [Variables.isDeclared_of_exists hknown (by simpa using hold)] at hfresh
        cases hfresh
      have hdeclares : Declares s.vars (fun u => u = v) [s.vars.name v] (s.vars.markDeclared v) :=
        .one rfl hnew
      refine .modify_bind (.modify_bind (.pure ⟨?_, ?_⟩))
      · refine .of_declares hsynced ?_ hdeclares (fun u hsame _ _ => ?_) []
        · rfl
        · exact (hsame : u = v) ▸ hvisited
      · rintro u ⟨⟩
        exact ⟨by simp [hsynced.same.name], Variables.isDeclared_markDeclared.2
          (.inr ⟨rfl, hknown⟩)⟩

variable (houter : Scoped src vars home none visit)

include homes houter in
theorem scoped_writeHandlers
    (h : Pending src vars home names s id handlers) :
    Ensures (src.writeHandlers visit ctx handlers) s fun clauses s' =>
      Scopes src vars home (some id) s (clauseStrays names clauses) (clauseDeclared clauses)
        (clauseMarks clauses) s' := by
  induction handlers generalizing s with
  | nil => exact .pure (.inert h.synced rfl rfl [])
  | cons handler rest ih =>
      have hcatches := h.catches handler List.mem_cons_self
      obtain ⟨honce, hnodup⟩ := List.nodup_cons.1 h.nodup
      refine .modify_bind ?_
      have hmarked : Scopes src vars home (some id) s [] [] []
          { s with visited := OrderedSet.insert s.visited handler } :=
        scopes_markVisited h.synced (.inr ⟨id, hcatches⟩) fun region v hcaught _ => by
          obtain rfl := homes.handlers.owned region id handler hcaught hcatches
          exact ⟨h.visited, rfl⟩
      have hpending : Pending src vars home names
          { s with visited := OrderedSet.insert s.visited handler } id rest :=
        { h.toSupplied.after hmarked (List.Subset.refl _) with
          visited := hmarked.visited h.visited
          nodup := hnodup
          catches := fun other hlisted => h.catches other (List.mem_cons_of_mem handler hlisted)
          fresh := fun other hlisted v hbinds hvisited => by
            rcases OrderedSet.mem_insert.1 hvisited with hold | rfl
            · exact h.fresh other (List.mem_cons_of_mem handler hlisted) v hbinds hold
            · exact honce hlisted }
      split
      · next start binding type hkind =>
          have hbinds (v : VarId) (hv : binding = some v) : src.graph.Binds handler v :=
            ⟨start, type, hv ▸ hkind⟩
          have hdeclared := @scoped_catchDeclaration src vars home _ binding type hmarked.synced
            fun v hv => by
              obtain ⟨hknown, hplain, here⟩ := homes.bound handler v (hbinds v hv)
              refine ⟨hknown, here ▸ OrderedSet.mem_insert.2 (.inr rfl), Bool.eq_false_iff.2 ?_⟩
              exact fun hold => h.fresh handler List.mem_cons_self v (hbinds v hv)
                (here ▸ h.synced.visited v hplain hold)
          refine hdeclared.bind fun decl s₂ ⟨hbound, held⟩ => ?_
          have hprepared : Prepared src vars home (names ++ [decl.name]) s₂ start := by
            have hgoes : GoesOn src.graph handler start := .handler (by
              rw [Source.node] at hkind
              rw [hkind]
              rfl)
            refine ⟨⟨hbound.synced, ?_, fun v hneeds hapart => ?_⟩, .inr ⟨handler, hgoes⟩⟩
            · exact List.Subset.trans h.arguments (List.subset_append_left _ _)
            have hneeded : Needs src.graph vars home handler v :=
              .later (.goesOn hgoes) hapart hneeds
            by_cases here : home v = handler
            · obtain ⟨start', type', hkind'⟩ := homes.caught id handler v hcatches here hneeded
              obtain ⟨-, rfl, -⟩ := NodeKind.catchBlock.inj (hkind.symm.trans hkind')
              exact (held v rfl).widen (List.subset_append_right _ _)
            · have haround := (hpending.after hbound).held v
                (.later (.catches hcatches) here hneeded)
                trivial
              exact haround.widen (List.subset_append_left _ _)
          refine (houter ctx start _ s₂ hprepared).bind fun body s₃ hinside => ?_
          refine (ih ((hpending.after hbound).after hinside)).bind fun more s₄ hwrote => .pure ?_
          rw [clauseStrays, clauseDeclared, clauseMarks]
          exact hmarked.append ((hbound.within _).append ((Scopes.within hinside _).append hwrote))
      · exact (ih hpending).mono fun clauses s' hwrote => hmarked.append hwrote

include homes houter in
theorem scoped_writeRegion
    {start : NodeId}
    {catches : List NodeId}
    {follow : Option NodeId}
    (hkind : (src.node id).kind.base = .tryBlock start catches follow)
    (h : Opened src vars home names s id) :
    Ensures (src.writeRegion visit ctx start catches follow) s fun block s' =>
      BlockScopes src vars home (some id) names s block s' ∧
        Furnished src vars home (names ++ boundNames block) s' id := by
  have hcode : src.graph.ownCode id = [] := by
    rw [Source.node] at hkind
    simp [FlowGraph.ownCode, hkind]
  have hready := h.furnished homes hcode
  refine (houter _ start names s (hready.prepared (.region hkind (.inl rfl)))).bind
    fun body s₁ hinside => ?_
  have hpending : Pending src vars home names s id catches :=
    { hready with
      visited := h.visited
      nodup := homes.handlers.nodup hkind
      catches := fun handler hlisted => ⟨hkind, hlisted⟩
      fresh := fun handler hlisted v => h.fresh handler v ⟨hkind, hlisted⟩ }
  refine (scoped_writeHandlers homes houter (hpending.after hinside)).bind
    fun clauses s₂ hcaught => ?_
  have hbehind := (hpending.after hinside).toSupplied.after hcaught (List.Subset.refl _)
  refine (scoped_writeNext houter hbehind.synced fun n hn =>
    hbehind.prepared (.region hkind (.inr hn))).bind fun rest s₃ hwrote => .pure ⟨?_, ?_⟩
  · have hregion : StatementScopes src vars home (some id) names s (.tryCatch body clauses) s₂ := by
      refine ⟨?_, rfl⟩
      rw [Statement.strays, Statement.declared, Statement.marks]
      exact (Scopes.within hinside _).append hcaught
    exact hregion.cons (Scopes.within hwrote _)
  · exact hbehind.after hwrote (List.subset_append_left _ _)

end Regions

section Kinds

variable (houter : Scoped src vars home none visit)

include homes houter in
/-- The code of a node of any kind keeps variables in scope. -/
theorem scoped_writeKind
    (kind : NodeKind)
    (hinside : Inside kind (src.node id).kind) :
    ScopedKind src vars home (some id) id kind (src.writeKind visit id kind) := by
  have hwithin : Scoped src vars home (some id) visit := fun ctx n names s hprepared =>
    (houter ctx n names s hprepared).mono fun _ _ hwrote => hwrote.within _
  have hplain {kind : NodeKind} {names : List String} {s : Progress} {code : EmitM Block}
      (hinner : kind.isExit = false)
      (h : Ensures code s fun block s' =>
        BlockScopes src vars home (some id) names s block s' ∧
          Furnished src vars home (names ++ boundNames block) s' id) :
      Ensures code s (KindScopes src vars home (some id) id kind names s) :=
    h.mono fun block s' hwritten => ⟨hwritten.1, fun _ => hwritten.2, fun hleaves => by
      rcases hleaves with rfl | rfl <;> cases hinner⟩
  have hcond {kind : NodeKind} {ctx : Context} {names : List String} {s : Progress}
      (hinside : Inside kind (src.node id).kind) (htargets : kind.isCond = true)
      (h : Opened src vars home names s id) :
      Ensures (src.writeCond visit ctx id) s
        (KindScopes src vars home (some id) id kind names s) := by
    refine hplain (isExit_of_cond htargets) (scoped_writeCond homes hwithin ?_ h)
    rwa [NodeKind.isCond, ← hinside.targets_eq]
  have hleave {kind : NodeKind} {names : List String} {s : Progress}
      (hleaves : kind = .ret ∨ kind = .throw) (hinside : Inside kind (src.node id).kind)
      (h : Opened src vars home names s id) :
      Ensures (src.instructions (src.node id).ins) s
        (KindScopes src vars home (some id) id kind names s) := by
    have hcode : (src.node id).ins = src.graph.ownCode id := by
      have hbase := hinside.base_eq
      rw [Source.node] at hbase ⊢
      rcases hleaves with rfl | rfl <;> simp [FlowGraph.ownCode, ← hbase, NodeKind.base]
    rw [hcode]
    exact (scoped_ownCode homes h).mono fun block s' hwritten =>
      ⟨hwritten.1, fun _ => hwritten.2.2, fun _ => hwritten.2.1⟩
  induction kind with
  | loop inner type ih =>
      exact fun ctx names s h => scoped_writeLoop homes hwithin (ih hinside.loop) hinside h
  | conditional | shortCircuit => exact fun ctx names s h => hcond hinside rfl h
  | switch cases =>
      exact fun ctx names s h =>
        hplain rfl (scoped_writeSwitch homes hwithin hinside.base_eq.symm h)
  | statement =>
      exact fun ctx names s h =>
        hplain rfl (scoped_writeStraight homes hwithin hinside.base_eq.symm h)
  | ret => exact fun ctx names s h => hleave (.inl rfl) hinside h
  | throw => exact fun ctx names s h => hleave (.inr rfl) hinside h
  | tryBlock start catches follow =>
      exact fun ctx names s h => hplain rfl (scoped_writeRegion homes houter hinside.base_eq.symm h)
  | catchBlock start binding type =>
      intro ctx names s h
      have hbase := hinside.base_eq.symm
      have hcode : src.graph.ownCode id = [] := by
        rw [Source.node] at hbase
        simp [FlowGraph.ownCode, hbase, NodeKind.base]
      have hready := h.furnished homes hcode
      refine hplain rfl ((hwithin ctx start names s (hready.prepared (.handler hbase))).mono
        fun block s' hwrote => ⟨hwrote, ?_⟩)
      exact hready.after hwrote (List.subset_append_left _ _)

end Kinds

end Visiting

end Emission
end DalvikDecompiler
