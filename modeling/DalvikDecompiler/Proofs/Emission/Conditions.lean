import DalvikDecompiler.Proofs.Emission.Rendering
import DalvikDecompiler.Proofs.FlowGraph.Decisions
import DalvikDecompiler.Proofs.FlowGraph.Protection

/-!
# How merged conditions are written

**Input.** A guided flow graph whose branches hold nothing but their comparison, and the graph after
merging.

A condition is written with `&&` and `||`.  Where it is written negated, both operators and the
comparisons are exchanged for their opposites, and the first operand of a short circuit may be
negated on its own as well.  The opposite of an ordering is its negation for numbers of which any
two compare, so not for floating-point numbers.

**Results.**
* `UsualMeaning`: a reading of expressions that gives operators their usual meaning.
* `evaluates_written`: a written condition tests the branches of the condition tree in order, and
  comes out as it does.
* `merged_conditions`: merging and writing keep what branches decide.
-/

namespace DalvikDecompiler

open Symbolic (Variables Instr Relation)
open Java (Expression Action)

/-- Whether the instruction branches on a three-way comparison of floating-point numbers. -/
def Symbolic.Instr.comparesFloats : Instr → Bool
  | .ifCompareZero _ (.compare type _ _) => type == "F" || type == "D"
  | _ => false

/-- Whether an expression holds, by the usual meaning of operators.  Orderings are opposites of each
other where any two values compare. -/
structure Java.UsualMeaning (holds : Expression → Bool) (total : Prop) : Prop where
  parenthesis : ∀ e, holds (.parenthesis e) = holds e
  not : ∀ e, holds (.unary "!" e false) = !holds e
  ne : ∀ left right, holds (.binary "!=" left right) = !holds (.binary "==" left right)
  ge : total → ∀ left right, holds (.binary ">=" left right) = !holds (.binary "<" left right)
  le : total → ∀ left right, holds (.binary "<=" left right) = !holds (.binary ">" left right)

namespace Emission

section Reading

variable {holds : Expression → Bool} {total : Prop}

/-- The opposite of a relation. -/
theorem holds_opposite
    (husual : Java.UsualMeaning holds total)
    (hany : total)
    (relation : Relation)
    (left right : Expression) :
    holds (.binary relation.negate.symbol left right) =
      !holds (.binary relation.symbol left right) := by
  have hnot_not {a b : Bool} (h : a = !b) : b = !a := by rw [h, Bool.not_not]
  cases relation with
  | eq => exact husual.ne left right
  | ne => exact hnot_not (husual.ne left right)
  | lt => exact husual.ge hany left right
  | ge => exact hnot_not (husual.ge hany left right)
  | gt => exact husual.le hany left right
  | le => exact hnot_not (husual.le hany left right)

theorem holds_relationFor
    (husual : Java.UsualMeaning holds total)
    (hany : total)
    (relation : Relation)
    (negate : Bool)
    (left right : Expression) :
    holds (.binary (relationFor relation negate).symbol left right) =
      (holds (.binary relation.symbol left right) != negate) := by
  cases negate with
  | false => exact (Bool.bne_false _).symm
  | true => rw [Bool.bne_true]; exact holds_opposite husual hany relation left right

theorem holds_zeroTest
    (husual : Java.UsualMeaning holds total)
    (hany : total)
    (relation : Relation)
    (negate : Bool)
    (value : Expression)
    (type : Option String) :
    holds (zeroTest (relationFor relation negate) value type) =
      (holds (zeroTest relation value type) != negate) := by
  have hcompared := holds_relationFor husual hany relation negate value
  unfold zeroTest
  split
  · cases relation <;> cases negate <;> simp_all [relationFor, Relation.negate, husual.not]
  · split <;> exact hcompared _
  · exact hcompared _

theorem condition_zero
    (vars : Variables)
    (owner : String)
    {operand : Symbolic.Expr}
    (relation : Relation)
    (negate : Bool)
    (hplain : ∀ type left right, operand ≠ .compare type left right) :
    condition vars owner (.ifCompareZero relation operand) negate =
      zeroTest (relationFor relation negate) (expression vars owner operand none)
        (operand.knownType vars) := by
  unfold condition
  split
  · next hsame => cases hsame
  · next hsame =>
      cases hsame
      exact absurd rfl (hplain _ _ _)
  · next hsame =>
      cases hsame
      rfl
  · next hother => exact absurd rfl (hother _ _)

/-- **A condition that is written negated holds exactly when it does not hold as it is.** -/
theorem holds_condition
    (vars : Variables)
    (owner : String)
    {ins : Instr}
    (hcompares : ins.isConditional = true)
    (husual : Java.UsualMeaning holds (ins.comparesFloats = false))
    (hexact : ins.comparesFloats = false)
    (negate : Bool) :
    holds (condition vars owner ins negate) =
      (holds (condition vars owner ins false) != negate) := by
  cases ins with
  | ifCompare => exact holds_relationFor husual hexact ..
  | ifCompareZero relation operand =>
      by_cases hthreeWay : ∃ type left right, operand = .compare type left right
      · obtain ⟨type, left, right, rfl⟩ := hthreeWay
        exact holds_relationFor husual hexact ..
      · have hplain (type : String) (left right : Symbolic.Expr) :
            operand ≠ .compare type left right :=
          fun hsame => hthreeWay ⟨type, left, right, hsame⟩
        rw [condition_zero vars owner relation negate hplain,
          condition_zero vars owner relation false hplain]
        exact holds_zeroTest husual hexact ..
  | _ => cases hcompares

end Reading

section Writing

variable {src : Source} {bound n : Nat} {c : ConditionTree}

/-- **A written condition tests the branches of its tree.**  They are tested in order, those that
are written negated come out the other way round, and so does the whole if it is written negated. -/
theorem evaluates_written
    (h : src.graph.Comprises bound n c)
    (vars : Variables)
    (truth : NodeId → Bool)
    (hplain : ∀ x ∈ c.tests, ∀ sc, (src.node x).kind.base ≠ .shortCircuit sc)
    (hsingle : ∀ x ∈ c.tests, ∃ ins, (src.node x).ins = [ins])
    (depth : Nat)
    (hdeep : n < depth)
    (negate : Bool) :
    Java.Evaluates (src.conditionWithin vars depth n negate)
      ((c.written truth negate).flatMap fun p => (src.node p.1).ins.map fun ins =>
        .tested (condition vars src.writing.method.owner ins p.2).bare (truth p.1 != p.2))
      (c.value truth != negate) := by
  induction h generalizing depth negate with
  | @test n _ =>
      obtain ⟨depth, rfl⟩ := Nat.exists_eq_add_of_le' (Nat.zero_lt_of_lt hdeep)
      have here := List.mem_singleton.2 (rfl : n = n)
      obtain ⟨ins, hcode⟩ := hsingle n here
      rw [conditionWithin_single vars depth negate (hplain n here) hcode, ConditionTree.written,
        List.flatMap_singleton, hcode]
      exact .single _ (joined?_condition ..)
  | @join n sc c c' _ hjoined hbefore _ _ ih ih' =>
      obtain ⟨depth, rfl⟩ := Nat.exists_eq_add_of_le' (Nat.zero_lt_of_lt hdeep)
      have hwithin := Nat.le_of_lt_succ hdeep
      have htwoParts := joined?_conditionWithin vars depth negate hjoined
      have hfirst := ih (fun x hmem => hplain x (List.mem_append_left _ hmem))
        (fun x hmem => hsingle x (List.mem_append_left _ hmem)) depth (hbefore.1.trans_le hwithin)
        (sc.isNot != negate)
      have hsecond := ih' (fun x hmem => hplain x (List.mem_append_right _ hmem))
        (fun x hmem => hsingle x (List.mem_append_right _ hmem)) depth
          (hbefore.2.trans_le hwithin) negate
      have hthrough (a b c : Bool) : (a != (b != c)) = ((a != b) != c) := by decide +revert
      rw [hthrough] at hfirst
      rw [ConditionTree.written, List.flatMap_append, ConditionTree.value]
      split
      · next hgoesOn =>
          rw [hgoesOn] at hfirst
          exact .passed htwoParts (Java.Evaluates.asOperand_iff.2 hfirst)
            (Java.Evaluates.asOperand_iff.2 hsecond)
      · next hsettles =>
          rw [Bool.eq_not.2 hsettles] at hfirst
          rw [List.flatMap_nil, List.append_nil]
          exact .settled htwoParts (Java.Evaluates.asOperand_iff.2 hfirst) (by simp)

end Writing

end Emission

namespace FlowGraph

/-- Branches that hold nothing but their comparison. -/
def Comparing (g : FlowGraph) : Prop :=
  ∀ n b, g.isLive n = true → (g.node n).kind.targets? = some b →
    (∀ sc, (g.node n).kind.base ≠ .shortCircuit sc) ∧
      ∃ ins, (g.node n).ins = [ins] ∧ ins.isConditional = true

/-- A node of a merged graph, with a condition and with targets, decides as the branches did that
have been merged into it. -/
structure Agrees (g g' : FlowGraph) (n : NodeId) (c : ConditionTree)
    (b : BranchTargets) : Prop where
  comprises : g'.Comprises g.size n c
  targets : (g'.node n).kind.targets? = some b
  /-- The walk through the branches as they were tests what the condition tests, and leaves for what
  the selected target tests first. -/
  walks : ∀ truth, ∃ out c',
    g.TestsWithin truth c.tests c.opening (c.tested truth) out ∧
      g'.isLive (b.toward (c.value truth)) = true ∧
      g'.Comprises g.size (b.toward (c.value truth)) c' ∧ c'.opening = out
  /-- If each comparison holds as its branch comes out, the condition that is written tests the same
  branches in the same order, and comes out alike, or the other way round where it is negated. -/
  writes : ∀ (src : Emission.Source) (vars : Variables) (truth : NodeId → Bool)
      (reading : NodeId → Expression → Bool) (negate : Bool),
    src.graph = g' →
    (∀ x ∈ c.tests, ∀ ins ∈ (g.node x).ins, ins.comparesFloats = false ∧
      Java.UsualMeaning (reading x) (ins.comparesFloats = false) ∧
      reading x (Emission.condition vars src.writing.method.owner ins false) = truth x) →
    (c.written truth negate).map Prod.fst = c.tested truth ∧
      Java.Evaluates (src.conditionWithin vars (g'.size + 1) n negate)
        ((c.written truth negate).flatMap fun p => (g.node p.1).ins.map fun ins =>
          .tested (Emission.condition vars src.writing.method.owner ins p.2).bare
            (reading p.1 (Emission.condition vars src.writing.method.owner ins p.2)))
        (c.value truth != negate)

section Agreement

variable {g g' : FlowGraph} {condition : NodeId → ConditionTree} {owner : NodeId → NodeId}
variable {n : NodeId} {b : BranchTargets}

/-- The branches of a condition are branches of the first graph, with their code. -/
theorem Keeps.leaf
    (h : Keeps g g' condition owner)
    (hcomparing : g.Comparing)
    (hlive : g'.isLive n = true)
    (htargets : (g'.node n).kind.targets? = some b)
    {x : NodeId}
    (hmem : x ∈ (condition n).tests) :
    (∀ sc, (g'.node x).kind.base ≠ .shortCircuit sc) ∧ (g'.node x).ins = (g.node x).ins ∧
      ∃ ins, (g.node x).ins = [ins] ∧ ins.isConditional = true := by
  have hknown := ((h.mem_tests_iff n x hlive).1 hmem).1
  obtain ⟨b₀, hbefore⟩ := Option.ne_none_iff_exists'.1 (h.branches n b hlive htargets x hmem)
  obtain ⟨hplain, ins, hcode, hcompares⟩ := hcomparing x b₀ hknown hbefore
  obtain ⟨f, hrenews⟩ := h.renews x (lt_size_of_isLive hknown)
  refine ⟨fun sc hjoined => ?_, hrenews.ins_eq, ins, hcode, hcompares⟩
  rw [hrenews.kind_eq] at hjoined
  obtain ⟨sc', hjoined⟩ := base_remap_eq_shortCircuit hjoined
  exact hplain sc' hjoined

/-- **Merged branches decide as before.** -/
theorem merged_agrees
    (h : g.Guided)
    (hcomparing : g.Comparing)
    (tree : DominatorTree)
    (passes : Nat)
    (hlive : (g.merged tree passes).isLive n = true)
    (hnew : g.size ≤ n) :
    ∃ c b, Agrees g (g.merged tree passes) n c b := by
  obtain ⟨condition, owner, hkeeps⟩ := merged_keeps h tree passes
  have hcomprises := hkeeps.comprises n hlive
  obtain ⟨sc, hjoined⟩ : ∃ sc, ((g.merged tree passes).node n).kind.base = .shortCircuit sc := by
    generalize condition n = c at hcomprises
    cases hcomprises with
    | test hold => exact absurd hold (Nat.not_lt.2 hnew)
    | join _ hjoined => exact ⟨_, hjoined⟩
  have htargets := NodeKind.targets?_of_base hjoined
  refine ⟨condition n, sc.branches, hcomprises, htargets, fun truth => ?_,
    fun src vars truth reading negate hsame hreads => ?_⟩
  · obtain ⟨out, hwalk, hknown, htarget, hopens⟩ :=
      hkeeps.follows n sc.branches truth hlive htargets
      (hkeeps.leaves n sc.branches hlive hnew htargets)
    have hthere := hkeeps.owner_live out hknown
    rw [htarget] at hthere hopens
    exact ⟨out, _, hwalk, hthere, hkeeps.comprises _ hthere, hopens⟩
  · refine ⟨ConditionTree.map_fst_written .., ?_⟩
    have hleaf {x : NodeId} (hmem : x ∈ (condition n).tests) :=
      hkeeps.leaf hcomparing hlive htargets hmem
    rw [← hsame] at hcomprises hleaf hlive ⊢
    have hevaluates := Emission.evaluates_written hcomprises vars truth
      (fun x hmem => (hleaf hmem).1)
      (fun x hmem => ⟨_, (hleaf hmem).2.1.trans (hleaf hmem).2.2.choose_spec.1⟩)
        (src.graph.size + 1)
      ((lt_size_of_isLive hlive).trans (Nat.lt_succ_self _)) negate
    refine Eq.mp (congrArg (Java.Evaluates _ · _) (List.flatMap_congr fun p hmem => ?_)) hevaluates
    have htested : p.1 ∈ (condition n).tests := ConditionTree.tested_subset truth _
      (ConditionTree.map_fst_written truth negate _ ▸ List.mem_map_of_mem hmem)
    obtain ⟨-, hcode, ins, hsingle, hcompares⟩ := hleaf htested
    obtain ⟨hexact, husual, holds⟩ := hreads p.1 htested ins (hsingle ▸ List.mem_singleton.2 rfl)
    have houtcome := Emission.holds_condition vars src.writing.method.owner hcompares
      husual hexact p.2
    rw [holds] at houtcome
    rw [Emission.Source.node, hcode, hsingle, List.map_singleton, List.map_singleton, houtcome]

/-- Whether a node holds a comparison and nothing else. -/
def compares (n : Node) : Bool :=
  match n.kind.base, n.ins with
  | .shortCircuit _, _ => false
  | _, [ins] => ins.isConditional
  | _, _ => false

theorem compares_iff
    {n : Node} :
    compares n = true ↔
      (∀ sc, n.kind.base ≠ .shortCircuit sc) ∧ ∃ ins, n.ins = [ins] ∧ ins.isConditional = true := by
  unfold compares
  split
  · next hjoined => simp [hjoined]
  · next ins hcode hplain =>
      rw [hcode]
      exact ⟨fun holds => ⟨fun sc hjoined => hplain sc hjoined, ins, rfl, holds⟩,
        fun h => by simpa using h.2⟩
  · next hplain hother =>
      simp only [Bool.false_eq_true, false_iff, not_and, not_exists]
      exact fun _ ins hcode => absurd hcode (hother ins)

theorem comparing_iff :
    g.Comparing ↔ ∀ n < g.size, g.isLive n = true →
      (g.node n).kind.targets?.isSome = true → compares (g.node n) = true := by
  constructor
  · intro hcomparing n _ hlive hsome
    obtain ⟨b, htargets⟩ := Option.isSome_iff_exists.1 hsome
    exact compares_iff.2 (hcomparing n b hlive htargets)
  · intro hcheck n b hlive htargets
    exact compares_iff.1 (hcheck n (lt_size_of_isLive hlive) hlive (by simp [htargets]))

instance (g : FlowGraph) : Decidable g.Comparing :=
  decidable_of_iff _ comparing_iff.symm

/-- A branch on a variable. -/
def testSlot (v : Symbolic.VarId) (b : BranchTargets) (succs preds : List NodeId) : Slot :=
  protectedSlot (.conditional b) [.ifCompareZero .eq (.var v)] succs preds [] []

/-- The condition that the first variable and one of the others is zero. -/
def nestedTests : FlowGraph :=
  { FlowGraph.empty with
    slots := #[
      testSlot 0 ⟨1, 4⟩ [1, 4] [],
      testSlot 1 ⟨3, 2⟩ [3, 2] [0],
      testSlot 2 ⟨3, 4⟩ [3, 4] [1],
      protectedSlot .ret [.ret none] [] [1, 2] [] [],
      protectedSlot .ret [.ret none] [] [0, 2] [] []] }

theorem merged_agrees_nestedTests :
    nestedTests.Guided ∧ nestedTests.Comparing ∧
      (nestedTests.merged (.blank 5 0) 1).isLive 6 = true ∧ 5 ≤ 6 ∧
      ∃ c b, Agrees nestedTests (nestedTests.merged (.blank 5 0) 1) 6 c b := by
  have hguided : nestedTests.Guided := by decide
  have hcomparing : nestedTests.Comparing := by decide
  have horder : nestedTests.postOrder = [3, 4, 2, 1, 0] := by cbv
  have hlive : (nestedTests.merged (.blank 5 0) 1).isLive 6 = true := by
    rw [(retouches_merged_one nestedTests (.blank 5 0) horder).isLive_eq]
    decide +kernel
  exact ⟨hguided, hcomparing, hlive, by decide,
    merged_agrees hguided hcomparing (.blank 5 0) 1 hlive (by decide)⟩

/-- Branches of which the first one goes to the third one, although its edge leads to the second
one.
-/
def misledTests : FlowGraph :=
  { FlowGraph.empty with
    slots := #[
      testSlot 0 ⟨2, 4⟩ [1, 4] [],
      testSlot 1 ⟨2, 4⟩ [2, 4] [0],
      testSlot 2 ⟨3, 4⟩ [3, 4] [1],
      protectedSlot .ret [.ret none] [] [2] [] [],
      protectedSlot .ret [.ret none] [] [0, 1, 2] [] []] }

theorem misledTests_facts :
    (misledTests.merged (.blank 5 0) 1).isLive 6 = true ∧
      ((misledTests.merged (.blank 5 0) 1).node 6).kind = .shortCircuit
        { first := 0, second := 5, isAnd := true, isNot := false, branches := ⟨3, 4⟩ } ∧
      ((misledTests.merged (.blank 5 0) 1).node 5).kind = .shortCircuit
        { first := 1, second := 2, isAnd := true, isNot := false, branches := ⟨3, 4⟩ } := by
  have horder : misledTests.postOrder = [3, 4, 2, 1, 0] := by cbv
  have htouch := retouches_merged_one misledTests (.blank 5 0) horder
  rw [htouch.isLive_eq, (htouch.kept 6).kind_eq, (htouch.kept 5).kind_eq]
  decide +kernel

/-- The second branch gets tested, although the first one goes to the third one. -/
theorem misledTests_disagrees :
    ¬ ∀ (g : FlowGraph) (tree : DominatorTree) (passes : Nat) (n : NodeId), g.Wired →
      g.Comparing → (g.merged tree passes).isLive n = true → g.size ≤ n →
      ∃ c b, Agrees g (g.merged tree passes) n c b := by
  intro hagree
  obtain ⟨hlive, houter, hinner⟩ := misledTests_facts
  obtain ⟨c, b, hagrees⟩ := hagree misledTests (.blank 5 0) 1 6 (by decide) (by decide)
    hlive (by decide)
  have hcomprises : (misledTests.merged (.blank 5 0) 1).Comprises 5 6
      (.join true false (.test 0) (.join true false (.test 1) (.test 2))) :=
    .join (by decide) (congrArg NodeKind.base houter) (by decide) (.test (by decide))
      (.join (by decide) (congrArg NodeKind.base hinner) (by decide) (.test (by decide))
        (.test (by decide)))
  obtain rfl := hagrees.comprises.unique hcomprises
  obtain ⟨out, -, hwalk, -⟩ := hagrees.walks fun _ => true
  have hwalk : misledTests.TestsWithin (fun _ => true) [0, 1, 2] 0 [0, 1, 2] out := hwalk
  cases hwalk with
  | test _ htargets hrest =>
      obtain rfl := Option.some.inj htargets
      exact absurd hrest.eq_head (by decide)

end Agreement

end FlowGraph
end DalvikDecompiler
