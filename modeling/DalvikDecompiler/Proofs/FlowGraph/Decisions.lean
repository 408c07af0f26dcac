import DalvikDecompiler.Proofs.FlowGraph.Conditions

/-!
# What merged branches decide

**Input.** A guided flow graph, and the graph after some merges.

The branches of a condition are walked through as they stood before they were merged.  The walk
tests the branches that the condition tests, and leaves for the branch or other node that the target
of the merged node tests first.

**Results.**
* `TestsWithin`: a walk through some branches until it leaves them.
* `Keeps`: what all merges keep about these walks.
* `merged_keeps`: merging keeps them.
-/

namespace DalvikDecompiler

open Edges (replacing)

namespace FlowGraph

/-- A walk from a node through some branches that come out in a given way, with the branches tested
on it and the first node that is none of them. -/
inductive TestsWithin (g : FlowGraph) (truth : NodeId → Bool) (branches : List NodeId) :
    NodeId → List NodeId → NodeId → Prop
  | leave {n : NodeId} (houtside : n ∉ branches) :
      TestsWithin g truth branches n [] n
  | test {n : NodeId} {b : BranchTargets} {tested : List NodeId} {out : NodeId}
      (hinside : n ∈ branches)
      (htargets : (g.node n).kind.targets? = some b)
      (hrest : TestsWithin g truth branches (b.toward (truth n)) tested out) :
      TestsWithin g truth branches n (n :: tested) out

namespace TestsWithin

variable {g : FlowGraph} {truth : NodeId → Bool} {branches more : List NodeId}
variable {n between out : NodeId} {tested rest : List NodeId}

/-- A walk that stays outside of other branches as well. -/
theorem mono
    (h : g.TestsWithin truth branches n tested out)
    (hsub : branches ⊆ more)
    (houtside : out ∉ more) :
    g.TestsWithin truth more n tested out := by
  induction h with
  | leave => exact .leave houtside
  | test hinside htargets _ ih => exact .test (hsub hinside) htargets (ih houtside)

/-- A walk goes on through other branches. -/
theorem append
    (h : g.TestsWithin truth branches n tested between)
    (hsub : branches ⊆ more)
    (h' : g.TestsWithin truth more between rest out) :
    g.TestsWithin truth more n (tested ++ rest) out := by
  induction h with
  | leave => exact h'
  | test hinside htargets _ ih => exact .test (hsub hinside) htargets (ih h')

/-- A walk tests the branch it starts at first. -/
theorem eq_head
    (h : g.TestsWithin truth branches n (between :: rest) out) :
    n = between := by
  cases h
  rfl

end TestsWithin

/-- What merges keep about the walks through branches: the walk through those of a condition tests
what the condition tests, and leaves for what the target tests first. -/
structure Keeps (g g' : FlowGraph) (condition : NodeId → ConditionTree) (owner : NodeId → NodeId) :
    Prop extends Condenses g g' condition owner where
  guided : g'.Guided
  leaves : ∀ n b, g'.isLive n = true → g.size ≤ n → (g'.node n).kind.targets? = some b →
    ∀ holds, b.toward holds ≠ n
  branches : ∀ n b, g'.isLive n = true → (g'.node n).kind.targets? = some b →
    ∀ x ∈ (condition n).tests, (g.node x).kind.targets? ≠ none
  follows : ∀ n b truth, g'.isLive n = true → (g'.node n).kind.targets? = some b →
    (∀ holds, b.toward holds ≠ n) →
    ∃ out, g.TestsWithin truth (condition n).tests (condition n).opening
        ((condition n).tested truth) out ∧
      g.isLive out = true ∧ owner out = b.toward ((condition n).value truth) ∧
      (condition (owner out)).opening = out

section Keeping

variable {g g' : FlowGraph} {condition : NodeId → ConditionTree} {owner : NodeId → NodeId}

theorem Guided.keeps
    (h : g.Guided) :
    Keeps g g .test fun n => n where
  toCondenses := condenses_refl h.wired
  guided := h
  leaves n b hlive hnew := absurd (lt_size_of_isLive hlive) (Nat.not_lt.2 hnew)
  branches n b _ htargets x hmem := by
    obtain rfl := List.mem_singleton.1 hmem
    simp [htargets]
  follows n b truth hlive htargets houter := by
    have hedge := h.mem_succs n b hlive htargets (truth n)
    refine ⟨b.toward (truth n), ?_, (h.wired.live n _ (.inl hedge)).2, rfl, rfl⟩
    exact .test (List.mem_singleton.2 rfl) htargets
      (.leave fun hmem => houter _ (List.mem_singleton.1 hmem))

variable {first : NodeId} {b : BranchTargets} {merge : Merge}

theorem eq_of_goesOn
    {holds isNot isAnd : Bool}
    (hgoesOn : (holds != isNot) = isAnd) :
    holds = (isAnd != isNot) := by
  decide +revert

theorem eq_of_settles
    {holds isNot isAnd : Bool}
    (hsettles : (holds != isNot) ≠ isAnd) :
    holds = !(isAnd != isNot) := by
  decide +revert

/-- The walk through both conditions of a merge. -/
theorem Keeps.follows_joined
    (h : Keeps g g' condition owner)
    (hplans : g'.Plans first b merge)
    (hlive : g'.isLive first = true)
    (htargets : (g'.node first).kind.targets? = some b)
    (houter : ∀ holds, b.toward holds ≠ first)
    (truth : NodeId → Bool) :
    let c := ConditionTree.join merge.isAnd merge.isNot (condition first) (condition merge.second)
    ∃ out, g.TestsWithin truth c.tests c.opening (c.tested truth) out ∧ g.isLive out = true ∧
      owner out = merge.branches.toward (c.value truth) ∧
        (condition (owner out)).opening = out := by
  intro c
  have hlive' := hplans.live h.guided.wired
  obtain ⟨out₁, hwalk₁, hknown₁, hthere₁, hopens₁⟩ := h.follows first b truth hlive htargets houter
  obtain ⟨out₂, hwalk₂, hknown₂, hthere₂, hopens₂⟩ :=
    h.follows merge.second merge.branches truth hlive' hplans.targets fun holds =>
      (hplans.leaves holds).2
  -- Where the second branch goes lies outside of both conditions.
  have houtside {out : NodeId} {holds : Bool} (hthere : owner out = merge.branches.toward holds) :
      out ∉ c.tests := fun hmem => by
    rcases List.mem_append.1 hmem with hmem | hmem
    · exact (hplans.leaves holds).1 (hthere ▸ ((h.mem_tests_iff first out hlive).1 hmem).2)
    · exact (hplans.leaves holds).2 (hthere ▸ ((h.mem_tests_iff merge.second out hlive').1 hmem).2)
  by_cases hgoesOn : ((condition first).value truth != merge.isNot) = merge.isAnd
  · have hvalue : c.value truth = (condition merge.second).value truth := if_pos hgoesOn
    rw [eq_of_goesOn hgoesOn, hplans.selects] at hthere₁
    rw [hthere₁] at hopens₁
    refine ⟨out₂, ?_, hknown₂, hvalue ▸ hthere₂, hopens₂⟩
    have hrest := hwalk₂.mono (List.subset_append_right (condition first).tests _)
      (houtside hthere₂)
    rw [ConditionTree.tested, if_pos hgoesOn]
    rw [hopens₁] at hrest
    exact hwalk₁.append (List.subset_append_left ..) hrest
  · have hvalue : c.value truth = !merge.isAnd := if_neg hgoesOn
    rw [eq_of_settles hgoesOn, hplans.shared] at hthere₁
    refine ⟨out₁, ?_, hknown₁, hvalue ▸ hthere₁, hopens₁⟩
    rw [ConditionTree.tested, if_neg hgoesOn, List.append_nil]
    exact hwalk₁.mono (List.subset_append_left ..) (houtside hthere₁)

/-- **A merge keeps the walks.** -/
theorem Keeps.of_merges
    {g'' : FlowGraph}
    (h : Keeps g g' condition owner)
    (hmerges : Merges g' g'' first merge)
    (hplans : g'.Plans first b merge)
    (hlive : g'.isLive first = true)
    (htargets : (g'.node first).kind.targets? = some b)
    (houter : ∀ holds, b.toward holds ≠ first) :
    Keeps g g'' (conditionAfter condition first g'.size merge)
      fun n => combining first merge.second g'.size (owner n) := by
  have hlive' := hplans.live h.guided.wired
  have hmerged : conditionAfter condition first g'.size merge g'.size =
      .join merge.isAnd merge.isNot (condition first) (condition merge.second) :=
    Function.update_self ..
  have hfresh {n : NodeId} (hlive : g'.isLive n = true) : n ≠ g'.size :=
    (lt_size_of_isLive hlive).ne
  have hkept {n : NodeId} (hlive : g'.isLive n = true) :
      conditionAfter condition first g'.size merge n = condition n :=
    Function.update_of_ne (hfresh hlive) ..
  -- Nothing but the first branch leads to the second one, whose opening is the only one that is
  -- lost.
  have hopens {out : NodeId} (hknown : g.isLive out = true) (hapart : owner out ≠ merge.second) :
      (conditionAfter condition first g'.size merge
        (combining first merge.second g'.size (owner out))).opening =
        (condition (owner out)).opening := by
    rw [opening_conditionAfter, replacing_combining (h.owner_live out hknown) hapart]
  have hbefore {n : NodeId} {b' : BranchTargets} (hother : n ≠ first) (hother' : n ≠ merge.second)
      (hthere : g'.isLive n = true) (htargets' : (g''.node n).kind.targets? = some b') :
      ∃ b₀, (g'.node n).kind.targets? = some b₀ ∧
        b₀.remap (combining first merge.second g'.size) = b' := by
    rwa [hmerges.targets_kept hother hother' hthere, Option.map_eq_some_iff] at htargets'
  refine
    { toCondenses := h.toCondenses.of_merges hmerges hplans hlive
      guided := hmerges.guided h.guided hplans hlive htargets
      leaves := fun n b' hthere hnew htargets' holds => ?_
      branches := fun n b' hthere htargets' x hmem => ?_
      follows := fun n b' truth hthere htargets' houter' => ?_ }
  · rcases hmerges.live_iff.1 hthere with rfl | ⟨hother, hother', hthere⟩
    · rw [hmerges.targets_merged] at htargets'
      cases htargets'
      obtain ⟨hapart, hapart'⟩ := hplans.leaves holds
      have hedge := h.guided.mem_succs _ _ hlive' hplans.targets holds
      rw [NodeKind.toward_remap, combining_of_ne hapart hapart']
      exact hfresh (h.guided.wired.live _ _ (.inl hedge)).2
    · obtain ⟨b₀, hearlier, rfl⟩ := hbefore hother hother' hthere htargets'
      rw [NodeKind.toward_remap, Ne, combining_eq_iff (hfresh hthere) hother hother']
      exact h.leaves n b₀ hthere hnew hearlier holds
  · rcases hmerges.live_iff.1 hthere with rfl | ⟨hother, hother', hthere⟩
    · rw [hmerged] at hmem
      rcases List.mem_append.1 hmem with hmem | hmem
      · exact h.branches first b hlive htargets x hmem
      · exact h.branches merge.second _ hlive' hplans.targets x hmem
    · obtain ⟨b₀, htargets', -⟩ := hbefore hother hother' hthere htargets'
      exact h.branches n b₀ hthere htargets' x (hkept hthere ▸ hmem)
  · rcases hmerges.live_iff.1 hthere with rfl | ⟨hother, hother', hthere⟩
    · rw [hmerges.targets_merged] at htargets'
      cases htargets'
      obtain ⟨out, hwalk, hknown, htarget, hopening⟩ :=
        h.follows_joined hplans hlive htargets houter truth
      have hapart : owner out ≠ merge.second := htarget ▸ (hplans.leaves _).2
      exact ⟨out, hmerged ▸ hwalk, hknown, by rw [hmerged, NodeKind.toward_remap, ← htarget],
        (hopens hknown hapart).trans hopening⟩
    · obtain ⟨b₀, hearlier, rfl⟩ := hbefore hother hother' hthere htargets'
      have houter₀ (holds : Bool) : b₀.toward holds ≠ n := fun hsame => houter' holds (by
        rw [NodeKind.toward_remap, combining_eq_iff (hfresh hthere) hother hother', hsame])
      obtain ⟨out, hwalk, hknown, htarget, hopening⟩ := h.follows n b₀ truth hthere hearlier houter₀
      have hapart : owner out ≠ merge.second := fun hsame => by
        have hedge := h.guided.mem_succs n b₀ hthere hearlier ((condition n).value truth)
        rw [← htarget, hsame] at hedge
        exact hother (hplans.eq_first h.guided hlive htargets hedge)
      exact ⟨out, hkept hthere ▸ hwalk, hknown,
        by rw [hkept hthere, NodeKind.toward_remap, ← htarget],
        (hopens hknown hapart).trans hopening⟩

theorem Keeps.of_reorder
    (h : Keeps g g' condition owner) :
    Keeps g g'.reorder condition owner := by
  have htouch := g'.retouches_reorder
  have hkind (n : NodeId) : (g'.reorder.node n).kind = (g'.node n).kind := (htouch.kept n).kind_eq
  refine
    { toCondenses := h.toCondenses.of_reorder
      guided := h.guided.retouch (htouch.mono fun n n' hsame => ?_)
      leaves := fun n b hlive hnew htargets => ?_
      branches := fun n b hlive htargets => ?_
      follows := fun n b truth hlive htargets => ?_ }
  · obtain ⟨num, rfl⟩ := hsame
    rfl
  all_goals
    rw [htouch.isLive_eq] at hlive
    rw [hkind] at htargets
  · exact h.leaves n b hlive hnew htargets
  · exact h.branches n b hlive htargets
  · exact h.follows n b truth hlive htargets

/-- **Merging keeps the walks.** -/
theorem merged_keeps
    (h : g.Guided)
    (tree : DominatorTree)
    (passes : Nat) :
    ∃ condition owner, Keeps g (g.merged tree passes) condition owner := by
  refine Merging.passes_induction (P := fun g' _ => ∃ condition owner, Keeps g g' condition owner)
    ?_ ?_ passes _ ⟨_, _, h.keeps⟩
  · rintro g' _ first b merge ⟨condition, owner, hkeeps⟩ hlive htargets houter hplanned
    have hplans := plans_mergePlan houter hplanned
    exact ⟨_, _, hkeeps.of_merges
      (merges_mergeBranches hkeeps.guided.wired hplans hlive) hplans hlive
      htargets (not_contains_iff.1 houter)⟩
  · rintro g' _ ⟨condition, owner, hkeeps⟩
    exact ⟨_, _, hkeeps.of_reorder⟩

end Keeping

end FlowGraph
end DalvikDecompiler
