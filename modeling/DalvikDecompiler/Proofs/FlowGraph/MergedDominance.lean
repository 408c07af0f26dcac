import DalvikDecompiler.Proofs.Digraph.Collapse
import DalvikDecompiler.Proofs.FlowGraph.Conditions

/-!
# The dominator tree of a graph whose branches have been merged

**Input.** A guided flow graph with its dominator tree.

A merge makes a part of two nodes, with the first one at its head: only the first one leads to the
second one, unless control comes to the second one in another way, from outside of the method or by
an exception.  So the tree can be edited instead of being computed anew.

**Results.**
* `Encloses.collapse`: what a merge makes of a graph is a graph of parts.
* `immediateDominator_mergeInto`: what a tree names after two of its nodes have been merged.
* `merged_fits`: the edited tree is that of the merged graph, if the entry and all handlers are
  tested first wherever they are tested.
-/

namespace DalvikDecompiler

open Edges (replacing)

namespace DominatorTree

open FlowGraph (combining replacing_replacing)

section Editing

variable (t : DominatorTree) (n m : NodeId)

@[simp] theorem immediateDominator_remove :
    (t.remove n).immediateDominator m = if m = n then none else t.immediateDominator m := by
  simp only [immediateDominator, remove, Array.getElem?_modify]
  by_cases hsame : m = n
  · subst hsame
    cases t.entries[m]? <;> simp
  · have hother : ¬ n = m := fun e => hsame e.symm
    simp [hsame, hother]

@[simp] theorem entry_remove :
    (t.remove n).entry = t.entry :=
  rfl

@[simp] theorem immediateDominator_replace
    (old new : NodeId) :
    (t.replace old new).immediateDominator m =
      (t.immediateDominator m).map (replacing old new) := by
  simp only [immediateDominator, replace, Array.getElem?_map]
  cases t.entries[m]? with
  | none => rfl
  | some e =>
      obtain ⟨parent, number⟩ := e
      cases parent with
      | none => rfl
      | some p => by_cases here : p = old <;> simp [replacing, here]

@[simp] theorem entry_replace
    (old new : NodeId) :
    (t.replace old new).entry = replacing old new t.entry :=
  rfl

variable {n} {first second merged : NodeId}

/-- A merged node stands where the first of its nodes stood. -/
theorem immediateDominator_mergeInto
    (hother : n ≠ first)
    (hother' : n ≠ second) :
    (t.mergeInto first second merged).immediateDominator n =
      (t.immediateDominator (replacing merged first n)).map (combining first second merged) := by
  have hparent : (((t.setParent merged (t.immediateDominator first)).remove first).remove
      second).immediateDominator n = t.immediateDominator (replacing merged first n) := by
    simp only [immediateDominator_remove, immediateDominator_setParent, if_neg hother,
      if_neg hother',
      replacing]
    split <;> rfl
  rw [mergeInto, immediateDominator_replace, immediateDominator_replace, hparent, Option.map_map]
  exact congrArg (Option.map · _) (funext fun _ => replacing_replacing)

theorem entry_mergeInto :
    (t.mergeInto first second merged).entry = combining first second merged t.entry := by
  rw [mergeInto, entry_replace, entry_replace, replacing_replacing, entry_remove, entry_remove,
    entry_setParent]

end Editing

end DominatorTree

namespace FlowGraph

open DominatorTree (immediateDominator_mergeInto entry_mergeInto)

/-- Control comes to a node from outside of the method or by an exception. -/
def Landing (g : FlowGraph) (n : NodeId) : Prop :=
  n = g.entry ∨ ∃ m, n ∈ g.handlerSuccs m

/-- Wherever a node is tested, it is tested first. -/
def Opens (g' : FlowGraph) (bound : Nat) (n : NodeId) : Prop :=
  ∀ m c, g'.isLive m = true → g'.Comprises bound m c → n ∈ c.tests → c.opening = n

section Merging

variable {g g' : FlowGraph} {first n : NodeId} {merge : Merge} {b : BranchTargets}

/-- Where nothing has been merged, every node is tested first. -/
theorem opens_of_unmerged
    (hsingle : ∀ m ∈ g.liveIds, ∀ sc, (g.node m).kind.base ≠ .shortCircuit sc)
    (bound : Nat)
    (n : NodeId) :
    g.Opens bound n := by
  intro m c hlive hcomprises hmem
  cases hcomprises with
  | test => exact (List.mem_singleton.1 hmem).symm
  | join _ hjoined =>
      have hlisted : m ∈ g.liveIds :=
        List.mem_filter.2 ⟨List.mem_range.2 (lt_size_of_isLive hlive), hlive⟩
      exact absurd hjoined (hsingle m hlisted _)

/-- A merge of two nodes, the second of which is entered from the first one only. -/
structure Encloses (g g' : FlowGraph) (first : NodeId) (merge : Merge) : Prop where
  merges : Merges g g' first merge
  wired : g.Wired
  entry_live : g.isLive g.entry = true
  first_live : g.isLive first = true
  inner : ¬ g.Landing merge.second
  edge : merge.second ∈ g.succs first
  only : ∀ n, merge.second ∈ g.succs n → n = first
  apart : merge.second ≠ first

theorem Plans.encloses
    (hplans : g.Plans first b merge)
    (h : g.Guided)
    (hentry : g.isLive g.entry = true)
    (hlive : g.isLive first = true)
    (htargets : (g.node first).kind.targets? = some b)
    (hinner : ¬ g.Landing merge.second) :
    Encloses g (g.mergeBranches first merge).2 first merge where
  merges := merges_mergeBranches h.wired hplans hlive
  wired := h.wired
  entry_live := hentry
  first_live := hlive
  inner := hinner
  edge := hplans.selects ▸ h.mem_succs first b hlive htargets _
  only _ := hplans.eq_first h hlive htargets
  apart := hplans.apart

namespace Encloses

variable (h : Encloses g g' first merge) {x i j : NodeId}
include h

theorem eq_first
    (hedge : merge.second ∈ g.flowSuccs n) :
    n = first := by
  rcases List.mem_append.1 hedge with hedge | hedge
  · exact h.only n hedge
  · exact absurd (.inr ⟨n, hedge⟩) h.inner

/-- Edges follow the nodes, apart from the one between the two. -/
theorem mem_flowSuccs :
    j ∈ g'.flowSuccs i ↔
      ∃ x, ∃ y ∈ g.flowSuccs x, y ≠ merge.second ∧
        combining first merge.second g.size x = i ∧ combining first merge.second g.size y = j := by
  have hleave {x y : NodeId} (hedge : y ∈ g.succs x) :
      (y = merge.second → x = merge.second) ↔ y ≠ merge.second := by
    refine ⟨fun hkeeps here => ?_, fun hother here => absurd here hother⟩
    subst here
    exact h.apart ((hkeeps rfl).symm.trans (h.only x hedge))
  simp only [flowSuccs, List.mem_append, h.merges.mem_succs, h.merges.mem_handlerSuccs]
  constructor
  · rintro (⟨x, y, hedge, hkeeps, hsource, htarget⟩ | ⟨x, y, hedge, hother, hsource, htarget⟩)
    · exact ⟨x, y, .inl hedge, (hleave hedge).1 hkeeps, hsource, htarget⟩
    · exact ⟨x, y, .inr hedge, hother, hsource, htarget⟩
  · rintro ⟨x, y, hedge | hedge, hother, hsource, htarget⟩
    · exact .inl ⟨x, y, hedge, (hleave hedge).2 hother, hsource, htarget⟩
    · exact .inr ⟨x, y, hedge, hother, hsource, htarget⟩

theorem entry_ne :
    g.entry ≠ merge.second := fun here =>
  h.inner (.inl here.symm)

theorem head_entry :
    replacing g.size first g'.entry = g.entry := by
  rw [h.merges.entry_eq]
  exact replacing_combining h.entry_live h.entry_ne

theorem first_reachable
    (hreached : g.toDigraph.Reachable g.entry merge.second) :
    g.toDigraph.Reachable g.entry first := by
  obtain ⟨nodes, w⟩ := hreached
  generalize htarget : merge.second = x at w
  cases w with
  | here => exact absurd htarget.symm h.entry_ne
  | step w hedge => exact h.eq_first (htarget ▸ hedge) ▸ ⟨_, w⟩

/-- Every node of a part is reached if its head is. -/
theorem reachable_of_head
    (hpart : combining first merge.second g.size x = i)
    (hlive : g.isLive x = true)
    (hreached : g.toDigraph.Reachable g.entry (replacing g.size first i)) :
    g.toDigraph.Reachable g.entry x := by
  by_cases hsecond : x = merge.second
  · subst hsecond hpart
    rw [combining_second, Edges.replacing_self] at hreached
    exact hreached.step (List.mem_append_left _ h.edge)
  · rwa [← hpart, replacing_combining hlive hsecond] at hreached

/-- The head of a part is reached if the part is. -/
theorem head_reachable
    (hreached : g'.toDigraph.Reachable g'.entry i) :
    g'.isLive i = true ∧ g.toDigraph.Reachable g.entry (replacing g.size first i) := by
  obtain ⟨nodes, w⟩ := hreached
  induction w with
  | here =>
      rw [h.head_entry, h.merges.entry_eq]
      exact ⟨h.merges.live_combining h.entry_live, .refl _ _⟩
  | step w hedge ih =>
      obtain ⟨x, y, horigin, hother, rfl, rfl⟩ := h.mem_flowSuccs.1 hedge
      obtain ⟨hlive, hlive'⟩ := h.wired.live_of_flow horigin
      rw [replacing_combining hlive' hother]
      exact ⟨h.merges.live_combining hlive', (h.reachable_of_head rfl hlive ih.2).step horigin⟩

/-- **A merge makes a part of two nodes.** -/
theorem collapse :
    g.toDigraph.Collapse g'.toDigraph
      (fun i x => g.toDigraph.Reachable g.entry x ∧ combining first merge.second g.size x = i)
      (replacing g.size first) where
  reachable_iff x := ⟨fun ⟨_, hreached, _⟩ => hreached, fun hreached => ⟨_, hreached, rfl⟩⟩
  unique _ _ _ hleft hright := hleft.2.symm.trans hright.2
  head_mem i hreached := by
    obtain ⟨hlive, hreached⟩ := h.head_reachable hreached
    exact ⟨hreached, h.merges.combining_replacing hlive⟩
  entry := h.head_entry
  enters := by
    rintro i j x y ⟨-, rfl⟩ ⟨-, rfl⟩ hedge hdiffer
    have hother : y ≠ merge.second := by
      rintro rfl
      obtain rfl := h.eq_first hedge
      exact hdiffer (combining_first.trans combining_second.symm)
    exact ⟨(replacing_combining (h.wired.live_of_flow hedge).2 hother).symm,
      h.mem_flowSuccs.2 ⟨x, y, hedge, hother, rfl, rfl⟩⟩
  exits i j hreached hedge := by
    obtain ⟨x, y, horigin, hother, hpart, rfl⟩ := h.mem_flowSuccs.1 hedge
    obtain ⟨hlive, hlive'⟩ := h.wired.live_of_flow horigin
    rw [replacing_combining hlive' hother]
    exact ⟨x, ⟨h.reachable_of_head hpart hlive (h.head_reachable hreached).2, hpart⟩, horigin⟩
  connected i x := by
    rintro ⟨hreached, rfl⟩
    by_cases hsecond : x = merge.second
    · subst hsecond
      rw [combining_second, Edges.replacing_self]
      refine ⟨_, Digraph.Walk.here.step (List.mem_append_left _ h.edge), fun n hon => ?_⟩
      rcases List.mem_append.1 hon with hon | hon
      · obtain rfl := List.mem_singleton.1 hon
        exact ⟨h.first_reachable hreached, combining_first⟩
      · obtain rfl := List.mem_singleton.1 hon
        exact ⟨hreached, combining_second⟩
    · rw [replacing_combining (h.wired.live_of_reachable h.entry_live hreached) hsecond]
      refine ⟨_, .here, fun n hon => ?_⟩
      obtain rfl := List.mem_singleton.1 hon
      exact ⟨hreached, rfl⟩

/-- **The edited tree is that of the merged graph.** -/
theorem fits
    {tree : DominatorTree}
    (hfits : tree.Fits g.toDigraph) :
    (tree.mergeInto first merge.second g.size).Fits g'.toDigraph := by
  have hknown := h.wired.lt_of_succs h.edge
  refine h.collapse.fits hfits (fun x hreached => ⟨hreached, rfl⟩) (entry_mergeInto tree)
    fun i hreached => ?_
  obtain ⟨hother, hother'⟩ : i ≠ first ∧ i ≠ merge.second := by
    rcases h.merges.live_iff.1 (h.head_reachable hreached).1 with rfl | ⟨hother, hother', -⟩
    · exact ⟨hknown.1.ne', hknown.2.ne'⟩
    · exact ⟨hother, hother'⟩
  exact immediateDominator_mergeInto tree hother hother'

end Encloses

variable {condition : NodeId → ConditionTree} {owner : NodeId → NodeId}

/-- A node that is tested first after a merge was so before, and is not the second one merged. -/
theorem Condenses.opens_before
    (h : Condenses g g' condition owner)
    (hfirst_live : g'.isLive first = true)
    (hapart : merge.second ≠ first)
    (hlive : g.isLive n = true)
    (hopens : (conditionAfter condition first g'.size merge
      (combining first merge.second g'.size (owner n))).opening = n) :
    owner n ≠ merge.second ∧ (condition (owner n)).opening = n := by
  rw [opening_conditionAfter] at hopens
  have hother : owner n ≠ merge.second := by
    intro hsame
    rw [hsame, combining_second, Edges.replacing_self] at hopens
    have htested := (condition first).opening_mem
    rw [hopens, h.mem_tests_iff first n hfirst_live] at htested
    exact hapart (hsame.symm.trans htested.2)
  rw [replacing_combining (h.owner_live n hlive) hother] at hopens
  exact ⟨hother, hopens⟩

/-- What the merged nodes start with is where control came before. -/
theorem Condenses.landing_owner
    (h : Condenses g g' condition owner)
    (hlanding : g'.Landing n) :
    ∃ m, g.Landing m ∧ owner m = n := by
  rcases hlanding with rfl | ⟨a, hedge⟩
  · exact ⟨g.entry, .inl rfl, h.entry_eq.symm⟩
  · obtain ⟨hlive, hlive'⟩ := h.wired.live a n (.inr hedge)
    obtain ⟨x, -, horigin⟩ := (h.mem_handlerSuccs_iff a n hlive hlive').1 hedge
    exact ⟨_, .inr ⟨x, horigin⟩, ((h.mem_tests_iff n _ hlive').1 (condition n).opening_mem).2⟩

theorem Landing.isLive
    (h : g.Wired)
    (hentry : g.isLive g.entry = true)
    (hlanding : g.Landing n) :
    g.isLive n = true := by
  rcases hlanding with rfl | ⟨m, hedge⟩
  · exact hentry
  · exact (h.live m n (.inr hedge)).2

/-- **The edited tree is the dominator tree of the merged graph**, if control comes from outside,
and by exceptions, only to branches that are tested first. -/
theorem merged_fits
    {tree : DominatorTree}
    (h : g.Guided)
    (hentry : g.isLive g.entry = true)
    (hfits : tree.Fits g.toDigraph)
    (passes : Nat)
    (hopens : ∀ n, g.Landing n → (g.merged tree passes).Opens g.size n) :
    (Merging.passes passes { graph := g, tree, merged := 0, dangling := false }).1.tree.Fits
      (g.merged tree passes).toDigraph := by
  have hkept := Merging.passes_induction
    (P := fun g' tree' => ∃ condition owner, Condenses g g' condition owner ∧ g'.Guided ∧
      ((∀ n, g.Landing n → (condition (owner n)).opening = n) → tree'.Fits g'.toDigraph))
    ?_ ?_ passes { graph := g, tree, merged := 0, dangling := false }
    ⟨_, _, condenses_refl h.wired, h, fun _ => hfits⟩
  · obtain ⟨condition, owner, hcondenses, -, hfits⟩ := hkept
    refine hfits fun n hlanding => ?_
    have hlive := hlanding.isLive h.wired hentry
    have hthere := hcondenses.owner_live n hlive
    exact hopens n hlanding _ _ hthere (hcondenses.comprises _ hthere)
      ((hcondenses.mem_tests_iff _ n hthere).2 ⟨hlive, rfl⟩)
  · rintro g' tree' first b merge ⟨condition, owner, hcondenses, hguided, hfits⟩ hlive htargets
      houter hplanned
    have hplans := plans_mergePlan houter hplanned
    have hmerges := merges_mergeBranches hguided.wired hplans hlive
    refine ⟨_, _, hcondenses.of_merges hmerges hplans hlive,
      hmerges.guided hguided hplans hlive htargets,
      fun hopens => ?_⟩
    have hbefore (n : NodeId) (hlanding : g.Landing n) :=
      hcondenses.opens_before hlive hplans.apart (hlanding.isLive h.wired hentry)
        (hopens n hlanding)
    have hinner : ¬ g'.Landing merge.second := by
      intro hlanding
      obtain ⟨m, hlanding, hsame⟩ := hcondenses.landing_owner hlanding
      exact (hbefore m hlanding).1 hsame
    have hentry' : g'.isLive g'.entry = true :=
      hcondenses.entry_eq ▸ hcondenses.owner_live g.entry hentry
    exact (hplans.encloses hguided hentry' hlive htargets hinner).fits
      (hfits fun n hlanding => (hbefore n hlanding).2)
  · rintro g' tree' ⟨condition, owner, hcondenses, hguided, hfits⟩
    have htouch := g'.retouches_reorder
    refine ⟨_, _, hcondenses.of_reorder, hguided.retouch (htouch.mono fun _ _ hsame => ?_),
      fun hopens => ?_⟩
    · exact congrArg NodeKind.targets? hsame.kind_eq
    · rw [htouch.toDigraph_eq]
      exact hfits hopens

/-- **A node that is no branch is not merged**, so that it is tested first if control comes to
it. -/
theorem opens_of_no_targets
    (h : g.Wired)
    (tree : DominatorTree)
    (passes : Nat)
    (hlive : g.isLive n = true)
    (hends : (g.node n).kind.targets? = none) :
    (g.merged tree passes).Opens g.size n := by
  have hkept := Merging.passes_induction
    (P := fun g' _ => ∃ condition owner, Condenses g g' condition owner ∧ owner n = n ∧
      (g'.node n).kind.targets? = none)
    ?_ ?_ passes { graph := g, tree, merged := 0, dangling := false }
    ⟨_, _, condenses_refl h, rfl, hends⟩
  · obtain ⟨condition, owner, hcondenses, hsame, -⟩ := hkept
    intro m c hthere hcomprises hmem
    rw [hcomprises.unique (hcondenses.comprises m hthere), hcondenses.mem_tests_iff m n hthere,
      hsame] at hmem
    obtain ⟨-, rfl⟩ := hmem
    cases hcomprises with
    | test => rfl
    | join hnew => exact absurd (lt_size_of_isLive hlive) (Nat.not_lt.2 hnew)
  · rintro g' _ first b merge ⟨condition, owner, hcondenses, hsame, hends⟩ hfirst_live htargets
      houter hplanned
    have hplans := plans_mergePlan houter hplanned
    have hmerges := merges_mergeBranches hcondenses.wired hplans hfirst_live
    have hother : n ≠ first := by
      rintro rfl
      cases htargets.symm.trans hends
    have hother' : n ≠ merge.second := by
      rintro rfl
      cases hplans.targets.symm.trans hends
    refine ⟨_, _, hcondenses.of_merges hmerges hplans hfirst_live, ?_, ?_⟩
    · rw [hsame, combining_of_ne hother hother']
    · rw [hmerges.targets_kept hother hother' (hsame ▸ hcondenses.owner_live n hlive), hends]
      rfl
  · rintro g' _ ⟨condition, owner, hcondenses, hsame, hends⟩
    refine ⟨_, _, hcondenses.of_reorder, hsame, ?_⟩
    rw [(g'.retouches_reorder.kept n).kind_eq, hends]

/-- Merging makes no exception edges where there have been none. -/
theorem merged_bare
    (h : g.Wired)
    (tree : DominatorTree)
    (passes : Nat)
    (hbare : ∀ n, g.handlerSuccs n = [])
    (m : NodeId) :
    (g.merged tree passes).handlerSuccs m = [] := by
  obtain ⟨condition, owner, hcondenses⟩ := merged_condenses h tree passes
  refine List.eq_nil_iff_forall_not_mem.2 fun n hmem => ?_
  obtain ⟨hlive, hlive'⟩ := hcondenses.wired.live m n (.inr hmem)
  obtain ⟨x, -, hedge⟩ := (hcondenses.mem_handlerSuccs_iff m n hlive hlive').1 hmem
  exact List.not_mem_nil (hbare x ▸ hedge)

end Merging

end FlowGraph
end DalvikDecompiler
