import DalvikDecompiler.Proofs.FlowGraph.Marking
import DalvikDecompiler.Proofs.FlowGraph.MergedDominance
import DalvikDecompiler.Proofs.FlowGraph.Protection

/-!
# Graphs in which no region has been entered

**Input.** A guided flow graph whose entry is part of it.

Cleaning a graph up and merging its branches move edges together with the targets of branches, and
make no node that enters a protected region.

**Results.**
* `Ordinary`: a guided graph with an entry, in which no region has been entered.
* `Ordinary.clean`: cleaning up keeps a graph ordinary.
* `Ordinary.merged`: merging branches keeps a graph ordinary.
-/

namespace DalvikDecompiler

open Edges (replacing)

namespace FlowGraph

/-- A guided graph whose entry is part of it, and in which no region has been entered. -/
structure Ordinary (g : FlowGraph) : Prop extends Guided g where
  entry_live : g.isLive g.entry = true
  outside : ∀ n, g.isLive n = true → (g.node n).kind.entered? = none

section Edits

variable {g g' : FlowGraph} {id succ n : NodeId} {f : NodeId → NodeId}

theorem Ordinary.retouch
    (h : g.Ordinary)
    (htouch : Retouches SameKind g g') :
    g'.Ordinary where
  toGuided := h.toGuided.retouch (htouch.mono fun _ _ hsame => congrArg NodeKind.targets? hsame)
  entry_live := by
    rw [htouch.isLive_eq, htouch.entry_eq]
    exact h.entry_live
  outside n hlive := by
    rw [htouch.kept n]
    exact h.outside n ((htouch.isLive_eq n).symm.trans hlive)

theorem Ordinary.reorder
    (h : g.Ordinary) :
    g.reorder.Ordinary :=
  h.retouch (g.retouches_reorder.mono fun _ _ => Renumbered.kind_eq)

theorem Ordinary.reindex
    (h : g.Ordinary) :
    g.reindex.Ordinary :=
  h.retouch (retouches_of_same SameKind.refl rfl rfl)

theorem Ordinary.marks
    (h : g.Ordinary)
    (hmarks : Marks g g') :
    g'.Ordinary where
  toGuided := hmarks.guided h.toGuided
  entry_live := by
    rw [hmarks.touch.isLive_eq, hmarks.touch.entry_eq]
    exact h.entry_live
  outside n hlive :=
    (hmarks.touch.kept n).entered (h.outside n ((hmarks.touch.isLive_eq n).symm.trans hlive))

/-- A node that is renewed together with its edges keeps its targets among them. -/
theorem toward_mem_of_remap
    {kind kind' : NodeKind}
    {succs succs' : List NodeId}
    (hkind_eq : kind' = kind.remap f)
    (hknown : ∀ b, kind.targets? = some b → ∀ holds, b.toward holds ∈ succs)
    (hmoved : ∀ m, (∃ b holds, kind.targets? = some b ∧ b.toward holds = m) → m ∈ succs →
      f m ∈ succs')
    (b : BranchTargets)
    (htargets : kind'.targets? = some b)
    (holds : Bool) :
    b.toward holds ∈ succs' := by
  rw [hkind_eq, NodeKind.targets?_remap, Option.map_eq_some_iff] at htargets
  obtain ⟨before, htargets, rfl⟩ := htargets
  rw [NodeKind.toward_remap]
  exact hmoved _ ⟨before, holds, htargets, rfl⟩ (hknown before htargets holds)

theorem entered?_of_remap
    {kind kind' : NodeKind}
    (hkind_eq : kind' = kind.remap f)
    (houtside : kind.entered? = none) :
    kind'.entered? = none := by
  rw [hkind_eq, NodeKind.entered?_remap, houtside]
  rfl

theorem Ordinary.splits
    (h : g.Ordinary)
    (hsplits : Splits g g' id)
    (hlive : g.isLive id = true) :
    g'.Ordinary := by
  have hisLive {n : NodeId} : g'.isLive n = true ↔
      n = g.size ∨ n = g.size + 1 ∨ n ≠ id ∧ g.isLive n = true := by
    simp [hsplits.isLive_eq, or_assoc]
  refine ⟨⟨hsplits.wired, fun n b hthere htargets holds => ?_⟩, ?_, fun n hthere => ?_⟩
  · rcases hisLive.1 hthere with rfl | rfl | ⟨hother, hthere⟩
    · rw [hsplits.pre_kind] at htargets
      cases htargets
    · exact toward_mem_of_remap hsplits.cond_kind (fun b => h.mem_succs id b hlive)
        (fun m _ hmem => hsplits.cond_succs ▸ List.mem_map_of_mem hmem) b htargets holds
    · exact toward_mem_of_remap (hsplits.renews n hother hthere).kind_eq
        (fun b => h.mem_succs n b hthere)
        (fun m _ hmem => hsplits.succs_eq n hother hthere ▸ List.mem_map_of_mem hmem) b
          htargets holds
  · rw [hisLive, hsplits.entry_eq]
    unfold replacing
    split
    · exact .inl rfl
    · next hother => exact .inr (.inr ⟨hother, h.entry_live⟩)
  · rcases hisLive.1 hthere with rfl | rfl | ⟨hother, hthere⟩
    · rw [hsplits.pre_kind]
      rfl
    · exact entered?_of_remap hsplits.cond_kind (h.outside id hlive)
    · exact entered?_of_remap (hsplits.renews n hother hthere).kind_eq (h.outside n hthere)

theorem Ordinary.bypasses
    (h : g.Ordinary)
    (hbypasses : Bypasses g g' id succ)
    (hedge : succ ∈ g.succs id)
    (hapart : succ ≠ id) :
    g'.Ordinary := by
  have hlive {n : NodeId} : g'.isLive n = true ↔ n ≠ id ∧ g.isLive n = true := by
    simp [hbypasses.isLive_eq]
  refine ⟨⟨hbypasses.wired, fun n b hthere htargets holds => ?_⟩, ?_, fun n hthere => ?_⟩
  · obtain ⟨hother, hthere⟩ := hlive.1 hthere
    refine toward_mem_of_remap (hbypasses.renews n hthere).kind_eq (fun b => h.mem_succs n b hthere)
      (fun m _ hmem => ?_) b htargets holds
    rw [hbypasses.succs_eq n hother, mem_substitute_iff hapart (h.wired.nodup_succs n)]
    exact ⟨m, hmem, rfl⟩
  · rw [hlive, hbypasses.entry_eq]
    unfold replacing
    split
    · exact ⟨hapart, (h.wired.live id succ (.inl hedge)).2⟩
    · next hother => exact ⟨hother, h.entry_live⟩
  · obtain ⟨-, hthere⟩ := hlive.1 hthere
    exact entered?_of_remap (hbypasses.renews n hthere).kind_eq (h.outside n hthere)

theorem Ordinary.joins
    (h : g.Ordinary)
    (hjoins : Joins g g' id succ)
    (hlive : g.isLive id = true)
    (hkind : (g.node id).kind = .statement)
    (hpreds : g.preds succ = [id])
    (hinner : succ ≠ g.entry) :
    g'.Ordinary := by
  have hisLive {n : NodeId} : g'.isLive n = true ↔ n ≠ succ ∧ g.isLive n = true := by
    simp [hjoins.isLive_eq]
  refine ⟨⟨hjoins.wired, fun n b hthere htargets holds => ?_⟩, ?_, fun n hthere => ?_⟩
  · obtain ⟨hother, hthere⟩ := hisLive.1 hthere
    by_cases here : n = id
    · rw [here, hjoins.kind_eq, hkind] at htargets
      cases htargets
    · refine toward_mem_of_remap (hjoins.renews n here hother hthere).kind_eq
        (fun b => h.mem_succs n b hthere) (fun m _ hmem => ?_) b htargets holds
      have houter : m ≠ succ := by
        rintro rfl
        exact here (List.mem_singleton.1 (hpreds ▸ h.wired.mem_preds.2 hmem))
      rw [hjoins.succs_eq n hother, if_neg here, Edges.replacing_of_ne houter]
      exact hmem
  · rw [hisLive, hjoins.entry_eq]
    exact ⟨hinner.symm, h.entry_live⟩
  · obtain ⟨hother, hthere⟩ := hisLive.1 hthere
    by_cases here : n = id
    · rw [here]
      exact entered?_of_remap hjoins.kind_eq (h.outside id hlive)
    · exact entered?_of_remap (hjoins.renews n here hother hthere).kind_eq (h.outside n hthere)

theorem Ordinary.compacts
    (h : g.Ordinary)
    (hcompacts : Compacts g id g') :
    g'.Ordinary := by
  cases hcompacts with
  | bypass hlive hkind hsuccs hempty hapart hbypasses =>
      exact h.bypasses hbypasses (hsuccs ▸ List.mem_cons_self) hapart
  | join hlive hkind hsuccs hfilled hkind' hpreds hapart hinner handlers hjoins =>
      exact h.joins hjoins hlive hkind hpreds hinner

theorem Ordinary.foldl_splitBranch
    {split : List NodeId}
    (h : g.Ordinary)
    (hnodup : split.Nodup)
    (hlive : ∀ c ∈ split, g.isLive c = true) :
    (split.foldl splitBranch g).Ordinary := by
  induction split generalizing g with
  | nil => exact h
  | cons c rest ih =>
      obtain ⟨hapart, hnodup⟩ := List.nodup_cons.1 hnodup
      have hthere := hlive c List.mem_cons_self
      have hsplits := splits_splitBranch h.wired hthere
      rw [List.foldl_cons]
      refine ih (h.splits hsplits hthere) hnodup fun n hmem => ?_
      have hother : n ≠ c := fun hsame => hapart (hsame ▸ hmem)
      simp [hsplits.isLive_eq, hother, hlive n (List.mem_cons_of_mem c hmem)]

/-- **Cleaning up keeps a graph ordinary.** -/
theorem Ordinary.clean
    (h : g.Ordinary) :
    g.splitBranches.2.compact.2.reorder.Ordinary := by
  have hsplit : g.splitBranches.2.Ordinary := by
    unfold splitBranches
    dsimp only
    split
    · exact h
    · exact (h.foldl_splitBranch g.nodup_splitCandidates fun c =>
        isLive_of_mem_splitCandidates).reindex
  exact (compact_induction (fun _ h => h.wired) (fun _ _ _ h => h.compacts) (fun _ h => h.reindex)
    hsplit).reorder

/-- **Merging branches keeps a graph ordinary.** -/
theorem Ordinary.merged
    (h : g.Ordinary)
    (tree : DominatorTree)
    (passes : Nat) :
    (g.merged tree passes).Ordinary := by
  refine Merging.passes_induction (P := fun g' _ => g'.Ordinary) ?_
    (fun _ _ h => h.reorder) passes _ h
  intro g' _ first b merge h hlive htargets houter hplanned
  have hplans := plans_mergePlan houter hplanned
  have hmerges := merges_mergeBranches h.wired hplans hlive
  refine ⟨hmerges.guided h.toGuided hplans hlive htargets, ?_, fun n hthere => ?_⟩
  · rw [hmerges.entry_eq]
    exact hmerges.live_combining h.entry_live
  · rcases hmerges.live_iff.1 hthere with rfl | ⟨hother, hother', hthere⟩
    · rw [hmerges.kind_eq]
      rfl
    · exact entered?_of_remap (hmerges.renews n hother hother' hthere).kind_eq (h.outside n hthere)

end Edits

end FlowGraph
end DalvikDecompiler
