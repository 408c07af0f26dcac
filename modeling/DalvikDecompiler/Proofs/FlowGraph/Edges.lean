import DalvikDecompiler.FlowGraph.Basic
import DalvikDecompiler.Proofs.OrderedSet

/-!
# Edges at both of their ends

**Input.** The edges of one kind, as the targets of each source and the sources of each target.

Edits go through the ends of several edges one after another.  In between an edge may be known at
one end only; afterwards edges are known at both ends again.  The order of targets is described
exactly, of the sources only which ones there are.

**Results.**
* `Paired.cut`: a node without its edges.
* `Paired.substitute`, `Paired.readdress`: two ways of leading the edges into a node to another one.
  The first one keeps the positions of targets, the second one puts the new target at the end.
* `Paired.transfer`: the edges out of a node start at another one.
-/

namespace DalvikDecompiler

open OrderedSet (insertAll erase mem_insert mem_insertAll mem_erase nodup_insert nodup_insertAll
  nodup_erase erase_of_not_mem)

/-- Edges of one kind. -/
structure Edges where
  targets : NodeId → List NodeId
  sources : NodeId → List NodeId

namespace Edges

/-- Edges are known at both ends, and each once. -/
structure Paired (e : Edges) : Prop where
  mem_sources : ∀ a b, a ∈ e.sources b ↔ b ∈ e.targets a
  nodup : ∀ a, (e.targets a).Nodup

/-- Forget an edge at its source. -/
def dropTarget (e : Edges) (a b : NodeId) : Edges :=
  { e with targets := Function.update e.targets a (erase (e.targets a) b) }

/-- Forget an edge at its target. -/
def dropSource (e : Edges) (a b : NodeId) : Edges :=
  { e with sources := Function.update e.sources b (erase (e.sources b) a) }

/-- Add an edge, unless its source knows it. -/
def add (e : Edges) (a b : NodeId) : Edges :=
  if (e.targets a).contains b then
    e
  else
    { targets := Function.update e.targets a (e.targets a ++ [b])
      sources := Function.update e.sources b (e.sources b ++ [a]) }

/-- Forget the edges out of a node. -/
def clearTargets (e : Edges) (n : NodeId) : Edges :=
  (e.targets n).foldl (fun e b => e.dropSource n b)
    { e with targets := Function.update e.targets n [] }

/-- Forget the edges into a node. -/
def clearSources (e : Edges) (n : NodeId) : Edges :=
  (e.sources n).foldl (fun e a => e.dropTarget a n)
    { e with sources := Function.update e.sources n [] }

/-- Lead an edge into a node to another one, at the same position. -/
def substituteFrom (old new : NodeId) (e : Edges) (a : NodeId) : Edges :=
  { targets := Function.update e.targets a (FlowGraph.substitute old new (e.targets a))
    sources := Function.update e.sources new (OrderedSet.insert (e.sources new) a) }

/-- Lead all edges into a node to another one, at the same positions. -/
def substitute (e : Edges) (old new : NodeId) : Edges :=
  (e.sources old).foldl (substituteFrom old new)
    { e with sources := Function.update e.sources old [] }

/-- Lead all edges into a node to another one, behind the other targets. -/
def readdress (e : Edges) (old new : NodeId) : Edges :=
  (e.sources old).foldl (fun e a => (e.dropTarget a old).add a new)
    { e with sources := Function.update e.sources old [] }

/-- Let an edge start at another node, and perhaps lead somewhere else. -/
def transferTo (old new : NodeId) (redirect : NodeId → NodeId) (e : Edges) (b : NodeId) : Edges :=
  (e.dropSource old b).add new (redirect b)

/-- Let all edges out of a node start at another one. -/
def transfer (e : Edges) (old new : NodeId) (redirect : NodeId → NodeId) : Edges :=
  (e.targets old).foldl (transferTo old new redirect)
    { e with targets := Function.update e.targets old [] }

/-- Go to another node instead of a given one. -/
def replacing (old new n : NodeId) : NodeId :=
  if n = old then new else n

section Lists

variable {a b old new : NodeId} {xs : List NodeId}

theorem replacing_self :
    replacing old new old = new :=
  if_pos rfl

theorem replacing_of_ne
    (h : a ≠ old) :
    replacing old new a = a :=
  if_neg h

theorem map_replacing_of_not_mem
    (h : old ∉ xs) :
    xs.map (replacing old new) = xs :=
  (List.map_congr_left fun _ hx => replacing_of_ne (ne_of_mem_of_not_mem hx h)).trans
    (List.map_id xs)

theorem not_mem_map_replacing
    (hapart : new ≠ old) :
    old ∉ xs.map (replacing old new) := fun hmem => by
  obtain ⟨x, -, hthere⟩ := List.mem_map.1 hmem
  unfold replacing at hthere
  split at hthere
  · exact hapart hthere
  · next hother => exact hother hthere

theorem replaceFirst_of_not_mem
    (h : old ∉ xs) :
    FlowGraph.substitute.replaceFirst old new xs = xs := by
  induction xs with
  | nil => rfl
  | cons x xs ih =>
      obtain ⟨hx, hxs⟩ := List.ne_and_not_mem_of_not_mem_cons h
      rw [FlowGraph.substitute.replaceFirst, if_neg (Ne.symm hx), ih hxs]

theorem substitute_of_not_mem
    (h : old ∉ xs) :
    FlowGraph.substitute old new xs = xs := by
  unfold FlowGraph.substitute
  split
  · exact erase_of_not_mem h
  · exact replaceFirst_of_not_mem h

/-- A target that is not there yet takes the position of the old one. -/
theorem substitute_of_new
    (h : xs.Nodup)
    (hfresh : new ∉ xs) :
    FlowGraph.substitute old new xs = xs.map (replacing old new) := by
  unfold FlowGraph.substitute
  rw [if_neg (by simpa using hfresh)]
  clear hfresh
  induction xs with
  | nil => rfl
  | cons x xs ih =>
      obtain ⟨hx, hxs⟩ := List.nodup_cons.1 h
      rw [FlowGraph.substitute.replaceFirst, List.map_cons]
      split
      · next hsame =>
          subst hsame
          rw [replacing_self, map_replacing_of_not_mem hx]
      · next hother => rw [replacing_of_ne hother, ih hxs]

theorem mem_substitute
    (hapart : new ≠ old)
    (h : xs.Nodup) :
    b ∈ FlowGraph.substitute old new xs ↔ b ∈ xs ∧ b ≠ old ∨ b = new ∧ old ∈ xs := by
  by_cases hfresh : new ∈ xs
  · have hthere : FlowGraph.substitute old new xs = erase xs old :=
      if_pos (List.contains_iff_mem.2 hfresh)
    rw [hthere, mem_erase]
    grind
  · rw [substitute_of_new h hfresh, List.mem_map]
    unfold replacing
    grind

theorem nodup_substitute
    (h : xs.Nodup) :
    (FlowGraph.substitute old new xs).Nodup := by
  by_cases hfresh : new ∈ xs
  · have hthere : FlowGraph.substitute old new xs = erase xs old :=
      if_pos (List.contains_iff_mem.2 hfresh)
    exact hthere ▸ nodup_erase h
  · rw [substitute_of_new h hfresh]
    refine h.map_on fun x hx y hy hsame => ?_
    unfold replacing at hsame
    grind

end Lists

section Ends

variable {e : Edges} {a b n m : NodeId} {xs : List NodeId}

theorem targets_add :
    (e.add a b).targets n =
      if n = a then OrderedSet.insert (e.targets n) b else e.targets n := by
  unfold add OrderedSet.insert
  by_cases hknown : (e.targets a).contains b
  · rw [if_pos hknown]
    split
    · next hsame => rw [hsame, if_pos hknown]
    · rfl
  · rw [if_neg hknown]
    by_cases hsame : n = a
    · subst hsame
      simp only [Function.update_self, hknown]
      rfl
    · simp [hsame]

/-- The new edge is known at its target, if it was known there whenever its source knew it. -/
theorem mem_sources_add
    (hknown : b ∈ e.targets a → a ∈ e.sources b) :
    n ∈ (e.add a b).sources m ↔ n ∈ e.sources m ∨ n = a ∧ m = b := by
  unfold add
  split
  · next h =>
      have := hknown (List.contains_iff_mem.1 h)
      grind
  · simp only [Function.update_apply]
    grind

theorem targets_foldl_dropSource :
    (xs.foldl (fun e b => e.dropSource n b) e).targets = e.targets := by
  induction xs generalizing e with
  | nil => rfl
  | cons x xs ih => exact ih

theorem mem_sources_foldl_dropSource :
    a ∈ (xs.foldl (fun e b => e.dropSource n b) e).sources b ↔
      a ∈ e.sources b ∧ ¬ (a = n ∧ b ∈ xs) := by
  induction xs generalizing e with
  | nil => simp
  | cons x xs ih =>
      rw [List.foldl_cons, ih]
      simp only [dropSource, Function.update_apply, List.mem_cons]
      by_cases hsame : b = x
      · subst hsame
        simp
        grind
      · simp [hsame]

theorem sources_foldl_dropTarget :
    (xs.foldl (fun e a => e.dropTarget a n) e).sources = e.sources := by
  induction xs generalizing e with
  | nil => rfl
  | cons x xs ih => exact ih

theorem targets_foldl_dropTarget :
    (xs.foldl (fun e a => e.dropTarget a n) e).targets a =
      if a ∈ xs then erase (e.targets a) n else e.targets a := by
  induction xs generalizing e with
  | nil => simp
  | cons x xs ih =>
      have htwice : erase (erase (e.targets x) n) n = erase (e.targets x) n :=
        erase_of_not_mem (by simp)
      rw [List.foldl_cons, ih]
      simp only [dropTarget, Function.update_apply, List.mem_cons]
      grind

end Ends

section Facts

variable {e : Edges} {a b n old new : NodeId}

/-- An edge is added. -/
theorem Paired.add
    (h : e.Paired)
    (a b : NodeId) :
    (e.add a b).Paired where
  mem_sources c d := by
    rw [mem_sources_add (h.mem_sources a b).2, h.mem_sources, targets_add]
    grind [mem_insert]
  nodup c := by
    rw [targets_add]
    split
    · exact nodup_insert (h.nodup c)
    · exact h.nodup c

/-- An edge is forgotten. -/
theorem Paired.drop
    (h : e.Paired)
    (a b : NodeId) :
    ((e.dropTarget a b).dropSource a b).Paired ∧
      ∀ n, ((e.dropTarget a b).dropSource a b).targets n =
        if n = a then erase (e.targets n) b else e.targets n := by
  have htargets (n : NodeId) : ((e.dropTarget a b).dropSource a b).targets n =
      if n = a then erase (e.targets n) b else e.targets n := by
    simp only [dropTarget, dropSource, Function.update_apply]
    split
    · next hsame => rw [hsame]
    · rfl
  refine ⟨⟨fun c d => ?_, fun c => ?_⟩, htargets⟩
  · have hknown := h.mem_sources c d
    rw [htargets]
    simp only [dropTarget, dropSource, Function.update_apply]
    grind [mem_erase]
  · rw [htargets]
    split
    · exact nodup_erase (h.nodup c)
    · exact h.nodup c

/-- The edges out of a node are forgotten. -/
theorem Paired.clearTargets
    (h : e.Paired)
    (n : NodeId) :
    (e.clearTargets n).Paired ∧
      ∀ a, (e.clearTargets n).targets a = if a = n then [] else e.targets a := by
  have htargets (a : NodeId) :
      (e.clearTargets n).targets a = if a = n then [] else e.targets a := by
    unfold Edges.clearTargets
    rw [targets_foldl_dropSource]
    exact Function.update_apply ..
  refine ⟨⟨fun a b => ?_, fun a => ?_⟩, htargets⟩
  · rw [htargets, Edges.clearTargets, mem_sources_foldl_dropSource, h.mem_sources]
    split <;> grind
  · rw [htargets]
    split
    · exact List.nodup_nil
    · exact h.nodup a

/-- The edges into a node are forgotten. -/
theorem Paired.clearSources
    (h : e.Paired)
    (n : NodeId) :
    (e.clearSources n).Paired ∧ ∀ a, (e.clearSources n).targets a = erase (e.targets a) n := by
  have htargets (a : NodeId) : (e.clearSources n).targets a = erase (e.targets a) n := by
    unfold Edges.clearSources
    rw [targets_foldl_dropTarget]
    split
    · rfl
    · next habsent => exact (erase_of_not_mem fun hmem => habsent ((h.mem_sources a n).2 hmem)).symm
  refine ⟨⟨fun a b => ?_, fun a => htargets a ▸ nodup_erase (h.nodup a)⟩, htargets⟩
  rw [htargets, Edges.clearSources, sources_foldl_dropTarget, mem_erase, ← h.mem_sources]
  simp only [Function.update_apply]
  split <;> simp_all

/-- **A node without its edges.** -/
theorem Paired.cut
    (h : e.Paired)
    (n : NodeId) :
    ((e.clearTargets n).clearSources n).Paired ∧
      ∀ a, ((e.clearTargets n).clearSources n).targets a =
        if a = n then [] else erase (e.targets a) n := by
  obtain ⟨hpaired, hfirst⟩ := h.clearTargets n
  obtain ⟨hpaired, hsecond⟩ := hpaired.clearSources n
  refine ⟨hpaired, fun a => ?_⟩
  rw [hsecond, hfirst]
  split <;> rfl

theorem targets_foldl_substituteFrom
    (hapart : new ≠ old)
    {xs : List NodeId}
    (hnodup : ∀ a, (e.targets a).Nodup) :
    (xs.foldl (substituteFrom old new) e).targets a =
      if a ∈ xs then FlowGraph.substitute old new (e.targets a) else e.targets a := by
  induction xs generalizing e with
  | nil => simp
  | cons x xs ih =>
      have htwice : FlowGraph.substitute old new (FlowGraph.substitute old new (e.targets x)) =
          FlowGraph.substitute old new (e.targets x) := by
        refine substitute_of_not_mem fun hmem => ?_
        rcases (mem_substitute hapart (hnodup x)).1 hmem with ⟨-, h⟩ | ⟨h, -⟩
        · exact h rfl
        · exact hapart h.symm
      rw [List.foldl_cons, ih]
      · simp only [substituteFrom, Function.update_apply, List.mem_cons]
        grind
      · intro n
        simp only [substituteFrom, Function.update_apply]
        split
        · next hsame => exact hsame ▸ nodup_substitute (hnodup _)
        · exact hnodup n

theorem mem_sources_foldl_substituteFrom
    {xs : List NodeId} :
    a ∈ (xs.foldl (substituteFrom old new) e).sources b ↔
      a ∈ e.sources b ∨ b = new ∧ a ∈ xs := by
  induction xs generalizing e with
  | nil => simp
  | cons x xs ih =>
      rw [List.foldl_cons, ih]
      simp only [substituteFrom, Function.update_apply, List.mem_cons]
      by_cases hsame : b = new
      · subst hsame
        simp [or_assoc]
      · simp [hsame]

/-- **The edges into a node lead to another one, at the same positions.** -/
theorem Paired.substitute
    (h : e.Paired)
    (hapart : new ≠ old) :
    (e.substitute old new).Paired ∧
      ∀ a, (e.substitute old new).targets a = FlowGraph.substitute old new (e.targets a) := by
  have htargets (a : NodeId) :
      (e.substitute old new).targets a = FlowGraph.substitute old new (e.targets a) := by
    unfold Edges.substitute
    rw [targets_foldl_substituteFrom
      (e := { e with sources := Function.update e.sources old [] }) hapart h.nodup]
    split
    · rfl
    · next habsent =>
        exact (substitute_of_not_mem fun hmem => habsent ((h.mem_sources a old).2 hmem)).symm
  refine ⟨⟨fun a b => ?_, fun a => htargets a ▸ nodup_substitute (h.nodup a)⟩, htargets⟩
  rw [htargets, Edges.substitute, mem_sources_foldl_substituteFrom,
    mem_substitute hapart (h.nodup a),
    ← h.mem_sources, ← h.mem_sources]
  simp only [Function.update_apply]
  grind

theorem foldl_readdress_facts
    (xs : List NodeId)
    (hapart : new ≠ old)
    (hknown : ∀ a, new ∈ e.targets a → a ∈ e.sources new) :
    (∀ a, (xs.foldl (fun e a => (e.dropTarget a old).add a new) e).targets a =
        if a ∈ xs then OrderedSet.insert (erase (e.targets a) old) new else e.targets a) ∧
      ∀ a b, a ∈ (xs.foldl (fun e a => (e.dropTarget a old).add a new) e).sources b ↔
        a ∈ e.sources b ∨ b = new ∧ a ∈ xs := by
  induction xs generalizing e with
  | nil => simp
  | cons x xs ih =>
      have hfirst (a : NodeId) : ((e.dropTarget x old).add x new).targets a =
          if a = x then OrderedSet.insert (erase (e.targets a) old) new else e.targets a := by
        rw [targets_add]
        simp only [dropTarget, Function.update_apply]
        grind
      have hends (a b : NodeId) : a ∈ ((e.dropTarget x old).add x new).sources b ↔
          a ∈ e.sources b ∨ a = x ∧ b = new := by
        refine mem_sources_add fun hmem => ?_
        simp only [dropTarget, Function.update_self, mem_erase] at hmem
        exact hknown x hmem.1
      have htwice : OrderedSet.insert (erase (OrderedSet.insert (erase (e.targets x) old) new) old)
          new = OrderedSet.insert (erase (e.targets x) old) new := by
        rw [erase_of_not_mem (by simp [hapart.symm])]
        exact if_pos (by simp)
      obtain ⟨htargets, hsources⟩ := ih (e := (e.dropTarget x old).add x new) fun a hmem => by
        rw [hfirst] at hmem
        rw [hends]
        grind
      refine ⟨fun a => ?_, fun a b => ?_⟩
      · rw [List.foldl_cons, htargets, hfirst]
        simp only [List.mem_cons]
        grind
      · rw [List.foldl_cons, hsources, hends]
        simp only [List.mem_cons]
        grind

/-- **The edges into a node lead to another one, behind the other targets.** -/
theorem Paired.readdress
    (h : e.Paired)
    (hapart : new ≠ old) :
    (e.readdress old new).Paired ∧
      ∀ a, (e.readdress old new).targets a =
        if old ∈ e.targets a then OrderedSet.insert (erase (e.targets a) old) new
        else e.targets a := by
  obtain ⟨htargets, hsources⟩ := foldl_readdress_facts
    (e := { e with sources := Function.update e.sources old [] }) (e.sources old) hapart
    fun a hmem => by
      simp only [Function.update_apply, if_neg hapart]
      exact (h.mem_sources a new).2 hmem
  have htargets (a : NodeId) : (e.readdress old new).targets a =
      if old ∈ e.targets a then OrderedSet.insert (erase (e.targets a) old) new
      else e.targets a := by
    have hends := h.mem_sources a old
    unfold Edges.readdress
    rw [htargets]
    simp only [hends]
  refine ⟨⟨fun a b => ?_, fun a => ?_⟩, htargets⟩
  · have hold_iff := h.mem_sources a old
    have hb_iff := h.mem_sources a b
    rw [htargets, Edges.readdress, hsources]
    simp only [Function.update_apply]
    grind [mem_insert, mem_erase]
  · rw [htargets]
    split
    · exact nodup_insert (nodup_erase (h.nodup a))
    · exact h.nodup a

theorem foldl_transferTo_facts
    (redirect : NodeId → NodeId)
    (xs : List NodeId)
    (hapart : new ≠ old)
    (hknown : ∀ b, b ∈ e.targets new → new ∈ e.sources b) :
    (∀ a, (xs.foldl (transferTo old new redirect) e).targets a =
        if a = new then insertAll (e.targets a) (xs.map redirect) else e.targets a) ∧
      ∀ a b, a ∈ (xs.foldl (transferTo old new redirect) e).sources b ↔
        a ∈ e.sources b ∧ ¬ (a = old ∧ b ∈ xs) ∨ a = new ∧ b ∈ xs.map redirect := by
  induction xs generalizing e with
  | nil => simp [insertAll]
  | cons x xs ih =>
      have hfirst (a : NodeId) : (transferTo old new redirect e x).targets a =
          if a = new then OrderedSet.insert (e.targets a) (redirect x) else e.targets a :=
        targets_add
      have hends (a b : NodeId) : a ∈ (transferTo old new redirect e x).sources b ↔
          a ∈ e.sources b ∧ ¬ (a = old ∧ b = x) ∨ a = new ∧ b = redirect x := by
        have hdropped : a ∈ (e.dropSource old x).sources b ↔
            a ∈ e.sources b ∧ ¬ (a = old ∧ b = x) := by
          simp only [dropSource, Function.update_apply]
          grind [mem_erase]
        refine (mem_sources_add fun hmem => ?_).trans (or_congr_left hdropped)
        have := hknown _ hmem
        simp only [dropSource, Function.update_apply]
        grind [mem_erase]
      obtain ⟨htargets, hsources⟩ := ih (e := transferTo old new redirect e x) fun b hmem => by
        rw [hfirst, if_pos rfl, mem_insert] at hmem
        rw [hends]
        rcases hmem with hmem | hsame
        · exact .inl ⟨hknown b hmem, fun h => hapart h.1⟩
        · exact .inr ⟨rfl, hsame⟩
      refine ⟨fun a => ?_, fun a b => ?_⟩
      · rw [List.foldl_cons, htargets, hfirst]
        split
        · rfl
        · rfl
      · rw [List.foldl_cons, hsources, hends]
        simp only [List.map_cons, List.mem_cons]
        grind

/-- **The edges out of a node start at another one.** -/
theorem Paired.transfer
    (h : e.Paired)
    (hapart : new ≠ old)
    (redirect : NodeId → NodeId) :
    (e.transfer old new redirect).Paired ∧
      ∀ a, (e.transfer old new redirect).targets a =
        if a = old then []
        else if a = new then insertAll (e.targets a) ((e.targets old).map redirect)
        else e.targets a := by
  obtain ⟨htargets, hsources⟩ := foldl_transferTo_facts
    (e := { e with targets := Function.update e.targets old [] }) redirect (e.targets old) hapart
    fun b hmem => by
      simp only [Function.update_apply, if_neg hapart] at hmem
      exact (h.mem_sources new b).2 hmem
  have htargets (a : NodeId) : (e.transfer old new redirect).targets a =
      if a = old then []
      else if a = new then insertAll (e.targets a) ((e.targets old).map redirect)
      else e.targets a := by
    unfold Edges.transfer
    rw [htargets]
    simp only [Function.update_apply]
    grind
  refine ⟨⟨fun a b => ?_, fun a => ?_⟩, htargets⟩
  · have hb_iff := h.mem_sources a b
    have hold_iff := h.mem_sources old b
    rw [htargets, Edges.transfer, hsources]
    grind [mem_insertAll]
  · rw [htargets]
    split
    · exact List.nodup_nil
    · split
      · exact nodup_insertAll (h.nodup a)
      · exact h.nodup a

end Facts

end Edges
end DalvikDecompiler
