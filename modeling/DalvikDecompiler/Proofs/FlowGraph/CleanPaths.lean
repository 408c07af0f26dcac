import DalvikDecompiler.Proofs.FlowGraph.Cleanup
import DalvikDecompiler.Proofs.FlowGraph.Paths

/-!
# Cleaning up keeps what happens along paths

**Input.** A flow graph of the shape that methods have.

Each edit of a cleanup makes two nodes out of one, or one out of two, or leaves out a node without
instructions.

**Results.**
* `Compacts.sameRuns`, `Splits.sameRuns`: an edit keeps the shape of the graph and what may happen
  from the entry on.
-/

namespace DalvikDecompiler

open Symbolic (Instr)
open OrderedSet (insertAll insertAll_of_disjoint erase mem_erase mem_insertAll)
open Edges (replacing replacing_self replacing_of_ne)

theorem NodeKind.remap_eq_statement_iff
    {kind : NodeKind}
    {f : NodeId → NodeId} :
    kind.remap f = .statement ↔ kind = .statement := by
  cases kind <;> simp [remap]

namespace FlowGraph

/-- A node of the graph holds an instruction at a place. -/
def Carries (g : FlowGraph) (x : RunStep) : Prop :=
  ∃ n, g.isLive n = true ∧ x ∈ g.code n

/-- Each node holds as many places as instructions. -/
def Located (g : FlowGraph) : Prop :=
  ∀ n, g.isLive n = true → (g.node n).locs.length = (g.node n).ins.length

instance (g : FlowGraph) : Decidable g.Located :=
  decidable_of_iff (∀ n ∈ g.liveIds, (g.node n).locs.length = (g.node n).ins.length)
    ⟨fun h n hlive => h n (mem_liveIds_iff.2 hlive), fun h n hmem => h n (mem_liveIds_iff.1 hmem)⟩

/-- Another graph of the same shape does the same. -/
structure SameRuns (g g' : FlowGraph) : Prop where
  regular : g'.Regular
  proceeds_iff : ∀ events, g'.Proceeds g'.entry events ↔ g.Proceeds g.entry events
  carries_iff : g.Located → g'.Located ∧ ∀ x, g'.Carries x ↔ g.Carries x

section Edits

variable {g g' g'' : FlowGraph} {id succ : NodeId}

theorem SameRuns.refl
    (h : g.Regular) :
    SameRuns g g :=
  ⟨h, fun _ => .rfl, fun hlocated => ⟨hlocated, fun _ => .rfl⟩⟩

theorem SameRuns.trans
    (h : SameRuns g g')
    (h' : SameRuns g' g'') :
    SameRuns g g'' where
  regular := h'.regular
  proceeds_iff events := (h'.proceeds_iff events).trans (h.proceeds_iff events)
  carries_iff hlocated :=
    have ⟨hlocated', hsame⟩ := h.carries_iff hlocated
    have ⟨hlocated'', hsame'⟩ := h'.carries_iff hlocated'
    ⟨hlocated'', fun x => (hsame' x).trans (hsame x)⟩

/-- A statement leads to the only successor it has. -/
theorem Regular.succs_eq
    (h : g.Regular)
    (hlive : g.isLive id = true)
    (hkind : (g.node id).kind = .statement)
    {rest : List NodeId}
    (hsuccs : g.succs id = succ :: rest) :
    g.succs id = [succ] := by
  have hsingle := h.straight id hlive hkind
  rw [hsuccs] at hsingle ⊢
  simpa using hsingle

theorem Regular.leads_iff
    (h : g.Regular)
    (hlive : g.isLive id = true)
    (hkind : (g.node id).kind = .statement)
    {rest : List NodeId}
    (hsuccs : g.succs id = succ :: rest)
    (outcome : Option BranchOutcome)
    (t : NodeId) :
    g.Goes id outcome t ↔ outcome = none ∧ t = succ := by
  rw [goes_statement_iff hkind, h.succs_eq hlive hkind hsuccs, List.mem_singleton]

theorem length_substitute_le
    (old new : NodeId)
    (xs : List NodeId) :
    (substitute old new xs).length ≤ xs.length := by
  have hfirst (xs : List NodeId) : (substitute.replaceFirst old new xs).length = xs.length := by
    induction xs with
    | nil => rfl
    | cons x xs ih =>
        unfold substitute.replaceFirst
        split
        · rfl
        · rw [List.length_cons, ih, List.length_cons]
  unfold substitute
  split
  · exact List.length_filter_le ..
  · exact Nat.le_of_eq (hfirst xs)

theorem Bypasses.mirrors
    (h : Bypasses g g' id succ)
    (hwired : g.Wired)
    (hapart : succ ≠ id)
    {n : NodeId}
    (hlive : g.isLive n = true)
    (hother : n ≠ id) :
    Mirrors g g' n n (replacing id succ) where
  kind_eq := (h.renews n hlive).kind_eq
  mem_succs t' := by
    rw [h.succs_eq n hother, Edges.mem_substitute hapart (hwired.nodup_succs n)]
    unfold replacing
    grind

/-- A node that is left out takes no code with it. -/
theorem Bypasses.carries_iff
    (h : Bypasses g g' id succ)
    (hempty : (g.node id).ins = [])
    (hlocated : g.Located) :
    g'.Located ∧ ∀ x, g'.Carries x ↔ g.Carries x := by
  have hlive {n : NodeId} : g'.isLive n = true ↔ n ≠ id ∧ g.isLive n = true := by
    simp [h.isLive_eq]
  refine ⟨fun n hlive' => ?_, fun x => ?_⟩
  · have hrenews := h.renews n (hlive.1 hlive').2
    rw [hrenews.locs_eq, hrenews.ins_eq]
    exact hlocated n (hlive.1 hlive').2
  · have hcode {n : NodeId} (hlive' : g.isLive n = true) : g'.code n = g.code n := by
      unfold FlowGraph.code
      rw [(h.renews n hlive').ins_eq, (h.renews n hlive').locs_eq]
    constructor
    · rintro ⟨n, hlive', hmem⟩
      exact ⟨n, (hlive.1 hlive').2, hcode (hlive.1 hlive').2 ▸ hmem⟩
    · rintro ⟨n, hlive', hmem⟩
      refine ⟨n, hlive.2 ⟨?_, hlive'⟩, hcode hlive' ▸ hmem⟩
      rintro rfl
      simp [FlowGraph.code, hempty] at hmem

theorem Bypasses.sameRuns
    (h : Bypasses g g' id succ)
    (hregular : g.Regular)
    (hlive : g.isLive id = true)
    (hkind : (g.node id).kind = .statement)
    {rest : List NodeId}
    (hsuccs : g.succs id = succ :: rest)
    (hempty : (g.node id).ins = [])
    (hapart : succ ≠ id) :
    SameRuns g g' := by
  have hedge : succ ∈ g.succs id := hsuccs ▸ List.mem_cons_self
  have hliveSucc := (hregular.wired.live id succ (.inl hedge)).2
  have hisLive {n : NodeId} : g'.isLive n = true ↔ n ≠ id ∧ g.isLive n = true := by
    simp [h.isLive_eq]
  have hmirrors {n : NodeId} (hlive : g'.isLive n = true) :=
    h.mirrors hregular.wired hapart (hisLive.1 hlive).2 (hisLive.1 hlive).1
  have hshortens : Shortens g g' id succ :=
    { apart := hapart
      empty := hempty
      leads := hregular.leads_iff hlive hkind hsuccs
      others := fun n hlive hother => ⟨(h.renews n hlive).ins_eq, fun outcome t' =>
        (h.mirrors hregular.wired hapart hlive hother).goes_iff hregular hlive⟩
      live := fun n outcome t hgoes => (hregular.isLive_next hgoes).2 }
  refine ⟨⟨h.wired, ?_, fun n hlive hkind => ?_, fun n hlive targets hchoices t => ?_⟩,
    fun events => ?_, h.carries_iff hempty⟩
  · rw [h.entry_eq, hisLive]
    unfold replacing
    split
    · exact ⟨hapart, hliveSucc⟩
    · next hother => exact ⟨hother, hregular.entry⟩
  · obtain ⟨hother, hlive⟩ := hisLive.1 hlive
    rw [(h.renews n hlive).kind_eq, NodeKind.remap_eq_statement_iff] at hkind
    rw [h.succs_eq n hother]
    exact (length_substitute_le ..).trans (hregular.straight n hlive hkind)
  · exact (hmirrors hlive).exact hregular (hisLive.1 hlive).2 hchoices t
  · rw [h.entry_eq]
    exact hshortens.proceeds_iff hregular.entry events

/-- A node that takes over its only successor has the successors of that one. -/
theorem Joins.succs_join
    (h : Joins g g' id succ)
    (hwired : g.Wired)
    (hsuccs : g.succs id = [succ])
    (hapart : succ ≠ id) :
    g'.succs id = g.succs succ := by
  have hcleared : erase [succ] succ = [] := by simp [erase]
  rw [h.succs_eq id hapart.symm, if_pos rfl, hsuccs, hcleared,
    insertAll_of_disjoint (hwired.nodup_succs succ) fun _ _ => List.not_mem_nil, List.nil_append]

/-- A node takes over the code of its successor. -/
theorem Joins.carries_iff
    (h : Joins g g' id succ)
    (hlive : g.isLive id = true)
    (hliveSucc : g.isLive succ = true)
    (hapart : succ ≠ id)
    (hlocated : g.Located) :
    g'.Located ∧ ∀ x, g'.Carries x ↔ g.Carries x := by
  have hisLive {n : NodeId} : g'.isLive n = true ↔ n ≠ succ ∧ g.isLive n = true := by
    simp [h.isLive_eq]
  refine ⟨fun n hlive => ?_, fun x => ?_⟩
  · obtain ⟨hother, hlive⟩ := hisLive.1 hlive
    by_cases here : n = id
    · rw [here, h.locs_eq, h.ins_eq, List.length_append, List.length_append,
        hlocated id (here ▸ hlive), hlocated succ hliveSucc]
    · have hrenews := h.renews n here hother hlive
      rw [hrenews.locs_eq, hrenews.ins_eq]
      exact hlocated n hlive
  · have hcode : g'.code id = g.code id ++ g.code succ := by
      unfold FlowGraph.code
      rw [h.ins_eq, h.locs_eq]
      exact List.zip_append (hlocated id hlive).symm
    have hkept {n : NodeId} (hlive : g.isLive n = true) (hother : n ≠ id) (hother' : n ≠ succ) :
        g'.code n = g.code n := by
      have hrenews := h.renews n hother hother' hlive
      unfold FlowGraph.code
      rw [hrenews.ins_eq, hrenews.locs_eq]
    constructor
    · rintro ⟨n, hlive', hmem⟩
      obtain ⟨hother, hlive'⟩ := hisLive.1 hlive'
      by_cases here : n = id
      · rw [here, hcode, List.mem_append] at hmem
        exact hmem.elim (fun hmem => ⟨id, hlive, hmem⟩) fun hmem => ⟨succ, hliveSucc, hmem⟩
      · exact ⟨n, hlive', hkept hlive' here hother ▸ hmem⟩
    · rintro ⟨n, hlive', hmem⟩
      have hstays := hisLive.2 ⟨hapart.symm, hlive⟩
      by_cases here : n = id
      · exact ⟨id, hstays, hcode ▸ List.mem_append_left _ (here ▸ hmem)⟩
      · by_cases hthere : n = succ
        · exact ⟨id, hstays, hcode ▸ List.mem_append_right _ (hthere ▸ hmem)⟩
        · exact ⟨n, hisLive.2 ⟨hthere, hlive'⟩, hkept hlive' here hthere ▸ hmem⟩

theorem Joins.sameRuns
    (h : Joins g g' id succ)
    (hregular : g.Regular)
    (hlive : g.isLive id = true)
    (hkind : (g.node id).kind = .statement)
    {rest : List NodeId}
    (hsuccs : g.succs id = succ :: rest)
    (hkind' : (g.node succ).kind = .statement)
    (hpreds : g.preds succ = [id])
    (hapart : succ ≠ id)
    (hinner : succ ≠ g.entry) :
    SameRuns g g' := by
  have hedge : succ ∈ g.succs id := hsuccs ▸ List.mem_cons_self
  have hliveSucc := (hregular.wired.live id succ (.inl hedge)).2
  have hjoined := h.succs_join hregular.wired (hregular.succs_eq hlive hkind hsuccs) hapart
  have hisLive {n : NodeId} : g'.isLive n = true ↔ n ≠ succ ∧ g.isLive n = true := by
    simp [h.isLive_eq]
  have honlyPred {n : NodeId} (hmem : succ ∈ g.succs n) : n = id :=
    List.mem_singleton.1 (hpreds ▸ hregular.wired.mem_preds.2 hmem)
  -- Nothing but `id` refers to `succ`, so all references stay.
  have hsame {n : NodeId} (hother : n ≠ id) (t' : NodeId) :
      t' ∈ g.succs n ↔ ∃ t ∈ g.succs n, replacing succ id t = t' := by
    have hstays {t : NodeId} (hmem : t ∈ g.succs n) : replacing succ id t = t :=
      replacing_of_ne fun here => hother (honlyPred (here ▸ hmem))
    exact ⟨fun hmem => ⟨t', hmem, hstays hmem⟩, fun ⟨t, hmem, hmoved⟩ =>
      (hstays hmem).symm.trans hmoved ▸ hmem⟩
  have hmirrorsSucc : Mirrors g g' succ id (replacing succ id) :=
    ⟨by rw [h.kind_eq, hkind, hkind'], fun t' => by rw [hjoined]; exact hsame hapart t'⟩
  have hmirrors {n : NodeId} (hlive : g.isLive n = true) (hother : n ≠ id) (hother' : n ≠ succ) :
      Mirrors g g' n n (replacing succ id) :=
    ⟨(h.renews n hother hother' hlive).kind_eq, fun t' => by
      rw [h.succs_eq n hother', if_neg hother]
      exact hsame hother t'⟩
  have hfuses : Fuses g g' id succ id (replacing succ id) :=
    { apart := hapart.symm
      code := h.ins_eq
      leads := hregular.leads_iff hlive hkind hsuccs
      goes := fun outcome t' => hmirrorsSucc.goes_iff hregular hliveSucc
      renamed := replacing_of_ne hapart.symm
      inner := fun n outcome t hother hgoes here => hother (honlyPred (here ▸ hgoes.edge))
      others := fun n hlive hother hother' => by
        rw [replacing_of_ne hother']
        exact ⟨(h.renews n hother hother' hlive).ins_eq, fun outcome t' =>
          (hmirrors hlive hother hother').goes_iff hregular hlive⟩
      live := fun n outcome t hgoes => (hregular.isLive_next hgoes).2 }
  refine ⟨⟨h.wired, ?_, fun n hlive hkind => ?_, fun n hlive targets hchoices t => ?_⟩,
    fun events => ?_, h.carries_iff hlive hliveSucc hapart⟩
  · rw [h.entry_eq, hisLive]
    exact ⟨hinner.symm, hregular.entry⟩
  · obtain ⟨hother, hlive⟩ := hisLive.1 hlive
    by_cases here : n = id
    · rw [here, hjoined]
      exact hregular.straight succ hliveSucc hkind'
    · rw [(h.renews n here hother hlive).kind_eq, NodeKind.remap_eq_statement_iff] at hkind
      rw [h.succs_eq n hother, if_neg here]
      exact hregular.straight n hlive hkind
  · obtain ⟨hother, hlive⟩ := hisLive.1 hlive
    by_cases here : n = id
    · subst here
      exact hmirrorsSucc.exact hregular hliveSucc hchoices t
    · exact (hmirrors hlive here hother).exact hregular hlive hchoices t
  · have hpaths := hfuses.proceeds_iff hregular.entry hinner.symm events
    rw [replacing_of_ne hinner.symm] at hpaths
    rw [h.entry_eq]
    exact hpaths

theorem Compacts.sameRuns
    (h : Compacts g id g')
    (hregular : g.Regular) :
    SameRuns g g' := by
  cases h with
  | bypass hlive hkind hsuccs hempty hapart hbypasses =>
      exact hbypasses.sameRuns hregular hlive hkind hsuccs hempty hapart
  | join hlive hkind hsuccs _ hkind' hpreds hapart hinner _ hjoins =>
      exact hjoins.sameRuns hregular hlive hkind hsuccs hkind' hpreds hapart hinner

/-- The code of a branch node is divided between its two halves. -/
theorem Splits.carries_iff
    (h : Splits g g' id)
    (hlive : g.isLive id = true)
    (hlocated : g.Located) :
    g'.Located ∧ ∀ x, g'.Carries x ↔ g.Carries x := by
  have hisLive {n : NodeId} :
      g'.isLive n = true ↔ n = g.size ∨ n = g.size + 1 ∨ n ≠ id ∧ g.isLive n = true := by
    simp [h.isLive_eq, or_assoc]
  refine ⟨fun n hlive' => ?_, fun x => ?_⟩
  · rcases hisLive.1 hlive' with rfl | rfl | ⟨hnew, hlive'⟩
    · rw [h.pre_locs, h.pre_ins, List.length_take, List.length_take, hlocated id hlive]
    · rw [h.cond_locs, h.cond_ins, List.length_drop, List.length_drop, hlocated id hlive]
    · have hrenews := h.renews n hnew hlive'
      rw [hrenews.locs_eq, hrenews.ins_eq]
      exact hlocated n hlive'
  · have halves : g'.code g.size ++ g'.code (g.size + 1) = g.code id := by
      unfold FlowGraph.code
      rw [h.pre_ins, h.pre_locs, h.cond_ins, h.cond_locs, ← List.zip_append, List.take_append_drop,
        List.take_append_drop]
      rw [List.length_take, List.length_take, hlocated id hlive]
    have hkept {n : NodeId} (hlive : g.isLive n = true) (hother : n ≠ id) : g'.code n =
      g.code n := by
      have hrenews := h.renews n hother hlive
      unfold FlowGraph.code
      rw [hrenews.ins_eq, hrenews.locs_eq]
    constructor
    · rintro ⟨n, hlive', hmem⟩
      rcases hisLive.1 hlive' with rfl | rfl | ⟨hnew, hlive'⟩
      · exact ⟨id, hlive, halves ▸ List.mem_append_left _ hmem⟩
      · exact ⟨id, hlive, halves ▸ List.mem_append_right _ hmem⟩
      · exact ⟨n, hlive', hkept hlive' hnew ▸ hmem⟩
    · rintro ⟨n, hlive', hmem⟩
      by_cases here : n = id
      · rw [here, ← halves, List.mem_append] at hmem
        exact hmem.elim (fun hmem => ⟨_, hisLive.2 (.inl rfl), hmem⟩)
          fun hmem => ⟨_, hisLive.2 (.inr (.inl rfl)), hmem⟩
      · exact ⟨n, hisLive.2 (.inr (.inr ⟨here, hlive'⟩)), hkept hlive' here ▸ hmem⟩

/-- The second half of a branch node selects what the node selected, up to the renaming of the node
to its first half; undoing the renaming gives the same nodes again. -/
theorem Splits.sameRuns
    (h : Splits g g' id)
    (hregular : g.Regular)
    (hlive : g.isLive id = true)
    (hbranches : (g.node id).kind ≠ .statement) :
    SameRuns g g' := by
  have hfresh {n : NodeId} (hlive : g.isLive n = true) : n ≠ g.size ∧ n ≠ g.size + 1 :=
    have hknown := lt_size_of_isLive hlive
    ⟨Nat.ne_of_lt hknown, Nat.ne_of_lt (Nat.lt_succ_of_lt hknown)⟩
  have hisLive {n : NodeId} :
      g'.isLive n = true ↔ n = g.size ∨ n = g.size + 1 ∨ n ≠ id ∧ g.isLive n = true := by
    simp [h.isLive_eq, or_assoc]
  have hback {n : NodeId} (hlive : g.isLive n = true) :
      replacing g.size id (replacing id g.size n) = n := by
    unfold replacing
    have := (hfresh hlive).1
    grind
  have hmirrorsCond : Mirrors g g' id (g.size + 1) (replacing id g.size) :=
    ⟨h.cond_kind, fun t' => by rw [h.cond_succs, List.mem_map]⟩
  have hmirrors {n : NodeId} (hlive : g.isLive n = true) (hother : n ≠ id) :
      Mirrors g g' n n (replacing id g.size) :=
    ⟨(h.renews n hother hlive).kind_eq, fun t' => by rw [h.succs_eq n hother hlive, List.mem_map]⟩
  -- The steps of the split graph, read back.
  have hundo {n n' : NodeId} (hlive : g.isLive n = true)
      (hmirrors : Mirrors g g' n n' (replacing id g.size)) (outcome : Option BranchOutcome)
        (t' : NodeId) :
      g.Goes n outcome t' ↔ ∃ t, g'.Goes n' outcome t ∧ replacing g.size id t = t' := by
    constructor
    · intro hgoes
      exact ⟨_, (hmirrors.goes_iff hregular hlive).2 ⟨t', hgoes, rfl⟩,
        hback (hregular.isLive_next hgoes).2⟩
    · rintro ⟨t, hgoes, rfl⟩
      obtain ⟨t, hsource, rfl⟩ := (hmirrors.goes_iff hregular hlive).1 hgoes
      rwa [hback (hregular.isLive_next hsource).2]
  have hleads (outcome : Option BranchOutcome) (t : NodeId) :
      g'.Goes g.size outcome t ↔ outcome = none ∧ t = g.size + 1 := by
    rw [goes_statement_iff h.pre_kind, h.pre_succs, List.mem_singleton]
  have havoids {n n' t : NodeId} {outcome : Option BranchOutcome} (hlive : g.isLive n = true)
      (hmirrors : Mirrors g g' n n' (replacing id g.size)) (hgoes : g'.Goes n' outcome t) :
      t ≠ g.size + 1 := by
    obtain ⟨t, hsource, rfl⟩ := (hmirrors.goes_iff hregular hlive).1 hgoes
    unfold replacing
    split
    · exact (Nat.succ_ne_self _).symm
    · exact (hfresh (hregular.isLive_next hsource).2).2
  have hfuses : Fuses g' g g.size (g.size + 1) id (replacing g.size id) :=
    { apart := (Nat.succ_ne_self _).symm
      code := by rw [h.pre_ins, h.cond_ins, List.take_append_drop]
      leads := hleads
      goes := hundo hlive hmirrorsCond
      renamed := replacing_self
      inner := fun n outcome t hother hgoes => by
        rcases hisLive.1 (h.wired.live n t (.inl hgoes.edge)).1 with rfl | rfl | ⟨hnew, hlive⟩
        · exact absurd rfl hother
        · exact havoids hlive hmirrorsCond hgoes
        · exact havoids hlive (hmirrors hlive hnew) hgoes
      others := fun n hlive hother hother' => by
        rcases hisLive.1 hlive with here | here | ⟨hnew, hlive⟩
        · exact absurd here hother
        · exact absurd here hother'
        · rw [replacing_of_ne hother]
          exact ⟨(h.renews n hnew hlive).ins_eq.symm, hundo hlive (hmirrors hlive hnew)⟩
      live := fun n outcome t hgoes => (h.wired.live n t (.inl hgoes.edge)).2 }
  refine ⟨⟨h.wired, ?_, fun n hlive' hkind => ?_, fun n hlive' targets hchoices t => ?_⟩,
    fun events => ?_, h.carries_iff hlive⟩
  · rw [h.entry_eq, hisLive]
    unfold replacing
    split
    · exact .inl rfl
    · next hother => exact .inr (.inr ⟨hother, hregular.entry⟩)
  · rcases hisLive.1 hlive' with rfl | rfl | ⟨hnew, hlive'⟩
    · rw [h.pre_succs]
      exact le_refl _
    · rw [h.cond_kind, NodeKind.remap_eq_statement_iff] at hkind
      exact absurd hkind hbranches
    · rw [(h.renews n hnew hlive').kind_eq, NodeKind.remap_eq_statement_iff] at hkind
      rw [h.succs_eq n hnew hlive', List.length_map]
      exact hregular.straight n hlive' hkind
  · rcases hisLive.1 hlive' with rfl | rfl | ⟨hnew, hlive'⟩
    · rw [h.pre_kind] at hchoices
      cases hchoices
    · exact hmirrorsCond.exact hregular hlive hchoices t
    · exact (hmirrors hlive' hnew).exact hregular hlive' hchoices t
  · have hthere : g'.isLive g'.entry = true ∧ g'.entry ≠ g.size + 1 := by
      rw [h.entry_eq, hisLive]
      unfold replacing
      split
      · exact ⟨.inl rfl, (Nat.succ_ne_self _).symm⟩
      · next hother => exact ⟨.inr (.inr ⟨hother, hregular.entry⟩), (hfresh hregular.entry).2⟩
    have hpaths := hfuses.proceeds_iff hthere.1 hthere.2 events
    have hentry : replacing g.size id g'.entry = g.entry := by rw [h.entry_eq, hback hregular.entry]
    rw [hentry] at hpaths
    exact hpaths.symm

end Edits

section Splitting

variable {g g' : FlowGraph} {id c : NodeId} {split : List NodeId}

/-- A branch node that computes something first. -/
def Splittable (n : Node) : Prop :=
  (∃ b, n.kind = .conditional b) ∧ 1 < n.ins.length

theorem mem_splitCandidates_iff :
    c ∈ g.splitCandidates ↔ g.isLive c = true ∧ Splittable (g.node c) := by
  unfold splitCandidates Splittable
  rw [List.mem_filter, mem_liveIds_iff]
  refine and_congr_right fun _ => ?_
  cases (g.node c).kind <;> simp

theorem splittable_iff_of_renews
    {n n' : Node}
    {f : NodeId → NodeId}
    (h : n.Renews f n') :
    Splittable n' ↔ Splittable n := by
  unfold Splittable
  rw [h.ins_eq, h.kind_eq]
  cases n.kind <;> simp [NodeKind.remap]

/-- A node that has been split is no candidate any more, and neither is any of its halves. -/
theorem Splits.mem_splitCandidates_iff
    (h : Splits g g' id)
    (hmem : id ∈ g.splitCandidates) :
    c ∈ g'.splitCandidates ↔ c ∈ g.splitCandidates ∧ c ≠ id := by
  rw [FlowGraph.mem_splitCandidates_iff, FlowGraph.mem_splitCandidates_iff]
  have hknown {n : NodeId} (hlive : g.isLive n = true) := lt_size_of_isLive hlive
  have hsingle : ((g.node id).ins.drop ((g.node id).ins.length - 1)).length = 1 := by
    have hfilled := (FlowGraph.mem_splitCandidates_iff.1 hmem).2.2
    rw [List.length_drop]
    omega
  have hisLive : g'.isLive c = true ↔ c = g.size ∨ c = g.size + 1 ∨ c ≠ id ∧ g.isLive c = true := by
    simp [h.isLive_eq, or_assoc]
  constructor
  · rintro ⟨hlive, ⟨b, hkind⟩, hfilled⟩
    rcases hisLive.1 hlive with rfl | rfl | ⟨hnew, hlive⟩
    · rw [h.pre_kind] at hkind
      cases hkind
    · rw [h.cond_ins, hsingle] at hfilled
      exact absurd hfilled (lt_irrefl _)
    · exact ⟨⟨hlive, (splittable_iff_of_renews (h.renews c hnew hlive)).1 ⟨⟨b, hkind⟩, hfilled⟩⟩,
        hnew⟩
  · rintro ⟨⟨hlive, hsplittable⟩, hnew⟩
    exact ⟨hisLive.2 (.inr (.inr ⟨hnew, hlive⟩)),
      (splittable_iff_of_renews (h.renews c hnew hlive)).2 hsplittable⟩

theorem Regular.foldl_splitBranch
    (h : g.Regular)
    (hnodup : split.Nodup)
    (hcandidates : ∀ c ∈ split, c ∈ g.splitCandidates) :
    SameRuns g (split.foldl splitBranch g) ∧
      ∀ c, c ∈ (split.foldl splitBranch g).splitCandidates ↔ c ∈ g.splitCandidates ∧ c ∉ split := by
  induction split generalizing g with
  | nil => exact ⟨.refl h, fun c => by simp⟩
  | cons c split ih =>
      obtain ⟨hapart, hnodup⟩ := List.nodup_cons.1 hnodup
      have hmem := hcandidates c List.mem_cons_self
      have hlive := (FlowGraph.mem_splitCandidates_iff.1 hmem).1
      obtain ⟨b, hkind⟩ := (FlowGraph.mem_splitCandidates_iff.1 hmem).2.1
      have hsplits := splits_splitBranch h.wired hlive
      have hfirst := hsplits.sameRuns h hlive (by rw [hkind]; exact NodeKind.noConfusion)
      have hleft (n : NodeId) (hmem' : n ∈ split) : n ∈ (g.splitBranch c).splitCandidates :=
        (hsplits.mem_splitCandidates_iff hmem).2
          ⟨hcandidates n (List.mem_cons_of_mem c hmem'), fun hsame => hapart (hsame ▸ hmem')⟩
      obtain ⟨hrest, hnone⟩ := ih hfirst.regular hnodup hleft
      rw [List.foldl_cons]
      refine ⟨hfirst.trans hrest, fun n => ?_⟩
      rw [hnone, hsplits.mem_splitCandidates_iff hmem, List.mem_cons, not_or, and_assoc]

theorem SameRuns.reindex
    (h : SameRuns g g') :
    SameRuns g g'.reindex where
  regular :=
    { wired := h.regular.wired.reindex
      entry := h.regular.entry
      straight := h.regular.straight
      exact := h.regular.exact }
  proceeds_iff events :=
    Iff.trans (b := g'.Proceeds g'.entry events)
      ⟨fun hproceeds => hproceeds.congr rfl rfl, fun hproceeds => hproceeds.congr rfl rfl⟩
      (h.proceeds_iff events)
  carries_iff := h.carries_iff

/-- Splitting all branch nodes keeps what the graph does, and there is nothing left to split. -/
theorem Regular.splitBranches
    (h : g.Regular) :
    SameRuns g g.splitBranches.2 ∧ g.splitBranches.2.splitCandidates = [] := by
  have hnodup : g.splitCandidates.Nodup := (List.nodup_range.filter _).filter _
  obtain ⟨hsame, hleft⟩ := h.foldl_splitBranch hnodup fun c hmem => hmem
  have hnone : (g.splitCandidates.foldl splitBranch g).splitCandidates = [] :=
    List.eq_nil_iff_forall_not_mem.2 fun c hmem => ((hleft c).1 hmem).2 ((hleft c).1 hmem).1
  unfold FlowGraph.splitBranches
  simp only
  split
  · next hempty =>
      rw [List.isEmpty_iff] at hempty
      exact ⟨.refl h, hempty⟩
  · exact ⟨hsame.reindex, hnone⟩

end Splitting

section Rounds

variable {g g' : FlowGraph} {id : NodeId}

/-- Nothing is left to simplify. -/
def Settled (g : FlowGraph) : Prop :=
  ∀ id ∈ g.liveIds, compactNode (g, false) id = (g, false)

/-- A change of the simplification takes a node out of the graph. -/
theorem Compacts.liveIds_lt
    (h : Compacts g id g')
    (hwired : g.Wired) :
    g'.liveIds.length < g.liveIds.length := by
  have hremoved {gone : NodeId} (hlive : g.isLive gone = true) (hsize : g'.size = g.size)
      (hisLive : ∀ n, g'.isLive n = (n != gone && g.isLive n)) :
      g'.liveIds.length < g.liveIds.length := by
    have hleft : g'.liveIds = g.liveIds.filter (· != gone) := by
      unfold liveIds
      rw [hsize, List.filter_filter]
      exact List.filter_congr fun n _ => hisLive n
    rw [hleft, List.length_filter_lt_length_iff_exists]
    exact ⟨gone, mem_liveIds_iff.2 hlive, by simp⟩
  cases h with
  | bypass hlive _ _ _ _ hbypasses => exact hremoved hlive hbypasses.size_eq hbypasses.isLive_eq
  | join _ _ hsuccs _ _ _ _ _ _ hjoins =>
      exact hremoved (hwired.live id _ (.inl (hsuccs ▸ List.mem_cons_self))).2 hjoins.size_eq
        hjoins.isLive_eq

theorem Compacts.wired
    (h : Compacts g id g') :
    g'.Wired := by
  cases h with
  | bypass _ _ _ _ _ hbypasses => exact hbypasses.wired
  | join _ _ _ _ _ _ _ _ _ hjoins => exact hjoins.wired

theorem foldl_compactNode_cases
    (hwired : g.Wired)
    (changed : Bool)
    (ids : List NodeId) :
    (∀ id ∈ ids, compactNode (g, changed) id = (g, changed)) ∧
        ids.foldl compactNode (g, changed) = (g, changed) ∨
      ∃ g', ids.foldl compactNode (g, changed) = (g', true) ∧ g'.Wired ∧
        g'.liveIds.length < g.liveIds.length := by
  induction ids generalizing g changed with
  | nil => exact .inl ⟨fun _ hmem => absurd hmem List.not_mem_nil, rfl⟩
  | cons id ids ih =>
      rw [List.foldl_cons]
      obtain hsame | ⟨g₁, hresult, hcompacts⟩ := compactNode_cases hwired changed id
      · rw [hsame]
        obtain ⟨hall, hrest⟩ | hsmaller := ih hwired changed
        · exact .inl ⟨List.forall_mem_cons.2 ⟨hsame, hall⟩, hrest⟩
        · exact .inr hsmaller
      · rw [hresult]
        have hless := hcompacts.liveIds_lt hwired
        obtain ⟨-, hrest⟩ | ⟨g', hrest, hwired', hless'⟩ := ih hcompacts.wired true
        · exact .inr ⟨g₁, hrest, hcompacts.wired, hless⟩
        · exact .inr ⟨g', hrest, hwired', hless'.trans hless⟩

theorem Settled.foldl
    (h : g.Settled) :
    g.liveIds.foldl compactNode (g, false) = (g, false) := by
  have hall (ids : List NodeId) (hknown : ids ⊆ g.liveIds) :
      ids.foldl compactNode (g, false) = (g, false) := by
    induction ids with
    | nil => rfl
    | cons id ids ih =>
        obtain ⟨hmem, hrest⟩ := List.cons_subset.1 hknown
        rw [List.foldl_cons, h id hmem, ih hrest]
  exact hall _ (List.Subset.refl _)

/-- With a round for each node and one more, nothing is left to simplify, and further rounds do not
matter. -/
theorem compactRounds_settled
    (hwired : g.Wired)
    (changed : Bool)
    {rounds : Nat}
    (henough : g.liveIds.length < rounds) :
    (compactRounds rounds (g, changed)).1.Wired ∧
      (compactRounds rounds (g, changed)).1.Settled ∧
      ∀ more, g.liveIds.length < more →
        compactRounds more (g, changed) = compactRounds rounds (g, changed) := by
  induction rounds generalizing g changed with
  | zero => exact absurd henough (Nat.not_lt_zero _)
  | succ rounds ih =>
      obtain ⟨hall, hsame⟩ | ⟨g', hnext, hwired', hless⟩ :=
        foldl_compactNode_cases hwired false g.liveIds
      · have hresult (n : Nat) : compactRounds (n + 1) (g, changed) = (g, changed) := by
          unfold compactRounds
          rw [hsame]
          rfl
        rw [hresult]
        refine ⟨hwired, hall, fun more henough => ?_⟩
        obtain ⟨more, rfl⟩ :=
          Nat.exists_eq_succ_of_ne_zero (Nat.ne_of_gt (Nat.zero_lt_of_lt henough))
        exact hresult more
      · have hresult (n : Nat) :
            compactRounds (n + 1) (g, changed) = compactRounds n (g', true) := by
          rw [compactRounds]
          simp only [hnext]
          rfl
        have hfewer {n : Nat} (henough : g.liveIds.length < n + 1) : g'.liveIds.length < n :=
          Nat.lt_of_lt_of_le hless (Nat.le_of_lt_succ henough)
        obtain ⟨hwired'', hsettled, hstays⟩ := ih hwired' true (hfewer henough)
        rw [hresult]
        refine ⟨hwired'', hsettled, fun more henough => ?_⟩
        obtain ⟨more, rfl⟩ :=
          Nat.exists_eq_succ_of_ne_zero (Nat.ne_of_gt (Nat.zero_lt_of_lt henough))
        exact (hresult more).trans (hstays more (hfewer henough))

theorem snd_compactNode_reindex
    (g : FlowGraph)
    (changed : Bool)
    (id : NodeId) :
    (compactNode (g.reindex, changed) id).2 = (compactNode (g, changed) id).2 := by
  have hlive : g.reindex.isLive id = g.isLive id := rfl
  have hnode : g.reindex.node = g.node := rfl
  have hsuccs : g.reindex.succs id = g.succs id := rfl
  have hbypassable (succ : NodeId) : g.reindex.isBypassable id succ = g.isBypassable id succ := rfl
  have hjoinable (succ : NodeId) : g.reindex.isJoinable id succ = g.isJoinable id succ := rfl
  unfold compactNode
  simp only [hlive, hnode, hsuccs]
  split
  · split
    · rfl
    · simp only [hbypassable, hjoinable]
      split
      · rfl
      · split <;> rfl
  · rfl

theorem Settled.reindex
    (h : g.Settled)
    (hwired : g.Wired) :
    g.reindex.Settled := by
  intro id hmem
  obtain hsame | ⟨g', hresult, -⟩ := compactNode_cases hwired.reindex false id
  · exact hsame
  · have hchanged := snd_compactNode_reindex g false id
    rw [hresult, h id hmem] at hchanged
    cases hchanged

/-- A settled graph is not simplified. -/
theorem Settled.compact_eq
    (h : g.Settled) :
    g.compact = (false, g) := by
  have hrounds : compactRounds (g.size + 1) (g, false) = (g, false) := by
    rw [compactRounds, h.foldl]
    rfl
  unfold FlowGraph.compact
  rw [hrounds]
  rfl

/-- Simplification makes no new branch nodes that compute something. -/
theorem Compacts.splitCandidates_subset
    (h : Compacts g id g')
    {c : NodeId}
    (hmem : c ∈ g'.splitCandidates) :
    c ∈ g.splitCandidates := by
  rw [mem_splitCandidates_iff] at hmem ⊢
  obtain ⟨hlive, hsplittable⟩ := hmem
  cases h with
  | bypass _ _ _ _ _ hbypasses =>
      obtain ⟨-, hlive⟩ : c ≠ id ∧ g.isLive c = true := by simpa [hbypasses.isLive_eq] using hlive
      exact ⟨hlive, (splittable_iff_of_renews (hbypasses.renews c hlive)).1 hsplittable⟩
  | @join succ _ _ hkind _ _ _ _ _ _ _ hjoins =>
      obtain ⟨hother, hlive⟩ : c ≠ succ ∧ g.isLive c = true := by
        simpa [hjoins.isLive_eq] using hlive
      by_cases here : c = id
      · obtain ⟨⟨b, hbranch⟩, -⟩ := hsplittable
        rw [here, hjoins.kind_eq, hkind] at hbranch
        cases hbranch
      · exact ⟨hlive, (splittable_iff_of_renews (hjoins.renews c here hother hlive)).1 hsplittable⟩

theorem splitBranches_of_unsplit
    (h : g.splitCandidates = []) :
    g.splitBranches = (0, g) := by
  unfold FlowGraph.splitBranches
  rw [h]
  rfl

/-- Simplification keeps what the graph does. -/
theorem Regular.compact
    (h : g.Regular)
    (hunsplit : g.splitCandidates = []) :
    SameRuns g g.compact.2 ∧ g.compact.2.splitCandidates = [] := by
  refine compact_induction (P := fun g' => SameRuns g g' ∧ g'.splitCandidates = [])
    (fun _ hsame => hsame.1.regular.wired) (fun g₁ id g₂ hsame hcompacts => ?_)
    (fun _ hsame => ⟨hsame.1.reindex, hsame.2⟩) ⟨.refl h, hunsplit⟩
  obtain ⟨hsame, hnone⟩ := hsame
  refine ⟨hsame.trans (hcompacts.sameRuns hsame.regular), ?_⟩
  refine List.eq_nil_iff_forall_not_mem.2 fun c hmem => ?_
  exact List.not_mem_nil (hnone ▸ hcompacts.splitCandidates_subset hmem)

theorem length_liveIds_lt
    (g : FlowGraph) :
    g.liveIds.length < g.size + 1 := by
  have hmost := List.length_filter_le g.isLive (List.range g.size)
  rw [List.length_range] at hmost
  exact Nat.lt_succ_of_le hmost

theorem Wired.settled_compact
    (h : g.Wired) :
    g.compact.2.Settled := by
  obtain ⟨hwired, hsettled, -⟩ := compactRounds_settled h false g.length_liveIds_lt
  unfold FlowGraph.compact
  simp only
  split
  · exact hsettled.reindex hwired
  · exact hsettled

/-- **Cleaning up keeps what a graph does.**  The same may happen from the entry on, and if each
node holds as many places as instructions, the same instructions are held at the same places.
Simplification comes to an end: more rounds do not change the result.  Cleaning up once more changes
nothing. -/
theorem cleanup_keeps_paths
    (h : g.Regular) :
    (∀ events, g.splitBranches.2.compact.2.Proceeds g.splitBranches.2.compact.2.entry events ↔
        g.Proceeds g.entry events) ∧
      (g.Located → ∀ x, g.splitBranches.2.compact.2.Carries x ↔ g.Carries x) ∧
      (∀ more, g.splitBranches.2.size < more →
        compactRounds more (g.splitBranches.2, false) =
          compactRounds (g.splitBranches.2.size + 1) (g.splitBranches.2, false)) ∧
      g.splitBranches.2.compact.2.splitBranches = (0, g.splitBranches.2.compact.2) ∧
      g.splitBranches.2.compact.2.compact = (false, g.splitBranches.2.compact.2) := by
  obtain ⟨hfirst, hunsplit⟩ := h.splitBranches
  obtain ⟨hsecond, hunsplit'⟩ := hfirst.regular.compact hunsplit
  have hsame := hfirst.trans hsecond
  have hsettled := hfirst.regular.wired.settled_compact
  have hrounds := compactRounds_settled hfirst.regular.wired false (length_liveIds_lt _)
  refine ⟨hsame.proceeds_iff, fun hlocated => (hsame.carries_iff hlocated).2,
    fun more henough => ?_, ?_,
    hsettled.compact_eq⟩
  · exact hrounds.2.2 more (Nat.lt_of_le_of_lt (Nat.le_of_lt_succ (length_liveIds_lt _)) henough)
  · exact splitBranches_of_unsplit hunsplit'

/-- A loop that computes something before it branches back, an empty node, and two more. -/
def branchingBack : FlowGraph :=
  { FlowGraph.empty with
    slots := #[
      placedSlot (.conditional ⟨0, 1⟩)
        [(.monitorEnter (.var 0), 0), (.ifCompareZero .eq (.var 0), 1)] [0, 1] [0],
      placedSlot .statement [] [2] [0],
      placedSlot .statement [(.monitorExit (.var 0), 2)] [3] [1],
      placedSlot .ret [(.ret none, 3)] [] [2]] }

/-- The places of the first node are missing. -/
def missingPlace : FlowGraph :=
  { FlowGraph.empty with
    slots := #[
      { placedSlot .statement [] [1] [] with
        node := { Node.plain "" .statement with ins := [.nop] } },
      placedSlot .statement [(.moveException 0, 0)] [] [0]] }

theorem cleanup_keeps_paths_branchingBack :
    branchingBack.Regular ∧ branchingBack.Located ∧
      (∀ events, branchingBack.splitBranches.2.compact.2.Proceeds
          branchingBack.splitBranches.2.compact.2.entry events ↔
        branchingBack.Proceeds branchingBack.entry events) ∧
      ∀ x, branchingBack.splitBranches.2.compact.2.Carries x ↔ branchingBack.Carries x :=
  have hregular : branchingBack.Regular := by decide +kernel
  have hlocated : branchingBack.Located := by decide +kernel
  have hkept := cleanup_keeps_paths hregular
  ⟨hregular, hlocated, hkept.1, hkept.2.1 hlocated⟩

/-- The place of the second instruction goes to the first one. -/
theorem missingPlace_moves :
    missingPlace.Regular ∧ missingPlace.Carries (.moveException 0, 0) ∧
      ¬ missingPlace.splitBranches.2.compact.2.Carries (.moveException 0, 0) := by
  refine ⟨by decide +kernel, ⟨1, rfl, List.mem_singleton_self _⟩, ?_⟩
  rintro ⟨n, hlive, hmem⟩
  have hplain : ∀ n ∈ missingPlace.splitBranches.2.compact.2.liveIds,
      ∀ x ∈ missingPlace.splitBranches.2.compact.2.code n, x.1.target? = none := by
    decide +kernel
  exact Option.some_ne_none 0 (hplain n (mem_liveIds_iff.2 hlive) _ hmem)

end Rounds

end FlowGraph
end DalvikDecompiler
