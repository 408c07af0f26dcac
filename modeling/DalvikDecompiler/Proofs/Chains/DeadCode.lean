import DalvikDecompiler.Proofs.Chains.Amending
import DalvikDecompiler.Proofs.Chains.Removal

/-!
# What the removal of dead code leaves

**Input.** A graph with the chains of its runs.

A removal is followed by the removal of what only supplied the removed
instruction.  Each of them takes an instruction away, so that the bound on how
far they follow each other is never met; and each definition whose last use is
forgotten is looked at before the removal ends.

**Results.**
* `run_tracks`: the chains are those of the graph that is left.
* `removeDead_of_lt`: the bound on chains of removals makes no difference.
* `run_justified`: every definition that is left has a use or an effect.
* `run_prunes`: calls may have lost their results, definitions without an effect
  may be gone, and nothing else has changed.
* `run_removed`: the count is the number of instructions that are gone.
-/

namespace DalvikDecompiler

open Symbolic (VarId Instr)

namespace Natural

/-- A total in which one number changes. -/
theorem total_map_modify
    {α : Type}
    (weight : α → Nat)
    (f : α → α)
    (xs : List α)
    {i : Nat}
    {x : α}
    (h : xs[i]? = some x) :
    total ((xs.modify i f).map weight) + weight x = total (xs.map weight) + weight (f x) := by
  induction xs generalizing i with
  | nil => simp at h
  | cons y xs ih =>
      cases i with
      | zero =>
          obtain rfl : y = x := by simpa using h
          simp [total]
          omega
      | succ i =>
          have h := ih (by simpa using h)
          simp [total]
          omega

end Natural

namespace FlowGraph

variable {g g' : FlowGraph} {loc : Loc} {ins : Instr}

/-- A total over the nodes when one of them changes. -/
theorem total_modifyNode
    {id : NodeId}
    (weight : Node → Nat)
    (f : Node → Node)
    (hid : id < g.size) :
    Natural.total ((g.modifyNode id f).slots.toList.map fun slot => weight slot.node) +
        weight (g.node id) =
      Natural.total (g.slots.toList.map fun slot => weight slot.node) + weight (f (g.node id)) := by
  have hslot : g.slots[id]? = some g.slots[id] := Array.getElem?_eq_getElem hid
  have htotal := Natural.total_map_modify (fun slot : Slot => weight slot.node)
    (fun slot => { slot with node := f slot.node }) g.slots.toList
    (show g.slots.toList[id]? = some g.slots[id] by simpa using hslot)
  have hnode : g.node id = (g.slots[id]).node := by simp [node, hslot]
  rw [hnode]
  simpa [modifyNode, modifySlot, Array.toList_modify] using htotal

/-- The number of instructions when the code of a node changes. -/
theorem instrCount_modifyNode
    {id : NodeId}
    (f : Node → Node)
    (hid : id < g.size) :
    (g.modifyNode id f).instrCount + (g.node id).ins.length =
      g.instrCount + (f (g.node id)).ins.length :=
  total_modifyNode (fun n => n.ins.length) f hid

theorem exists_of_instrAt
    (h : g.instrAt loc = some ins) :
    ∃ id position, g.nodeAt loc = some id ∧ (g.node id).locs.idxOf? loc = some position ∧
      (g.node id).ins[position]? = some ins ∧ id < g.size := by
  obtain ⟨id, hid, h⟩ := Option.bind_eq_some_iff.mp h
  obtain ⟨position, hposition, h⟩ := Option.bind_eq_some_iff.mp h
  refine ⟨id, position, hid, hposition, h, ?_⟩
  by_contra hsize
  have hslot : g.slots[id]? = none := Array.getElem?_eq_none (Nat.le_of_not_lt hsize)
  simp [node, hslot, Node.plain] at h

/-- The instruction at a place is one of those that are counted. -/
theorem instrCount_removeInstr
    (h : g.instrAt loc = some ins) :
    (g.removeInstr loc).instrCount + 1 = g.instrCount := by
  obtain ⟨id, position, hid, hposition, hins, hsize⟩ := exists_of_instrAt h
  have hlt : position < (g.node id).ins.length := (List.getElem?_eq_some_iff.mp hins).1
  have hcount := instrCount_modifyNode (g := { g with locIndex := OrderedMap.erase loc g.locIndex })
    (fun n => { n with ins := n.ins.eraseIdx position, locs := n.locs.eraseIdx position }) hsize
  have hnode : ({ g with locIndex := OrderedMap.erase loc g.locIndex } : FlowGraph).node id =
      g.node id := rfl
  have hsame : ({ g with locIndex := OrderedMap.erase loc g.locIndex } : FlowGraph).instrCount =
      g.instrCount := rfl
  rw [hnode, hsame, List.length_eraseIdx_of_lt hlt] at hcount
  have hremoved : g.removeInstr loc =
      ({ g with locIndex := OrderedMap.erase loc g.locIndex } : FlowGraph).modifyNode id fun n =>
        { n with ins := n.ins.eraseIdx position, locs := n.locs.eraseIdx position } := by
    simp only [removeInstr, hid, hnode, hposition]
  rw [hremoved]
  omega

theorem instrCount_modifyInstr
    (g : FlowGraph)
    (loc : Loc)
    (f : Instr → Instr) :
    (g.modifyInstr loc f).instrCount = g.instrCount := by
  unfold modifyInstr
  cases hid : g.nodeAt loc with
  | none => rfl
  | some id =>
      simp only []
      cases hposition : (g.node id).locs.idxOf? loc with
      | none => rfl
      | some position =>
          by_cases hsize : id < g.size
          · have hcount := instrCount_modifyNode
              (fun n => { n with ins := n.ins.modify position f })
              hsize
            rw [List.length_modify] at hcount
            exact Nat.add_right_cancel hcount
          · have hslot : g.slots[id]? = none := Array.getElem?_eq_none (Nat.le_of_not_lt hsize)
            simp [node, hslot, Node.plain] at hposition

end FlowGraph

namespace Pruning

open FlowGraph (Holds Links Retires Rewrites)

variable {s s' : Pruning} {params : List VarId} {stale : VarId → Loc → Prop} {loc : Loc}
  {ins : Instr} {g g' : FlowGraph} {c : Chains} {depth : Nat}

section Counting

/-- As many instructions are gone as have been counted. -/
structure Counts (s s' : Pruning) : Prop where
  removed_add : s'.removed + s'.graph.instrCount = s.removed + s.graph.instrCount
  instrCount_le : s'.graph.instrCount ≤ s.graph.instrCount

theorem Counts.refl
    (s : Pruning) :
    Counts s s :=
  ⟨rfl, Nat.le_refl _⟩

theorem Counts.trans
    {s'' : Pruning}
    (h : Counts s s')
    (h' : Counts s' s'') :
    Counts s s'' :=
  ⟨h'.removed_add.trans h.removed_add, Nat.le_trans h'.instrCount_le h.instrCount_le⟩

theorem counts_removeInstr
    (h : s.graph.instrAt loc = some ins) :
    Counts s { s with graph := s.graph.removeInstr loc, removed := s.removed + 1 } := by
  have hcount := FlowGraph.instrCount_removeInstr h
  constructor
  · change s.removed + 1 + (s.graph.removeInstr loc).instrCount = _
    omega
  · change (s.graph.removeInstr loc).instrCount ≤ _
    omega

theorem counts_removeDead
    (depth : Nat)
    (s : Pruning)
    (loc : Loc) :
    Counts s (removeDead depth s loc) := by
  induction depth generalizing s loc with
  | zero => exact .refl s
  | succ depth ih =>
      rw [removeDead_succ]
      cases hins : s.graph.instrAt loc with
      | none => exact .refl s
      | some ins =>
          simp only []
          split
          · have hsame := s.graph.instrCount_modifyInstr loc Instr.dropTarget
            exact ⟨congrArg (s.removed + ·) hsame, Nat.le_of_eq hsame⟩
          · split
            · exact .refl s
            · exact forgetReads_induction (P := Counts s)
                (fun _ _ h => h.trans ⟨rfl, Nat.le_refl _⟩) (fun s' d h => h.trans (ih s' d)) _
                (counts_removeInstr hins)

theorem counts_removeUnused
    (s : Pruning)
    (loc : Loc) :
    Counts s (s.removeUnused loc) := by
  unfold removeUnused
  split
  · exact .refl s
  · split
    · exact .refl s
    · exact counts_removeDead _ s loc

/-- The count is the number of instructions that are gone. -/
theorem run_removed
    (g : FlowGraph)
    (c : Chains) :
    (run g c).removed + (run g c).graph.instrCount = g.instrCount := by
  have hcounts : Counts { graph := g, chains := c, removed := 0 } (run g c) :=
    List.foldlRecOn g.order _ (.refl _) fun s hs id _ =>
      List.foldlRecOn _ _ hs fun s hs loc _ => hs.trans (counts_removeUnused s loc)
  exact hcounts.removed_add.trans (Nat.zero_add _)

/-- With a bound above the number of instructions, removals follow each other as far as they can.
-/
theorem removeDead_of_lt
    {depth' : Nat}
    (h : s.graph.instrCount < depth)
    (h' : s.graph.instrCount < depth') :
    removeDead depth s loc = removeDead depth' s loc := by
  induction depth generalizing s loc depth' with
  | zero => exact absurd h (Nat.not_lt_zero _)
  | succ depth ih =>
      obtain ⟨depth', rfl⟩ := Nat.exists_eq_succ_of_ne_zero (Nat.ne_of_gt (Nat.zero_lt_of_lt h'))
      rw [removeDead_succ, removeDead_succ]
      cases hins : s.graph.instrAt loc with
      | none => rfl
      | some ins =>
          simp only []
          split
          · rfl
          · split
            · rfl
            · -- one instruction less is left for what follows
              have hcount := FlowGraph.instrCount_removeInstr hins
              exact forgetReads_congr
                (P := fun s' : Pruning =>
                  s'.graph.instrCount ≤ (s.graph.removeInstr loc).instrCount)
                (fun _ _ hs => hs)
                (fun s' d hs => Nat.le_trans (counts_removeDead depth s' d).instrCount_le hs)
                (fun s' d hs => ih (by omega) (by omega)) _ (Nat.le_refl _)

end Counting

section Justified

/-- What the instruction at a place defines is used, or the instruction has an effect. -/
def Justified (s : Pruning) (loc : Loc) : Prop :=
  ∀ ins v, s.graph.Holds ins loc → ins.target? = some v →
    s.chains.isUsed v loc = true ∨ ins.hasEffect = true

/-- A pruning that has become another one, in which definitions that had a use or an effect still
have one. -/
structure Progress (params : List VarId) (stale : VarId → Loc → Prop) (s s' : Pruning) : Prop
    extends Kept params (fun _ => True) stale s s' where
  counts : Counts s s'
  justified : ∀ l, Justified s l → Justified s' l

theorem UpToDate.progress
    (h : UpToDate s params stale) :
    Progress params stale s s :=
  ⟨⟨h, trivial, Shrinks.refl _⟩, .refl s, fun _ hl => hl⟩

theorem Progress.trans
    {stale' : VarId → Loc → Prop}
    {s'' : Pruning}
    (h : Progress params stale s s')
    (h' : Progress params stale' s' s'') :
    Progress params stale' s s'' :=
  ⟨h.toKept.trans h'.toKept, h.counts.trans h'.counts,
    fun l hl => h'.justified l (h.justified l hl)⟩

/-- What is left of a graph is justified as it was while the chains are the same. -/
theorem Justified.shrinks
    (h : Justified s loc)
    (hshrinks : Shrinks s.graph s'.graph)
    (hchains : s'.chains = s.chains) :
    Justified s' loc := by
  intro ins w hins hw
  obtain ⟨before, hbefore, rfl | ⟨hcall, rfl⟩⟩ := hshrinks.holds hins
  · rw [hchains]
    exact h ins w hbefore hw
  · rw [Instr.target?_dropTarget_of_isCall hcall] at hw
    cases hw

/-- A definition keeps its uses when another use of its variable, or one of another variable, is
forgotten. -/
theorem isUsed_forgetUse
    {v w : VarId}
    {l : Loc}
    (hc : c.Mutual)
    (hmem : l ∉ c.defs v loc)
    (hused : c.isUsed w l = true) :
    (c.forgetUse v loc).isUsed w l = true := by
  have hne : c.uses w l ≠ [] := by
    intro hnil
    simp [Chains.isUsed, hnil] at hused
  obtain ⟨u, hu⟩ := List.exists_mem_of_ne_nil _ hne
  have hu' : u ∈ (c.forgetUse v loc).uses w l := by
    rw [hc.forgetUse v loc w l u, Chains.mem_defs_forgetUse]
    have hl := (hc w l u).mp hu
    refine ⟨hl, ?_⟩
    rintro ⟨rfl, rfl⟩
    exact hmem hl
  simp only [Chains.isUsed, Bool.not_eq_true', List.isEmpty_eq_false_iff]
  exact List.ne_nil_of_mem hu'

/-- Definitions that are looked at have a use or an effect afterwards. -/
theorem progress_followDefs
    {remove : Pruning → Loc → Pruning}
    {v : VarId}
    {bound : Nat}
    (hremove : ∀ s loc, UpToDate s params stale → s.graph.instrCount < bound → s.Unused loc →
      Progress params stale s (remove s loc) ∧ Justified (remove s loc) loc)
    (ds : List Loc)
    (h : UpToDate s params stale)
    (hbound : s.graph.instrCount < bound)
    (htarget : ∀ d, d ∈ ds → ∀ ins, s.graph.Holds ins d →
      ins.target? = some v ∨ ins.target? = none ∧ ins.isCall = true) :
    Progress params stale s (followDefs remove v ds s) ∧
      ∀ d, d ∈ ds → Justified (followDefs remove v ds s) d := by
  induction ds generalizing s with
  | nil => exact ⟨h.progress, by simp⟩
  | cons d ds ih =>
      rw [followDefs, List.foldl_cons]
      by_cases hd : (0 ≤ d && !s.chains.isUsed v d) = true
      · rw [if_pos hd]
        have hunused := unused_of_not_isUsed (Bool.and_eq_true_iff.mp hd).2 (htarget d (by simp))
        obtain ⟨hnext, hfirst⟩ := hremove s d h hbound hunused
        obtain ⟨hrest, hall⟩ := ih hnext.upToDate
          (Nat.lt_of_le_of_lt hnext.counts.instrCount_le hbound) fun e he =>
            hnext.shrinks.targets (htarget e (by simp [he]))
        refine ⟨hnext.trans hrest, List.forall_mem_cons.mpr ⟨hrest.justified d hfirst, hall⟩⟩
      · rw [if_neg hd]
        have hfirst : Justified s d := by
          intro ins w hins hw
          have hnonneg := h.indexed.nonneg_of_holds hins
          rcases htarget d (by simp) ins hins with hv | ⟨hnone, -⟩
          · obtain rfl : v = w := Option.some.inj (hv.symm.trans hw)
            exact Or.inl (by simpa [hnonneg] using hd)
          · rw [hnone] at hw
            cases hw
        obtain ⟨hrest, hall⟩ := ih h hbound fun e he => htarget e (by simp [he])
        exact ⟨hrest, List.forall_mem_cons.mpr ⟨hrest.justified d hfirst, hall⟩⟩

/-- Every definition that loses a use when a removed instruction is forgotten is looked at. -/
theorem progress_forgetReads
    {remove : Pruning → Loc → Pruning}
    {bound : Nat}
    (hremove : ∀ s stale loc, UpToDate s params stale → s.graph.instrCount < bound →
      s.Unused loc → Progress params stale s (remove s loc) ∧ Justified (remove s loc) loc)
    (vs : List VarId)
    (h : UpToDate s params fun v u => stale v u ∨ v ∈ vs ∧ u = loc)
    (hbound : s.graph.instrCount < bound) :
    Progress params stale s (forgetReads remove loc vs s) := by
  induction vs generalizing s with
  | nil =>
      refine ⟨⟨?_, trivial, Shrinks.refl _⟩, .refl s, fun _ hl => hl⟩
      simpa [forgetReads] using h
  | cons v vs ih =>
      have hforgotten := h.forgetFirst
      obtain ⟨hdefs, hall⟩ := progress_followDefs (v := v) (fun s loc => hremove s _ loc)
        (s.chains.defs v loc) hforgotten hbound
        fun d hd ins hins => Or.inl (h.target_eq v d loc ins hd hins)
      have hnext : Progress params (fun w u => stale w u ∨ w ∈ vs ∧ u = loc) s
          (followDefs remove v (s.chains.defs v loc)
            { s with chains := s.chains.forgetUse v loc }) := by
        refine ⟨⟨hdefs.upToDate, trivial, hdefs.shrinks⟩,
          ⟨hdefs.counts.removed_add, hdefs.counts.instrCount_le⟩, fun l hl => ?_⟩
        by_cases hmem : l ∈ s.chains.defs v loc
        · exact hall l hmem
        · refine hdefs.justified l fun ins w hins hw => ?_
          refine (hl ins w hins hw).imp_left fun hused => ?_
          exact isUsed_forgetUse h.mutually hmem hused
      exact hnext.trans (ih hnext.upToDate
        (Nat.lt_of_le_of_lt hnext.counts.instrCount_le hbound))

/-- A removal that is not cut short leaves no definition without a use and without an effect that
had one before. -/
theorem progress_removeDead
    (h : UpToDate s params stale)
    (hdepth : s.graph.instrCount < depth)
    (hunused : s.Unused loc) :
    Progress params stale s (removeDead depth s loc) ∧ Justified (removeDead depth s loc) loc := by
  induction depth generalizing s stale loc with
  | zero => exact absurd hdepth (Nat.not_lt_zero _)
  | succ depth ih =>
      have hg := h.indexed
      rw [removeDead_succ]
      cases hins : s.graph.instrAt loc with
      | none =>
          refine ⟨h.progress, fun ins w hholds _ => ?_⟩
          rw [← hg.instrAt_eq_some_iff, hins] at hholds
          cases hholds
      | some ins =>
          have hholds := hg.instrAt_eq_some_iff.mp hins
          obtain ⟨hnone, htarget⟩ := hunused ins hholds
          simp only []
          split
          · rename_i hcall
            have hshrinks := shrinks_dropTarget hg hholds hcall
            have hsame := s.graph.instrCount_modifyInstr loc Instr.dropTarget
            refine ⟨⟨⟨h.dropTarget hholds hcall hnone, trivial, hshrinks⟩,
              ⟨congrArg (s.removed + ·) hsame, Nat.le_of_eq hsame⟩,
              fun l hl => hl.shrinks hshrinks rfl⟩, fun ins' w hins' hw => ?_⟩
            obtain ⟨-, -, ⟨-, hlost⟩ | ⟨hne, -⟩⟩ :=
              holds_of_retires (retires_dropTarget hg hholds hcall) (.modifyInstr hg loc _) hins'
            · rw [hlost] at hw
              cases hw
            · exact absurd rfl hne
          · split
            · rename_i heffect
              refine ⟨h.progress, fun ins' w hins' _ => Or.inr ?_⟩
              rwa [← hg.holds_unique hholds hins']
            · have hshrinks := shrinks_removeInstr hg loc
              have hcounts := counts_removeInstr hins
              have hremoved : Progress params (fun v u => stale v u ∨ v ∈ ins.varsRead ∧ u = loc) s
                  { s with graph := s.graph.removeInstr loc, removed := s.removed + 1 } :=
                ⟨⟨h.removeInstr hholds hnone, trivial, hshrinks⟩, hcounts,
                  fun l hl => hl.shrinks hshrinks rfl⟩
              have hcount := FlowGraph.instrCount_removeInstr hins
              have hrest := progress_forgetReads
                (fun s stale loc h hbound hunused => ih h hbound hunused) ins.varsRead
                hremoved.upToDate (Nat.lt_of_lt_of_le (Nat.lt_of_succ_le (Nat.le_of_eq hcount))
                  (Nat.le_of_lt_succ hdepth))
              refine ⟨hremoved.trans hrest, fun ins' w hins' _ => ?_⟩
              obtain ⟨before, hbefore, -⟩ := hrest.shrinks.holds hins'
              exact absurd hbefore (not_holds_removeInstr hg loc before)

theorem progress_removeUnused
    (h : UpToDate s params stale)
    (loc : Loc) :
    Progress params stale s (s.removeUnused loc) ∧ Justified (s.removeUnused loc) loc := by
  have hg := h.indexed
  unfold Pruning.removeUnused
  cases htarget : (s.graph.instrAt loc).bind Instr.target? with
  | none =>
      refine ⟨h.progress, fun ins w hins hw => ?_⟩
      rw [hg.instrAt_eq_some_iff.mpr hins, Option.bind_some, hw] at htarget
      cases htarget
  | some v =>
      obtain ⟨ins, hins, hv⟩ := Option.bind_eq_some_iff.mp htarget
      have hdefines : ∀ ins', s.graph.Holds ins' loc → ins'.target? = some v := fun ins' hins' =>
        hg.holds_unique (hg.instrAt_eq_some_iff.mp hins) hins' ▸ hv
      simp only []
      split
      · rename_i hused
        refine ⟨h.progress, fun ins' w hins' hw => Or.inl ?_⟩
        obtain rfl : v = w := Option.some.inj ((hdefines ins' hins').symm.trans hw)
        exact hused
      · rename_i hused
        exact progress_removeDead h (Nat.lt_succ_self _)
          (unused_of_not_isUsed (by simpa using hused) fun ins' hins' =>
            Or.inl (hdefines ins' hins'))

/-- **No dead code is left.**  Every definition that is left has a use or an effect. -/
theorem run_justified
    (h : c.Tracks g params)
    (loc : Loc) :
    Justified (run g c) loc := by
  have hlocs : ∀ (locs : List Loc) (s : Pruning), UpToDate s params (fun _ _ => False) →
      Progress params (fun _ _ => False) s (locs.foldl removeUnused s) ∧
        ∀ l, l ∈ locs → Justified (locs.foldl removeUnused s) l := by
    intro locs
    induction locs with
    | nil => exact fun s h => ⟨h.progress, by simp⟩
    | cons l locs ih =>
        intro s h
        obtain ⟨hfirst, hl⟩ := progress_removeUnused h l
        obtain ⟨hrest, hall⟩ := ih _ hfirst.upToDate
        exact ⟨hfirst.trans hrest, List.forall_mem_cons.mpr ⟨hrest.justified l hl, hall⟩⟩
  have hnodes : ∀ (ids : List NodeId) (s : Pruning), UpToDate s params (fun _ _ => False) →
      let next := ids.foldl (fun s id => (s.graph.node id).locs.foldl removeUnused s) s
      Progress params (fun _ _ => False) s next ∧
        ∀ id, id ∈ ids → ∀ ins l, (ins, l) ∈ next.graph.code id → Justified next l := by
    intro ids
    induction ids with
    | nil => exact fun s h => ⟨h.progress, by simp⟩
    | cons id ids ih =>
        intro s h
        obtain ⟨hfirst, hdone⟩ := hlocs (s.graph.node id).locs s h
        obtain ⟨hrest, hall⟩ := ih _ hfirst.upToDate
        refine ⟨hfirst.trans hrest, List.forall_mem_cons.mpr ⟨fun ins l hmem => ?_, hall⟩⟩
        -- the place was among those of the node when the node was looked at
        obtain ⟨before, hbefore, -⟩ := (hfirst.shrinks.trans hrest.shrinks) id ins l hmem
        exact hrest.justified l (hdone l (List.of_mem_zip hbefore).2)
  obtain ⟨hrun, hall⟩ := hnodes g.order { graph := g, chains := c, removed := 0 }
    (upToDate_iff_tracks.mpr h)
  rintro ins v ⟨id, hid⟩ hv
  have hindexed := hrun.upToDate.indexed
  obtain ⟨before, hbefore, -⟩ := hrun.shrinks id ins loc hid
  have horder := h.indexed.mem_order id loc (List.of_mem_zip hbefore).2
  exact hall id horder ins loc hid ins v ⟨id, hid⟩ hv

end Justified

section Tracking

theorem stable_true
    (params : List VarId) :
    Stable params fun _ => True :=
  ⟨fun _ _ _ _ _ => trivial, fun _ _ _ _ _ _ => trivial, fun _ _ _ => trivial⟩

/-- No change makes a variable be read before it has been defined. -/
theorem stable_defined
    (params : List VarId) :
    Stable params fun s => s.graph.Defined params where
  dropTarget h hs hins hcall hunused :=
    (retires_dropTarget h.indexed hins hcall).defined (.modifyInstr h.indexed _ _)
      (h.not_links hins hunused) hs
  removeInstr h hs hins _ _ hunused :=
    (FlowGraph.retires_dropAt _ _).defined (.removeInstr h.indexed _) (h.not_links hins hunused) hs
  forgetUse _ hs _ := hs

/-- When all dead code has been removed, the chains are those of the graph that is left. -/
theorem run_tracks
    (h : c.Tracks g params) :
    (run g c).chains.Tracks (run g c).graph params :=
  upToDate_iff_tracks.mp ((stable_true params).run h trivial).upToDate

theorem run_defined
    (h : c.Tracks g params)
    (hdefined : g.Defined params) :
    (run g c).graph.Defined params :=
  ((stable_defined params).run h hdefined).holds

end Tracking

section Pruned

/-- Calls have lost results, definitions without an effect have gone, and nothing else has changed;
and whatever read something that is lost or gone has gone itself. -/
structure Prunes (params : List VarId) (g g' : FlowGraph)
    (f : RunStep → Option RunStep) : Prop where
  rewrites : Rewrites g g' f
  cases : ∀ x, g.Holds x.1 x.2 →
    f x = some x ∨
      (x.1.isCall = true ∧ f x = some (x.1.dropTarget, x.2)) ∨
      (x.1.target?.isSome = true ∧ x.1.hasEffect = false ∧ f x = none)
  readers_gone : ∀ x y v, g.Holds x.1 x.2 → f x ≠ some x → g.Holds y.1 y.2 →
    g.Links params v x.2 y.2 → f y = none

variable {f f' : RunStep → Option RunStep}

/-- A link from a definition that is left to a use that is left is left itself. -/
theorem Prunes.links
    (h : Prunes params g g' f)
    (hg : g.Indexed)
    {x y y' : RunStep}
    {v : VarId}
    (hx : g.Holds x.1 x.2)
    (hkept : f x = some x)
    (hy : f y = some y')
    (hholds : g.Holds y.1 y.2)
    (hlink : g.Links params v x.2 y.2) :
    g'.Links params v x.2 y.2 := by
  obtain ⟨run, reader, hexec, hreads, hsupplied⟩ := hlink
  obtain rfl : reader = y.1 := hg.holds_unique hexec.holds hholds
  obtain ⟨hplace, hsame⟩ : y'.2 = y.2 ∧ y'.1.reads = y.1.reads := by
    rcases h.cases y hholds with hcase | ⟨-, hcase⟩ | ⟨-, -, hcase⟩
    · obtain rfl := Option.some.inj (hcase.symm.trans hy)
      exact ⟨rfl, rfl⟩
    · obtain rfl := Option.some.inj (hcase.symm.trans hy)
      exact ⟨rfl, Instr.reads_dropTarget _⟩
    · rw [hcase] at hy
      cases hy
  have hlast : ∀ d, lastDefinition v run = some d → d = x.2 := by
    intro d hd
    rcases hsupplied with hsome | ⟨hnone, -⟩
    · exact Option.some.inj (hd.symm.trans hsome)
    · rw [hnone] at hd
      cases hd
  refine ⟨run.filterMap f, y'.1, ?_, hsame ▸ hreads, ?_⟩
  · refine h.rewrites.executes_iff.mpr ⟨run, y, hexec, ?_, rfl⟩
    rw [hy, ← hplace]
  · refine (supplied_filterMap_iff (fun l => ∃ ins, g.Holds ins l ∧ f (ins, l) ≠ some (ins, l))
      ?_ ?_ ?_).mpr hsupplied
    · intro z hz hnot
      have hz' := hexec.holds_of_mem hz
      refine ⟨z, ?_, rfl, rfl⟩
      by_contra hne
      exact hnot ⟨z.1, hz', hne⟩
    · rintro ⟨ins, l⟩ hz ⟨ins', hins', hne⟩ z' hz'
      have hholds' : g.Holds ins l := hexec.holds_of_mem hz
      obtain rfl := hg.holds_unique hins' hholds'
      rcases h.cases (ins', l) hins' with hcase | ⟨hcall, hcase⟩ | ⟨-, -, hcase⟩
      · exact absurd hcase hne
      · obtain rfl := Option.some.inj (hcase.symm.trans hz')
        exact Instr.target?_dropTarget_of_isCall hcall
      · rw [hcase] at hz'
        cases hz'
    · rintro d hd ⟨ins, hins, hne⟩
      obtain rfl := hlast d hd
      obtain rfl := hg.holds_unique hx hins
      exact hne hkept

/-- A further definition without links goes, or a call loses its result. -/
theorem Prunes.next
    {g'' : FlowGraph}
    (h : Prunes params g g' f)
    (hg : g.Indexed)
    (hg' : g'.Indexed)
    (hins : g'.Holds ins loc)
    (hunused : ∀ v u, ¬ g'.Links params v loc u)
    (hrewrites : Rewrites g' g'' f')
    (hf : Retires g' f' loc)
    (hcases : ins.isCall = true ∧ f' (ins, loc) = some (ins.dropTarget, loc) ∨
      ins.target?.isSome = true ∧ ins.hasEffect = false ∧ f' (ins, loc) = none) :
    Prunes params g g'' fun x => (f x).bind f' := by
  have hother : ∀ x, x.2 ≠ loc → f' x = some x := hf.kept
  have hsame : ∀ x x' : RunStep, g.Holds x.1 x.2 → f x = some x' → x'.2 = loc → x'.1 = ins := by
    intro x x' hx hfx hloc
    refine hg'.holds_unique ?_ hins
    rw [← hloc]
    exact h.rewrites.holds_iff.mpr ⟨x, hx, hfx⟩
  refine ⟨h.rewrites.trans hrewrites, fun x hx => ?_, fun x y v hx hchanged hy hlink => ?_⟩
  · rcases h.cases x hx with hcase | ⟨hcall, hcase⟩ | ⟨htarget, heffect, hcase⟩
    · rw [hcase, Option.bind_some]
      by_cases hloc : x.2 = loc
      · obtain ⟨i, l⟩ := x
        obtain rfl : l = loc := hloc
        obtain rfl : i = ins := hsame _ _ hx hcase rfl
        exact Or.inr hcases
      · exact Or.inl (hother x hloc)
    · rw [hcase, Option.bind_some]
      refine Or.inr (Or.inl ⟨hcall, ?_⟩)
      by_cases hloc : x.2 = loc
      · obtain ⟨i, l⟩ := x
        obtain rfl : l = loc := hloc
        have hdropped : i.dropTarget = ins := hsame _ _ hx hcase rfl
        rw [← hdropped] at hcases
        rcases hcases with ⟨-, hagain⟩ | ⟨htarget, -⟩
        · simpa using hagain
        · simp [Instr.target?_dropTarget_of_isCall hcall] at htarget
      · exact hother (x.1.dropTarget, x.2) hloc
    · exact Or.inr (Or.inr ⟨htarget, heffect, by simp [hcase]⟩)
  · by_cases hkept : f x = some x
    · cases hfy : f y with
      | none => rfl
      | some y' =>
          -- the definition that goes now would still be linked with this use
          have hloc : x.2 = loc := by
            by_contra hloc
            exact hchanged (by simp [hkept, hother x hloc])
          exact absurd (hloc ▸ h.links hg hx hkept hfy hy hlink) (hunused v y.2)
    · simp [h.readers_gone x y v hx hkept hy hlink]

theorem stable_prunes
    (params : List VarId)
    (hg : g.Indexed) :
    Stable params fun s => ∃ f, Prunes params g s.graph f where
  dropTarget {s stale loc ins} h hs hins hcall hunused := by
    obtain ⟨f, hf⟩ := hs
    exact ⟨_, hf.next hg h.indexed hins (h.not_links hins hunused) (.modifyInstr h.indexed loc _)
      (retires_dropTarget h.indexed hins hcall) (Or.inl ⟨hcall, by simp [modifyAt]⟩)⟩
  removeInstr {s stale loc ins} h hs hins hsome heffect hunused := by
    obtain ⟨f, hf⟩ := hs
    exact ⟨_, hf.next hg h.indexed hins (h.not_links hins hunused) (.removeInstr h.indexed loc)
      (FlowGraph.retires_dropAt _ loc) (Or.inr ⟨hsome, heffect, by simp [dropAt]⟩)⟩
  forgetUse _ hs _ := hs

/-- Nothing goes but dead code. -/
theorem run_prunes
    (h : c.Tracks g params) :
    ∃ f, Prunes params g (run g c).graph f := by
  refine ((stable_prunes params h.indexed).run h ⟨some, ⟨rfl, rfl, fun id => ?_⟩,
    fun _ _ => Or.inl rfl, fun _ _ _ _ hchanged => absurd rfl hchanged⟩).holds
  exact List.filterMap_some.symm

end Pruned

end Pruning
end DalvikDecompiler
