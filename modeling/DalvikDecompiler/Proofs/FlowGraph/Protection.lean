import DalvikDecompiler.Proofs.FlowGraph.Cleanup

/-!
# What protects the instructions of a graph that is cleaned up

**Input.** A flow graph whose edges are known at both ends.

Simplification leaves the handlers of each instruction as they are.  Splitting does not: a branch
node that handles exceptions loses its position among the handlers of other nodes, and its own first
half is not protected by it any more.

**Results.**
* `Wired.splitBranches`: the handlers of each instruction after all branch nodes have been split, in
  order.
* `Wired.compact`: simplification keeps them.
* `cleanup_handlers`: both.
-/

namespace DalvikDecompiler

open OrderedSet (erase mem_erase erase_of_not_mem)
open Symbolic (Instr)

namespace FlowGraph

/-- The first half of a branch node, if those of a list are split and get numbers from `first` on.
-/
def halfOf (first : NodeId) (split : List NodeId) (n : NodeId) : NodeId :=
  first + 2 * split.idxOf n

/-- Handlers after the branch nodes of a list have been split: those among them stand behind the
others, in the order in which they were split. -/
def rehandle (first : NodeId) (split handlers : List NodeId) : List NodeId :=
  handlers.filter (· ∉ split) ++ (split.filter (· ∈ handlers)).map (halfOf first split)

section Lists

variable {first c : NodeId} {split handlers : List NodeId}

/-- Handlers among which no branch node is split stay as they are. -/
theorem rehandle_of_disjoint
    (h : ∀ n ∈ handlers, n ∉ split) :
    rehandle first split handlers = handlers := by
  have hkept : handlers.filter (· ∉ split) = handlers :=
    List.filter_eq_self.2 fun n hn => decide_eq_true (h n hn)
  have hmoved : split.filter (· ∈ handlers) = [] :=
    List.filter_eq_nil_iff.2 fun n hn => by simpa using fun hmem => h n hmem hn
  rw [rehandle, hkept, hmoved, List.map_nil, List.append_nil]

theorem halfOf_self :
    halfOf first (c :: split) c = first := by
  simp [halfOf]

theorem halfOf_cons
    {n : NodeId}
    (hapart : c ∉ split)
    (hmem : n ∈ split) :
    halfOf first (c :: split) n = halfOf (first + 2) split n := by
  have hother : c ≠ n := fun hsame => hapart (hsame ▸ hmem)
  unfold halfOf
  rw [List.idxOf_cons_ne _ hother, Nat.mul_succ, Nat.add_comm _ 2, Nat.add_assoc]

theorem erase_replaced
    {n : NodeId}
    (hother : n ≠ c)
    (hknown : n ≠ first) :
    erase (if c ∈ handlers then erase handlers c ++ [first] else handlers) n =
      if c ∈ erase handlers n then erase (erase handlers n) c ++ [first] else erase handlers n := by
  have hthere : c ∈ erase handlers n ↔ c ∈ handlers := by simp [hother.symm]
  simp only [hthere]
  split
  · have hkept : [first].filter (fun m => !(m == n)) = [first] :=
      List.filter_cons_of_pos (by simpa using hknown.symm)
    unfold erase
    rw [List.filter_append, hkept, List.filter_comm]
  · rfl

/-- One more branch node is split before the others. -/
theorem rehandle_cons
    (hapart : c ∉ split)
    (hfresh : first ∉ split) :
    rehandle first (c :: split) handlers =
      rehandle (first + 2) split
        (if c ∈ handlers then erase handlers c ++ [first] else handlers) := by
  have hlater : (split.filter (· ∈ handlers)).map (halfOf first (c :: split)) =
      (split.filter (· ∈ handlers)).map (halfOf (first + 2) split) :=
    List.map_congr_left fun n hn => halfOf_cons hapart (List.mem_of_mem_filter hn)
  have hothers (n : NodeId) (hn : n ∈ split) : n ≠ c ∧ n ≠ first :=
    ⟨fun hsame => hapart (hsame ▸ hn), fun hsame => hfresh (hsame ▸ hn)⟩
  by_cases hmem : c ∈ handlers
  · have hmoved : split.filter (· ∈ erase handlers c ++ [first]) = split.filter (· ∈ handlers) :=
      List.filter_congr fun n hn => by simp [hothers n hn]
    have hkept : (erase handlers c ++ [first]).filter (· ∉ split) =
        handlers.filter (· ∉ c :: split) ++ [first] := by
      have hnew : [first].filter (· ∉ split) = [first] :=
        List.filter_cons_of_pos (by simpa using hfresh)
      rw [List.filter_append, hnew, erase, List.filter_filter]
      refine congrArg (· ++ [first]) (List.filter_congr fun n _ => ?_)
      by_cases hsame : n = c <;> simp [hsame]
    rw [if_pos hmem, rehandle, rehandle, hkept, hmoved,
      List.filter_cons_of_pos (by simpa using hmem),
      List.map_cons, halfOf_self, hlater, List.append_assoc]
    rfl
  · have hkept : handlers.filter (· ∉ c :: split) = handlers.filter (· ∉ split) :=
      List.filter_congr fun n hn => by simp [ne_of_mem_of_not_mem hn hmem]
    rw [if_neg hmem, rehandle, rehandle, hkept,
      List.filter_cons_of_neg (by simpa using hmem), hlater]

end Lists

section Splitting

variable {g g₁ g' : FlowGraph} {c : NodeId} {split : List NodeId}

/-- A node of a graph holds some code under some handlers. -/
structure HoldsUnder (g : FlowGraph) (n : NodeId) (code : List Instr) (handlers : List NodeId) :
    Prop where
  isLive : g.isLive n = true
  ins_eq : (g.node n).ins = code
  handlerSuccs_eq : g.handlerSuccs n = handlers

/-- What splitting some branch nodes makes of the code of a graph and of its handlers. -/
structure SplitsAll (g g' : FlowGraph) (split : List NodeId) : Prop where
  wired : g'.Wired
  kept : ∀ n, g.isLive n = true → n ∉ split →
    g'.HoldsUnder n (g.node n).ins (rehandle g.size split (g.handlerSuccs n))
  half : ∀ c ∈ split,
    g'.HoldsUnder (halfOf g.size split c)
      ((g.node c).ins.take ((g.node c).ins.length - 1))
      (rehandle g.size split (erase (g.handlerSuccs c) c))
  branch : ∀ c ∈ split,
    g'.HoldsUnder (halfOf g.size split c + 1)
      ((g.node c).ins.drop ((g.node c).ins.length - 1))
      (rehandle g.size split (g.handlerSuccs c))

/-- One branch node is split, and then the others. -/
theorem Splits.splitsAll
    (hsplits : Splits g g₁ c)
    (hrest : SplitsAll g₁ g' split)
    (hapart : c ∉ split)
    (hlive : ∀ n ∈ c :: split, g.isLive n = true) :
    SplitsAll g g' (c :: split) := by
  have hlive' (n : NodeId) (hmem : n ∈ split) := hlive n (List.mem_cons_of_mem c hmem)
  have hfresh : g.size ∉ split := fun hmem => lt_irrefl _ (lt_size_of_isLive (hlive' _ hmem))
  have hfresh' : g.size + 1 ∉ split := fun hmem =>
    Nat.not_succ_le_self _ (Nat.le_of_lt (lt_size_of_isLive (hlive' _ hmem)))
  have hother (n : NodeId) (hmem : n ∈ split) : n ≠ c := fun hsame => hapart (hsame ▸ hmem)
  have hsize_eq : g₁.size = g.size + 2 := hsplits.size_eq
  have hrehandles (handlers : List NodeId) : rehandle g₁.size split
      (if c ∈ handlers then erase handlers c ++ [g.size] else handlers) =
      rehandle g.size (c :: split) handlers := by
    rw [hsize_eq, rehandle_cons hapart hfresh]
  have half (n : NodeId) (hmem : n ∈ split) :
      halfOf g₁.size split n = halfOf g.size (c :: split) n := by
    rw [hsize_eq, halfOf_cons hapart hmem]
  refine ⟨hrest.wired, fun n hthere hnew => ?_, fun n hmem => ?_, fun n hmem => ?_⟩
  · obtain ⟨hnew, hnew'⟩ := List.ne_and_not_mem_of_not_mem_cons hnew
    have hkept := hrest.kept n (by simp [hsplits.isLive_eq, hthere, hnew]) hnew'
    rwa [(hsplits.renews n hnew hthere).ins_eq, hsplits.handlerSuccs_eq n hnew hthere,
      hrehandles] at hkept
  · obtain rfl | hmem := List.mem_cons.1 hmem
    · have hkept := hrest.kept g.size (by simp [hsplits.isLive_eq]) hfresh
      have hgone : n ∉ erase (g.handlerSuccs n) n := fun hmem => (mem_erase.1 hmem).2 rfl
      rw [hsplits.pre_ins, hsplits.pre_handlers] at hkept
      rw [halfOf_self, ← hrehandles, if_neg hgone]
      exact hkept
    · have hkept := hrest.half n hmem
      have hthere := hlive' n hmem
      rw [half n hmem, (hsplits.renews n (hother n hmem) hthere).ins_eq,
        hsplits.handlerSuccs_eq n (hother n hmem) hthere] at hkept
      have hknown := Nat.ne_of_lt (lt_size_of_isLive hthere)
      rw [erase_replaced (hother n hmem) hknown, hrehandles] at hkept
      exact hkept
  · obtain rfl | hmem := List.mem_cons.1 hmem
    · have hkept := hrest.kept (g.size + 1) (by simp [hsplits.isLive_eq]) hfresh'
      rw [hsplits.cond_ins, hsplits.cond_handlers, hrehandles] at hkept
      rwa [halfOf_self]
    · have hkept := hrest.branch n hmem
      have hthere := hlive' n hmem
      rwa [half n hmem, (hsplits.renews n (hother n hmem) hthere).ins_eq,
        hsplits.handlerSuccs_eq n (hother n hmem) hthere, hrehandles] at hkept

theorem Wired.splitsAll
    (h : g.Wired)
    (hnodup : split.Nodup)
    (hlive : ∀ c ∈ split, g.isLive c = true) :
    SplitsAll g (split.foldl splitBranch g) split := by
  induction split generalizing g with
  | nil =>
      refine ⟨h, fun n hthere _ => ⟨hthere, rfl, ?_⟩, ?_, ?_⟩
      · exact (rehandle_of_disjoint fun _ _ => List.not_mem_nil).symm
      all_goals exact fun c hmem => absurd hmem List.not_mem_nil
  | cons c split ih =>
      obtain ⟨hapart, hnodup⟩ := List.nodup_cons.1 hnodup
      have hsplits := splits_splitBranch h (hlive c List.mem_cons_self)
      have hrest := ih hsplits.wired hnodup fun n hmem => by
        have hother : n ≠ c := fun hsame => hapart (hsame ▸ hmem)
        simp [hsplits.isLive_eq, hlive n (List.mem_cons_of_mem c hmem), hother]
      rw [List.foldl_cons]
      exact hsplits.splitsAll hrest hapart hlive

theorem HoldsUnder.reindex
    {n : NodeId}
    {code : List Instr}
    {handlers : List NodeId}
    (h : g.HoldsUnder n code handlers) :
    g.reindex.HoldsUnder n code handlers :=
  ⟨h.isLive, h.ins_eq, h.handlerSuccs_eq⟩

theorem SplitsAll.reindex
    (h : SplitsAll g g' split) :
    SplitsAll g g'.reindex split where
  wired := h.wired.reindex
  kept n hlive hnew := (h.kept n hlive hnew).reindex
  half c hmem := (h.half c hmem).reindex
  branch c hmem := (h.branch c hmem).reindex

theorem isLive_of_mem_splitCandidates
    (hmem : c ∈ g.splitCandidates) :
    g.isLive c = true :=
  mem_liveIds_iff.1 (List.mem_of_mem_filter hmem)

theorem nodup_splitCandidates
    (g : FlowGraph) :
    g.splitCandidates.Nodup :=
  (List.nodup_range.filter _).filter _

/-- The handlers of each instruction after all branch nodes have been split. -/
theorem Wired.splitBranches
    (h : g.Wired) :
    SplitsAll g g.splitBranches.2 g.splitCandidates := by
  have hall := h.splitsAll g.nodup_splitCandidates fun c => isLive_of_mem_splitCandidates
  unfold FlowGraph.splitBranches
  simp only
  split
  · next hnone =>
      rw [List.isEmpty_iff.1 hnone] at hall ⊢
      exact hall
  · exact hall.reindex

end Splitting

section Simplification

variable {g g' g'' : FlowGraph} {id : NodeId}

/-- The code of each node stays together, under the same handlers. -/
structure KeepsHandlers (g g' : FlowGraph) : Prop where
  wired : g'.Wired
  holds : ∀ n code handlers, g.HoldsUnder n code handlers → code ≠ [] →
    ∃ n' before after, g'.HoldsUnder n' (before ++ code ++ after) handlers

theorem KeepsHandlers.trans
    (h : KeepsHandlers g g')
    (h' : KeepsHandlers g' g'') :
    KeepsHandlers g g'' where
  wired := h'.wired
  holds n code handlers holds hfilled := by
    obtain ⟨n₁, before₁, after₁, hfirst⟩ := h.holds n code handlers holds hfilled
    obtain ⟨n₂, before₂, after₂, hsecond⟩ := h'.holds n₁ _ handlers hfirst (by simp [hfilled])
    exact ⟨n₂, before₂ ++ before₁, after₁ ++ after₂, by simpa using hsecond⟩

theorem Bypasses.keepsHandlers
    {succ : NodeId}
    (hbypasses : Bypasses g g' id succ)
    (hempty : (g.node id).ins = []) :
    KeepsHandlers g g' where
  wired := hbypasses.wired
  holds n code handlers holds hfilled := by
    have hother : n ≠ id := by
      rintro rfl
      exact hfilled (holds.ins_eq ▸ hempty)
    refine ⟨n, [], [], ?_, ?_, ?_⟩
    · simp [hbypasses.isLive_eq, hother, holds.isLive]
    · simp [(hbypasses.renews n holds.isLive).ins_eq, holds.ins_eq]
    · rw [hbypasses.handlerSuccs_eq n hother, holds.handlerSuccs_eq]

theorem Joins.keepsHandlers
    {succ : NodeId}
    (hjoins : Joins g g' id succ)
    (hlive : g.isLive id = true)
    (hapart : succ ≠ id)
    (handlers : g.handlerSuccs id = g.handlerSuccs succ) :
    KeepsHandlers g g' where
  wired := hjoins.wired
  holds n code handlers' holds _ := by
    have hstays : g'.isLive id = true := by simp [hjoins.isLive_eq, hapart.symm, hlive]
    have hsame := hjoins.handlerSuccs_eq id hapart.symm
    by_cases here : n = id
    · subst here
      exact ⟨n, [], (g.node succ).ins, hstays, by simp [hjoins.ins_eq, holds.ins_eq],
        hsame.trans holds.handlerSuccs_eq⟩
    · by_cases hthere : n = succ
      · subst hthere
        exact ⟨id, (g.node id).ins, [], hstays, by simp [hjoins.ins_eq, holds.ins_eq],
          (hsame.trans handlers).trans holds.handlerSuccs_eq⟩
      · refine ⟨n, [], [], ?_, ?_, ?_⟩
        · simp [hjoins.isLive_eq, hthere, holds.isLive]
        · simp [(hjoins.renews n here hthere holds.isLive).ins_eq, holds.ins_eq]
        · rw [hjoins.handlerSuccs_eq n hthere, holds.handlerSuccs_eq]

theorem Compacts.keepsHandlers
    (hcompacts : Compacts g id g') :
    KeepsHandlers g g' := by
  cases hcompacts with
  | bypass _ _ _ hempty _ hbypasses => exact hbypasses.keepsHandlers hempty
  | join hlive _ _ _ _ _ hapart _ handlers hjoins =>
      exact hjoins.keepsHandlers hlive hapart handlers

/-- Simplification keeps the handlers of each instruction, in their order. -/
theorem Wired.compact
    (h : g.Wired) :
    KeepsHandlers g g.compact.2 := by
  refine compact_induction (P := fun g' => KeepsHandlers g g') (fun _ hkeeps => hkeeps.wired)
    (fun _ _ _ hkeeps hcompacts => hkeeps.trans hcompacts.keepsHandlers) (fun _ hkeeps => ?_) ?_
  · exact ⟨hkeeps.wired.reindex, fun n code handlers holds hfilled =>
      have ⟨n', before, after, hkept⟩ := hkeeps.holds n code handlers holds hfilled
      ⟨n', before, after, hkept.reindex⟩⟩
  · exact ⟨h, fun n code handlers holds _ => ⟨n, [], [], by simpa using holds⟩⟩

/-- **What protects each instruction of a graph that is cleaned up.**  Splitting puts the branch
nodes that are split behind the other handlers, as their first halves, and takes the protection of a
branch node that handles its own exceptions from its first half.  Simplification keeps the handlers
of each instruction in their order. -/
theorem cleanup_handlers
    (h : g.Wired) :
    SplitsAll g g.splitBranches.2 g.splitCandidates ∧ KeepsHandlers g g.compact.2 :=
  ⟨h.splitBranches, h.compact⟩

/-- A slot of an example, with the other ends of its edges. -/
def protectedSlot (kind : NodeKind) (code : List Instr)
    (succs preds handlerSuccs handlerPreds : List NodeId) : Slot :=
  { node := { Node.plain "" kind with ins := code }
    live := true
    succs
    preds
    handlerSuccs
    handlerPreds }

/-- A branch node that is the first of its own handlers.  It stores something before it branches. -/
def ownHandler : FlowGraph :=
  { FlowGraph.empty with
    slots := #[
      protectedSlot (.conditional ⟨1, 2⟩) [.monitorEnter (.var 0), .ifCompareZero .eq (.var 0)]
        [1, 2] [] [0, 3] [0],
      protectedSlot .ret [.ret none] [] [0] [] [],
      protectedSlot .ret [.ret none] [] [0] [] [],
      protectedSlot .ret [.ret none] [] [] [] [0]] }

theorem cleanup_handlers_ownHandler :
    ownHandler.Wired ∧
      SplitsAll ownHandler ownHandler.splitBranches.2 ownHandler.splitCandidates ∧
      KeepsHandlers ownHandler ownHandler.compact.2 :=
  have hwired : ownHandler.Wired := by decide
  ⟨hwired, cleanup_handlers hwired⟩

/-- The node goes and its first half, `4`, takes its place.  But nothing is protected by `4` and `3`
in this order any more: the first half is protected by `3` alone, and the branch by `3` first. -/
theorem ownHandler_reorders :
    ownHandler.Wired ∧
      ownHandler.HoldsUnder 0 [.monitorEnter (.var 0), .ifCompareZero .eq (.var 0)] [0, 3] ∧
      ownHandler.splitBranches.2.HoldsUnder 4 [.monitorEnter (.var 0)] [3] ∧
      ownHandler.splitBranches.2.HoldsUnder 5 [.ifCompareZero .eq (.var 0)] [3, 4] ∧
      ¬ ∃ n code,
        ownHandler.splitBranches.2.HoldsUnder n code ([0, 3].map (Edges.replacing 0 4)) := by
  have hwired : ownHandler.Wired := by decide
  have hsplits := hwired.splitBranches
  have halone : ownHandler.splitCandidates = [0] := by decide +kernel
  rw [halone] at hsplits
  refine ⟨hwired, ⟨rfl, rfl, rfl⟩, hsplits.half 0 (by simp), hsplits.branch 0 (by simp), ?_⟩
  rintro ⟨n, code, holds⟩
  have hnone : ∀ n < ownHandler.splitBranches.2.size,
      ownHandler.splitBranches.2.handlerSuccs n ≠ [4, 3] := by decide +kernel
  exact hnone n (lt_size_of_isLive holds.isLive) holds.handlerSuccs_eq

end Simplification

end FlowGraph
end DalvikDecompiler
