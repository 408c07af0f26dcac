import DalvikDecompiler.Proofs.FlowGraph.CleanPaths
import DalvikDecompiler.Proofs.FlowGraph.Protection
import DalvikDecompiler.Proofs.FlowGraph.Topological

/-!
# Nodes that a cleanup cuts off

**Input.** A flow graph whose edges are known at both ends.

A node without instructions is left out together with its exception edges.  Its handlers stay in the
graph, also if there is no other way to them.

**Results.**
* `Splits.found`, `Compacts.found`: an edit keeps a node reachable, or what has taken its place.
* `cleanup_reachable`: splitting cuts off no node; simplification cuts off only nodes to which all
  ways lead through handlers of nodes without instructions.
-/

namespace DalvikDecompiler

open OrderedSet (insertAll insertAll_of_disjoint mem_insertAll erase mem_erase)
open Edges (replacing replacing_self replacing_of_ne mem_substitute)

/-- A node that does nothing and goes on. -/
def Node.Idle (n : Node) : Prop :=
  n.kind = .statement ∧ n.ins = []

/-- A change of the references of a node does not make it do something. -/
theorem Node.Renews.idle_iff
    {f : NodeId → NodeId}
    {n n' : Node}
    (h : n.Renews f n') :
    n'.Idle ↔ n.Idle := by
  rw [Idle, Idle, h.kind_eq, h.ins_eq, NodeKind.remap_eq_statement_iff]

namespace FlowGraph

/-- A node leads to its successors, and to its handlers as long as exceptions in it count. -/
inductive LeadsOn (counts : Node → Prop) (g : FlowGraph) (n m : NodeId) : Prop
  | normal (hmem : m ∈ g.succs n)
  | raised (hmem : m ∈ g.handlerSuccs n) (hcounted : counts (g.node n))

/-- A node is found from the entry on. -/
def Found (counts : Node → Prop) (g : FlowGraph) (n : NodeId) : Prop :=
  Relation.ReflTransGen (LeadsOn counts g) g.entry n

/-- A node is reached without exceptions in nodes that do nothing. -/
def Sustained (g : FlowGraph) (n : NodeId) : Prop :=
  g.Found (fun node => ¬ node.Idle) n

/-- Exceptions in a node count as long as its code stays, and they do in a node that does something.
-/
structure Counting (counts : Node → Prop) : Prop where
  renews : ∀ f n n', Node.Renews f n n' → counts n → counts n'
  busy : ∀ n, n.kind ≠ .statement ∨ n.ins ≠ [] → counts n

theorem counting_all :
    Counting fun _ => True :=
  ⟨fun _ _ _ _ _ => trivial, fun _ _ => trivial⟩

theorem counting_busy :
    Counting fun node => ¬ node.Idle where
  renews _ _ _ hrenews h hidle := h (hrenews.idle_iff.1 hidle)
  busy _ h hidle := h.elim (· hidle.1) (· hidle.2)

section Edits

variable {counts : Node → Prop} {g g' : FlowGraph} {id succ n m : NodeId}

theorem LeadsOn.isLive
    (h : g.LeadsOn counts n m)
    (hwired : g.Wired) :
    g.isLive n = true ∧ g.isLive m = true := by
  cases h with
  | normal hmem => exact hwired.live n m (.inl hmem)
  | raised hmem => exact hwired.live n m (.inr hmem)

/-- What becomes of each edge, becomes of each way from the entry. -/
theorem Found.map
    {f : NodeId → NodeId}
    (hentry : g'.entry = f g.entry)
    (hedge : ∀ n m, g.LeadsOn counts n m →
      Relation.ReflTransGen (LeadsOn counts g') (f n) (f m))
    (h : g.Found counts n) :
    g'.Found counts (f n) := by
  unfold Found
  rw [hentry]
  induction h with
  | refl => exact .refl
  | tail _ hlast ih => exact ih.trans (hedge _ _ hlast)

theorem Found.reindex
    (h : g.Found counts n) :
    g.reindex.Found counts n := by
  refine Found.map (g := g) (f := fun n => n) rfl (fun n m hleads => .single ?_) h
  cases hleads with
  | normal hmem => exact .normal hmem
  | raised hmem hcounted => exact .raised hmem hcounted

/-- No node is protected by one that is gone. -/
theorem Wired.not_mem_of_gone
    (hwired : g'.Wired)
    (hgone : g'.isLive id = false)
    {handlers : List NodeId}
    (hsame : g'.handlerSuccs n = handlers) :
    id ∉ handlers := fun hmem =>
  have hknown := (hwired.live n id (.inr (hsame ▸ hmem))).2
  Bool.false_ne_true (hgone.symm.trans hknown)

/-- What leads to a node that is left out leads to its successor. -/
theorem Bypasses.found
    (hbypasses : Bypasses g g' id succ)
    (hwired : g.Wired)
    (honly : g.succs id = [succ])
    (hapart : succ ≠ id)
    (hidle : ¬ counts (g.node id))
    (hcounting : Counting counts)
    (h : g.Found counts n) :
    g'.Found counts (replacing id succ n) := by
  refine h.map hbypasses.entry_eq fun n m hleads => ?_
  have hlive := (hleads.isLive hwired).1
  have hgone : g'.isLive id = false := by simp [hbypasses.isLive_eq]
  by_cases here : n = id
  · subst here
    cases hleads with
    | raised _ hcounted => exact absurd hcounted hidle
    | normal hmem =>
        obtain rfl : m = succ := by simpa [honly] using hmem
        rw [replacing_self, replacing_of_ne hapart]
  · rw [replacing_of_ne here]
    refine .single ?_
    cases hleads with
    | normal hmem =>
        refine .normal ?_
        rw [hbypasses.succs_eq n here, mem_substitute hapart (hwired.nodup_succs n)]
        by_cases hthere : m = id
        · exact .inr ⟨hthere ▸ replacing_self, hthere ▸ hmem⟩
        · exact .inl ⟨(replacing_of_ne hthere).symm ▸ hmem, (replacing_of_ne hthere).symm ▸ hthere⟩
    | raised hmem hcounted =>
        have hsame := hbypasses.handlerSuccs_eq n here
        have hother : m ≠ id := fun hthere =>
          hbypasses.wired.not_mem_of_gone hgone hsame (hthere ▸ hmem)
        rw [replacing_of_ne hother]
        exact .raised (hsame ▸ hmem) (hcounting.renews _ _ _ (hbypasses.renews n hlive) hcounted)

/-- What leads to a node that is joined to the one in front of it leads to that one. -/
theorem Joins.found
    (hjoins : Joins g g' id succ)
    (hwired : g.Wired)
    (hpreds : g.preds succ = [id])
    (hapart : succ ≠ id)
    (hfilled : (g.node id).ins ≠ [])
    (handlers : g.handlerSuccs id = g.handlerSuccs succ)
    (hinner : succ ≠ g.entry)
    (hcounting : Counting counts)
    (h : g.Found counts n) :
    g'.Found counts (replacing succ id n) := by
  refine h.map (hjoins.entry_eq.trans (replacing_of_ne hinner.symm).symm) fun n m hleads => ?_
  have hlive := (hleads.isLive hwired).1
  have hgone : g'.isLive succ = false := by simp [hjoins.isLive_eq]
  have hbusy : counts (g'.node id) :=
    hcounting.busy _ (.inr (by simp [hjoins.ins_eq, hfilled]))
  have here_succs := hjoins.succs_eq id hapart.symm
  have here_handlers := hjoins.handlerSuccs_eq id hapart.symm
  rw [if_pos rfl] at here_succs
  have hunhandled : succ ∉ g.handlerSuccs id :=
    hjoins.wired.not_mem_of_gone hgone here_handlers
  have hfollows (n : NodeId) (hmem : succ ∈ g.succs n) : n = id := by
    simpa [hpreds] using hwired.mem_preds.2 hmem
  by_cases hthere : n = succ
  · -- the second half
    subst hthere
    rw [replacing_self]
    refine .single ?_
    cases hleads with
    | normal hmem =>
        have hother : m ≠ n := fun hsame => hapart (hfollows n (hsame ▸ hmem))
        rw [replacing_of_ne hother]
        exact .normal (here_succs ▸ mem_insertAll.2 (.inr hmem))
    | raised hmem =>
        rw [← handlers] at hmem
        have hother : m ≠ n := fun hsame => hunhandled (hsame ▸ hmem)
        rw [replacing_of_ne hother]
        exact .raised (here_handlers ▸ hmem) hbusy
  · rw [replacing_of_ne hthere]
    by_cases here : n = id
    · -- the first half
      subst here
      cases hleads with
      | normal hmem =>
          by_cases honward : m = succ
          · rw [honward, replacing_self]
          · rw [replacing_of_ne honward]
            refine .single (.normal (here_succs ▸ ?_))
            exact mem_insertAll.2 (.inl (mem_erase.2 ⟨hmem, honward⟩))
      | raised hmem =>
          have hother : m ≠ succ := fun hsame => hunhandled (hsame ▸ hmem)
          rw [replacing_of_ne hother]
          exact .single (.raised (here_handlers ▸ hmem) hbusy)
    · refine .single ?_
      cases hleads with
      | normal hmem =>
          have hother : m ≠ succ := fun hsame => here (hfollows n (hsame ▸ hmem))
          rw [replacing_of_ne hother]
          have hsame := hjoins.succs_eq n hthere
          rw [if_neg here] at hsame
          exact .normal (hsame ▸ hmem)
      | raised hmem hcounted =>
          have hsame := hjoins.handlerSuccs_eq n hthere
          have hother : m ≠ succ := fun honward =>
            hjoins.wired.not_mem_of_gone hgone hsame (honward ▸ hmem)
          rw [replacing_of_ne hother]
          exact .raised (hsame ▸ hmem)
            (hcounting.renews _ _ _ (hjoins.renews n here hthere hlive) hcounted)

/-- What leads to a branch node that is split leads to its first half. -/
theorem Splits.found
    (hsplits : Splits g g' id)
    (hwired : g.Wired)
    (hbranch : (g.node id).kind ≠ .statement)
    (hcounting : Counting counts)
    (h : g.Found counts n) :
    g'.Found counts (replacing id g.size n) := by
  refine h.map hsplits.entry_eq fun n m hleads => ?_
  have hlive := (hleads.isLive hwired).1
  -- handlers that are split stand behind the others, as their first halves
  have handled {handlers : List NodeId} (hmem : m ∈ handlers) :
      replacing id g.size m ∈
        if id ∈ handlers then erase handlers id ++ [g.size] else handlers := by
    by_cases hthere : m = id
    · subst hthere
      simp [hmem, replacing_self]
    · rw [replacing_of_ne hthere]
      split
      · exact List.mem_append_left _ (mem_erase.2 ⟨hmem, hthere⟩)
      · exact hmem
  by_cases here : n = id
  · subst here
    rw [replacing_self]
    have hbetween : g'.LeadsOn counts g.size (g.size + 1) := .normal (by simp [hsplits.pre_succs])
    refine (Relation.ReflTransGen.single hbetween).tail ?_
    cases hleads with
    | normal hmem => exact .normal (hsplits.cond_succs ▸ List.mem_map_of_mem hmem)
    | raised hmem =>
        refine .raised (hsplits.cond_handlers ▸ handled hmem)
          (hcounting.busy _ (.inl fun hkind => ?_))
        rw [hsplits.cond_kind, NodeKind.remap_eq_statement_iff] at hkind
        exact hbranch hkind
  · rw [replacing_of_ne here]
    refine .single ?_
    cases hleads with
    | normal hmem => exact .normal (hsplits.succs_eq n here hlive ▸ List.mem_map_of_mem hmem)
    | raised hmem hcounted =>
        exact .raised (hsplits.handlerSuccs_eq n here hlive ▸ handled hmem)
          (hcounting.renews _ _ _ (hsplits.renews n here hlive) hcounted)

/-- With a branch node, both of its halves are found. -/
theorem Splits.forall_found
    (hsplits : Splits g g' id)
    (hwired : g.Wired)
    (hknown : g.isLive id = true)
    (hbranch : (g.node id).kind ≠ .statement)
    (hcounting : Counting counts)
    (h : ∀ n, g.isLive n = true → g.Found counts n) :
    ∀ n, g'.isLive n = true → g'.Found counts n := by
  intro n hlive
  have hfirst : g'.Found counts g.size := by
    have h := hsplits.found hwired hbranch hcounting (h id hknown)
    rwa [replacing_self] at h
  rw [hsplits.isLive_eq, Bool.or_eq_true, Bool.or_eq_true, beq_iff_eq, beq_iff_eq, Bool.and_eq_true,
    bne_iff_ne] at hlive
  rcases hlive with (rfl | rfl) | ⟨hother, hlive⟩
  · exact hfirst
  · exact hfirst.tail (.normal (by simp [hsplits.pre_succs]))
  · have h := hsplits.found hwired hbranch hcounting (h n hlive)
    rwa [replacing_of_ne hother] at h

end Edits

section Splitting

variable {counts : Node → Prop} {g g' : FlowGraph} {id succ n : NodeId} {P : FlowGraph → Prop}

/-- What splitting one branch node after another keeps. -/
theorem foldl_splitBranch_induction
    (hwired : ∀ g, P g → g.Wired)
    (hstep : ∀ g id, P g → g.isLive id = true → (g.node id).kind ≠ .statement →
      Splits g (g.splitBranch id) id → P (g.splitBranch id))
    {split : List NodeId}
    (hnodup : split.Nodup)
    (hbranches : ∀ c ∈ split, g.isLive c = true ∧ (g.node c).kind ≠ .statement)
    (hstart : P g) :
    P (split.foldl splitBranch g) := by
  induction split generalizing g with
  | nil => exact hstart
  | cons c split ih =>
      obtain ⟨hapart, hnodup⟩ := List.nodup_cons.1 hnodup
      obtain ⟨hlive, hbranch⟩ := hbranches c List.mem_cons_self
      have hsplits := splits_splitBranch (hwired g hstart) hlive
      rw [List.foldl_cons]
      refine ih hnodup (fun n hmem => ?_) (hstep g c hstart hlive hbranch hsplits)
      have hother : n ≠ c := fun hsame => hapart (hsame ▸ hmem)
      obtain ⟨hlive', hbranch'⟩ := hbranches n (List.mem_cons_of_mem c hmem)
      refine ⟨by simp [hsplits.isLive_eq, hother, hlive'], fun hkind => hbranch' ?_⟩
      rw [(hsplits.renews n hother hlive').kind_eq] at hkind
      exact NodeKind.remap_eq_statement_iff.1 hkind

/-- There is nothing to split, or the last step is to renew the index. -/
theorem splitBranches_cases
    (hwired : ∀ g, P g → g.Wired)
    (hstep : ∀ g id, P g → g.isLive id = true → (g.node id).kind ≠ .statement →
      Splits g (g.splitBranch id) id → P (g.splitBranch id))
    (hstart : P g) :
    g.splitBranches.2 = g ∨ ∃ g', P g' ∧ g.splitBranches.2 = g'.reindex := by
  have hlast := foldl_splitBranch_induction hwired hstep g.nodup_splitCandidates (fun c hmem => by
    obtain ⟨hlive, ⟨b, hkind⟩, -⟩ := mem_splitCandidates_iff.1 hmem
    exact ⟨hlive, by rw [hkind]; exact NodeKind.noConfusion⟩) hstart
  unfold FlowGraph.splitBranches
  simp only
  split
  · exact .inl rfl
  · exact .inr ⟨_, hlast, rfl⟩

/-- What splitting a branch node and the renewal of the index keep, splitting all of them keeps. -/
theorem splitBranches_induction
    (hwired : ∀ g, P g → g.Wired)
    (hstep : ∀ g id, P g → g.isLive id = true → (g.node id).kind ≠ .statement →
      Splits g (g.splitBranch id) id → P (g.splitBranch id))
    (hreindex : ∀ g, P g → P g.reindex)
    (hstart : P g) :
    P g.splitBranches.2 := by
  obtain hsame | ⟨g', hlast, hresult⟩ := splitBranches_cases hwired hstep hstart
  · rw [hsame]
    exact hstart
  · rw [hresult]
    exact hreindex g' hlast

/-- A statement has at most one successor. -/
def Straight (g : FlowGraph) : Prop :=
  ∀ n, g.isLive n = true → (g.node n).kind = .statement → (g.succs n).length ≤ 1

instance (g : FlowGraph) : Decidable g.Straight :=
  decidable_of_iff
    (∀ n ∈ g.liveIds, (g.node n).kind = .statement → (g.succs n).length ≤ 1)
    ⟨fun h n hlive => h n (mem_liveIds_iff.2 hlive), fun h n hmem => h n (mem_liveIds_iff.1 hmem)⟩

theorem Straight.split
    (h : g.Straight)
    (hsplits : Splits g g' id)
    (hbranch : (g.node id).kind ≠ .statement) :
    g'.Straight := by
  intro n hlive hkind
  rw [hsplits.isLive_eq, Bool.or_eq_true, Bool.or_eq_true, beq_iff_eq, beq_iff_eq, Bool.and_eq_true,
    bne_iff_ne] at hlive
  rcases hlive with (rfl | rfl) | ⟨hother, hlive⟩
  · simp [hsplits.pre_succs]
  · rw [hsplits.cond_kind, NodeKind.remap_eq_statement_iff] at hkind
    exact absurd hkind hbranch
  · rw [(hsplits.renews n hother hlive).kind_eq, NodeKind.remap_eq_statement_iff] at hkind
    rw [hsplits.succs_eq n hother hlive, List.length_map]
    exact h n hlive hkind

/-- A graph of statements with one way on, all of whose nodes are found. -/
structure AllFound (counts : Node → Prop) (g : FlowGraph) : Prop where
  wired : g.Wired
  straight : g.Straight
  found : ∀ n, g.isLive n = true → g.Found counts n

/-- Splitting all branch nodes cuts off no node. -/
theorem AllFound.splitBranches
    (h : AllFound counts g)
    (hcounting : Counting counts) :
    AllFound counts g.splitBranches.2 := by
  refine splitBranches_induction (fun _ hall => hall.wired)
    (fun g id hall hlive hbranch hsplits => ?_)
    (fun _ hall => ⟨hall.wired.reindex, hall.straight, fun n hlive => (hall.found n hlive).reindex⟩)
      h
  exact ⟨hsplits.wired, hall.straight.split hsplits hbranch,
    hsplits.forall_found hall.wired hlive hbranch hcounting hall.found⟩

theorem Straight.splitBranches
    (h : g.Straight)
    (hwired : g.Wired) :
    g.splitBranches.2.Wired ∧ g.splitBranches.2.Straight :=
  splitBranches_induction (P := fun g => g.Wired ∧ g.Straight) (fun _ hshape => hshape.1)
    (fun _ _ hshape _ hbranch hsplits => ⟨hsplits.wired, hshape.2.split hsplits hbranch⟩)
    (fun _ hshape => ⟨hshape.1.reindex, hshape.2⟩) ⟨hwired, h⟩

end Splitting

section Simplification

variable {counts : Node → Prop} {g g' : FlowGraph} {id succ n : NodeId}

theorem Straight.succs_eq
    (h : g.Straight)
    (hlive : g.isLive id = true)
    (hkind : (g.node id).kind = .statement)
    (hedge : succ ∈ g.succs id) :
    g.succs id = [succ] := by
  obtain ⟨m, honly⟩ := List.length_eq_one_iff.1
    (Nat.le_antisymm (h id hlive hkind) (List.length_pos_of_mem hedge))
  rw [honly] at hedge ⊢
  rw [List.mem_singleton.1 hedge]

theorem Straight.bypass
    (h : g.Straight)
    (hbypasses : Bypasses g g' id succ) :
    g'.Straight := by
  intro n hlive hkind
  obtain ⟨hother, hlive⟩ : n ≠ id ∧ g.isLive n = true := by simpa [hbypasses.isLive_eq] using hlive
  rw [(hbypasses.renews n hlive).kind_eq, NodeKind.remap_eq_statement_iff] at hkind
  rw [hbypasses.succs_eq n hother]
  exact (length_substitute_le id succ _).trans (h n hlive hkind)

theorem Straight.join
    (h : g.Straight)
    (hjoins : Joins g g' id succ)
    (hwired : g.Wired)
    (hedge : succ ∈ g.succs id)
    (hkind : (g.node id).kind = .statement)
    (hkind' : (g.node succ).kind = .statement) :
    g'.Straight := by
  intro n hlive hstatement
  obtain ⟨hother, hlive⟩ : n ≠ succ ∧ g.isLive n = true := by simpa [hjoins.isLive_eq] using hlive
  rw [hjoins.succs_eq n hother]
  split
  · next here =>
      subst here
      have honly := h.succs_eq hlive hkind hedge
      have hgone : erase [succ] succ = [] := by simp [erase]
      rw [honly, hgone, insertAll_of_disjoint (hwired.nodup_succs succ) (by simp), List.nil_append]
      exact h succ (hwired.live n succ (.inl hedge)).2 hkind'
  · next haway =>
      rw [(hjoins.renews n haway hother hlive).kind_eq,
        NodeKind.remap_eq_statement_iff] at hstatement
      exact h n hlive hstatement

/-- What an edit of the simplification keeps of a graph in which some nodes are found. -/
structure KeepsFound (counts : Node → Prop) (g g' : FlowGraph) : Prop where
  wired : g'.Wired
  straight : g'.Straight
  isLive : ∀ n, g'.isLive n = true → g.isLive n = true
  found : ∀ n, g'.isLive n = true → g.Found counts n → g'.Found counts n

theorem Compacts.keepsFound
    (hcompacts : Compacts g id g')
    (hwired : g.Wired)
    (hstraight : g.Straight)
    (hcounting : Counting counts)
    (hidle : ∀ n : Node, n.Idle → ¬ counts n) :
    KeepsFound counts g g' := by
  cases hcompacts with
  | @bypass succ rest hlive hkind hsuccs hempty hapart hbypasses =>
      have hedge : succ ∈ g.succs id := hsuccs ▸ List.mem_cons_self
      have hisLive (n : NodeId) (hthere : g'.isLive n = true) : n ≠ id ∧ g.isLive n = true := by
        simpa [hbypasses.isLive_eq] using hthere
      refine ⟨hbypasses.wired, hstraight.bypass hbypasses, fun n hthere => (hisLive n hthere).2,
        fun n hthere hfound => ?_⟩
      have hkept := hbypasses.found hwired (hstraight.succs_eq hlive hkind hedge) hapart
        (hidle _ ⟨hkind, hempty⟩) hcounting hfound
      rwa [replacing_of_ne (hisLive n hthere).1] at hkept
  | @join succ rest hlive hkind hsuccs hfilled hkind' hpreds hapart hinner handlers hjoins =>
      have hedge : succ ∈ g.succs id := hsuccs ▸ List.mem_cons_self
      have hisLive (n : NodeId) (hthere : g'.isLive n = true) : n ≠ succ ∧ g.isLive n = true := by
        simpa [hjoins.isLive_eq] using hthere
      refine ⟨hjoins.wired, hstraight.join hjoins hwired hedge hkind hkind',
        fun n hthere => (hisLive n hthere).2, fun n hthere hfound => ?_⟩
      have hkept := hjoins.found hwired hpreds hapart hfilled handlers hinner hcounting hfound
      rwa [replacing_of_ne (hisLive n hthere).1] at hkept

theorem KeepsFound.trans
    {g'' : FlowGraph}
    (h : KeepsFound counts g g')
    (h' : KeepsFound counts g' g'') :
    KeepsFound counts g g'' where
  wired := h'.wired
  straight := h'.straight
  isLive n hlive := h.isLive n (h'.isLive n hlive)
  found n hlive hfound := h'.found n hlive (h.found n (h'.isLive n hlive) hfound)

/-- Simplification cuts off no node to which a way leads without exceptions in idle nodes. -/
theorem Wired.compact_found
    (h : g.Wired)
    (hstraight : g.Straight)
    (hcounting : Counting counts)
    (hidle : ∀ n : Node, n.Idle → ¬ counts n) :
    KeepsFound counts g g.compact.2 := by
  refine compact_induction (P := KeepsFound counts g) (fun _ hkeeps => hkeeps.wired)
    (fun _ _ _ hkeeps hcompacts => hkeeps.trans
      (hcompacts.keepsFound hkeeps.wired hkeeps.straight hcounting hidle)) (fun _ hkeeps => ?_)
    ⟨h, hstraight, fun _ hlive => hlive, fun _ _ hfound => hfound⟩
  exact ⟨hkeeps.wired.reindex, hkeeps.straight, hkeeps.isLive,
    fun n hlive hfound => (hkeeps.found n hlive hfound).reindex⟩

end Simplification

section Cleaned

variable {g : FlowGraph} {n : NodeId}

/-- Every node can be reached from the entry. -/
def Connected (g : FlowGraph) : Prop :=
  ∀ n, g.isLive n = true → g.toDigraph.Reachable g.entry n

theorem Found.reachable
    {counts : Node → Prop}
    (h : g.Found counts n) :
    g.toDigraph.Reachable g.entry n := by
  induction h with
  | refl => exact .refl _ _
  | tail _ hleads ih =>
      cases hleads with
      | normal hmem => exact ih.step (List.mem_append_left _ hmem)
      | raised hmem => exact ih.step (List.mem_append_right _ hmem)

/-- Everything is found if all exceptions count. -/
theorem found_of_reachable
    (h : g.toDigraph.Reachable g.entry n) :
    g.Found (fun _ => True) n := by
  obtain ⟨nodes, hwalk⟩ := h
  induction hwalk with
  | here => exact .refl
  | step _ hedge ih =>
      exact ih.tail ((List.mem_append.1 hedge).elim .normal fun hmem => .raised hmem trivial)

/-- The order of a graph all of whose nodes can be reached has all of them. -/
theorem Connected.mem_order
    (h : g.Connected)
    (hlive : g.isLive n = true) :
    n ∈ g.reorder.order := by
  rw [(reorder_sameCode g).2, Digraph.reversePostorder, List.mem_reverse]
  exact mem_postOrder (h n hlive) hlive

/-- **What a cleanup cuts off.**  Splitting branch nodes leaves all nodes reachable.  Simplification
leaves those reachable to which a way leads that does not need an exception in a node that does
nothing.  If there is such a way to every node at the beginning, then all nodes that are left in the
end can be reached, and the order has them and what leads to them. -/
theorem cleanup_reachable
    (h : g.Wired)
    (hstraight : g.Straight) :
    (g.Connected → g.splitBranches.2.Connected) ∧
      (∀ n, g.splitBranches.2.Sustained n → g.splitBranches.2.compact.2.isLive n = true →
        g.splitBranches.2.compact.2.toDigraph.Reachable g.splitBranches.2.compact.2.entry n) ∧
      ((∀ n, g.isLive n = true → g.Sustained n) →
        g.splitBranches.2.compact.2.Connected ∧
          ∀ n, g.splitBranches.2.compact.2.isLive n = true →
            n ∈ g.splitBranches.2.compact.2.reorder.order ∧
              ∀ p ∈ g.splitBranches.2.compact.2.flowPreds n,
                p ∈ g.splitBranches.2.compact.2.reorder.order) := by
  obtain ⟨hwired', hstraight'⟩ := hstraight.splitBranches h
  have hcompacted := hwired'.compact_found hstraight' counting_busy fun _ hidle hbusy => hbusy hidle
  refine ⟨fun hconnected n hlive => ?_, fun n hsustained hlive => ?_, fun hsustained => ?_⟩
  · have hall : AllFound (fun _ => True) g :=
      ⟨h, hstraight, fun n hlive => found_of_reachable (hconnected n hlive)⟩
    exact ((hall.splitBranches counting_all).found n hlive).reachable
  · exact (hcompacted.found n hlive hsustained).reachable
  · have hall := (AllFound.mk h hstraight hsustained).splitBranches counting_busy
    have hconnected : g.splitBranches.2.compact.2.Connected := fun n hlive =>
      (hcompacted.found n hlive (hall.found n (hcompacted.isLive n hlive))).reachable
    refine ⟨hconnected, fun n hlive => ⟨hconnected.mem_order hlive, fun p hmem => ?_⟩⟩
    have hedge := (hcompacted.wired.wellFormed.mem_preds p n).1 hmem
    exact hconnected.mem_order (hcompacted.wired.live p n (List.mem_append.1 hedge)).1

/-- A node that stores something and an idle one behind it, under the same handler. -/
def sharedHandler : FlowGraph :=
  { FlowGraph.empty with
    slots := #[
      protectedSlot .statement [.monitorEnter (.var 0)] [1] [] [3] [],
      protectedSlot .statement [] [2] [0] [3] [],
      protectedSlot .ret [.ret none] [] [1] [] [],
      protectedSlot .ret [.ret none] [] [] [] [0, 1]] }

/-- A handler of an idle node alone.  It goes on where the idle node does. -/
def idleProtected : FlowGraph :=
  { FlowGraph.empty with
    slots := #[
      protectedSlot .statement [] [1] [] [2] [],
      protectedSlot .ret [.ret none] [] [0, 2] [] [],
      protectedSlot .statement [.monitorExit (.var 0)] [1] [] [] [0]] }

theorem sharedHandler_sustained
    (n : NodeId)
    (hlive : sharedHandler.isLive n = true) :
    sharedHandler.Sustained n := by
  have hfirst : sharedHandler.Sustained 0 := .refl
  have hsecond : sharedHandler.Sustained 1 := hfirst.tail (.normal (by decide))
  have hmem : n ∈ [0, 1, 2, 3] :=
    (by decide : sharedHandler.liveIds = [0, 1, 2, 3]) ▸ mem_liveIds_iff.2 hlive
  have hcases : n = 0 ∨ n = 1 ∨ n = 2 ∨ n = 3 := by simpa using hmem
  rcases hcases with rfl | rfl | rfl | rfl
  · exact hfirst
  · exact hsecond
  · exact hsecond.tail (.normal (by decide))
  · exact hfirst.tail (.raised (by decide) fun hidle => List.cons_ne_nil _ _ hidle.2)

/-- The idle node goes, and its handler is still reached from the other one. -/
theorem cleanup_reachable_sharedHandler :
    sharedHandler.Wired ∧ sharedHandler.Straight ∧
      sharedHandler.splitBranches.2.compact.2.liveIds = [0, 2, 3] ∧
      sharedHandler.splitBranches.2.compact.2.Connected := by
  have hwired : sharedHandler.Wired := by decide
  have hstraight : sharedHandler.Straight := by decide
  exact ⟨hwired, hstraight, by decide +kernel,
    ((cleanup_reachable hwired hstraight).2.2 sharedHandler_sustained).1⟩

/-- The idle node goes, and the handler is left without a way to it.  It stays among what leads to
the last node. -/
theorem idleProtected_strands :
    idleProtected.Wired ∧ idleProtected.Straight ∧ idleProtected.Connected ∧
      ¬ idleProtected.splitBranches.2.compact.2.Connected ∧
      2 ∈ idleProtected.splitBranches.2.compact.2.flowPreds 1 := by
  have hwired : idleProtected.Wired := by decide
  have hstraight : idleProtected.Straight := by decide
  refine ⟨hwired, hstraight, fun n hlive => ?_, fun hconnected => ?_, by decide +kernel⟩
  · have hentry : idleProtected.toDigraph.Reachable idleProtected.entry 0 := .refl _ _
    have hmem : n ∈ [0, 1, 2] :=
      (by decide : idleProtected.liveIds = [0, 1, 2]) ▸ mem_liveIds_iff.2 hlive
    have hcases : n = 0 ∨ n = 1 ∨ n = 2 := by simpa using hmem
    rcases hcases with rfl | rfl | rfl
    · exact hentry
    · exact hentry.step (by decide)
    · exact hentry.step (by decide)
  · -- nothing leads to the handler any more
    have hkept : idleProtected.splitBranches.2.compact.2.Wired := by decide +kernel
    have halone : idleProtected.splitBranches.2.compact.2.flowPreds 2 = [] := by decide +kernel
    have hapart : idleProtected.splitBranches.2.compact.2.entry ≠ 2 := by decide +kernel
    have handler := found_of_reachable (hconnected 2 (by decide +kernel))
    obtain hsame | ⟨m, -, hleads⟩ := Relation.ReflTransGen.cases_tail_iff _ _ _ |>.1 handler
    · exact hapart hsame.symm
    · have hmem : 2 ∈ idleProtected.splitBranches.2.compact.2.flowSuccs m := by
        cases hleads with
        | normal hmem => exact List.mem_append_left _ hmem
        | raised hmem => exact List.mem_append_right _ hmem
      have hback : m ∈ idleProtected.splitBranches.2.compact.2.flowPreds 2 :=
        (hkept.wellFormed.mem_preds m 2).2 hmem
      rw [halone] at hback
      exact List.not_mem_nil hback

end Cleaned

end FlowGraph
end DalvikDecompiler
