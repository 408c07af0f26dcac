import DalvikDecompiler.Chains.Basic
import DalvikDecompiler.Proofs.Chains.Reaching

/-!
# Exactness of chains

**Input.** Chains, and flow graphs whose instructions have places.

A link joins a variable, a definition of it and a use.  Chains keep every link
at both of its ends.

**Results.**
* What linking, unlinking and renaming do to the links of a use and of a
  definition.
* `mem_defs_ofGraph`, `mem_uses_ofGraph`: the links of a graph are those of the
  runs from its entry.
* `ofGraph_exact`: reaching definitions and chains are those along all walks.
-/

namespace DalvikDecompiler

open FlowGraph (placedSlot)
open Symbolic (VarId Instr)

@[simp] theorem Symbolic.Instr.mem_varsRead
    {ins : Instr}
    {v : VarId} :
    v ∈ ins.varsRead ↔ v ∈ ins.reads := by
  simp [Instr.varsRead]

/-- The links of the runs from the entry of a graph: an instruction that is run reads the variable
and the definition supplies it there. -/
def FlowGraph.Links (g : FlowGraph) (params : List VarId) (v : VarId) (d u : Loc) : Prop :=
  ∃ run ins, g.Executes run (ins, u) ∧ v ∈ ins.reads ∧ Supplied params v run d

namespace LinkMap

variable {m : LinkMap} {site other : DefSite} {locs : List Loc} {loc e : Loc}

theorem exists_of_mem_linked
    (h : e ∈ m.linked site) :
    ∃ locs, (site, locs) ∈ m ∧ e ∈ locs := by
  unfold linked at h
  cases hlookup : m.lookup site with
  | none => simp [hlookup] at h
  | some locs =>
      obtain ⟨front, behind, heq, -⟩ := List.lookup_eq_some_iff.mp hlookup
      exact ⟨locs, by simp [heq], by simpa [hlookup] using h⟩

theorem linked_insert :
    linked (OrderedMap.insert site locs m) other = if other = site then locs else
      m.linked other := by
  unfold linked
  rw [OrderedMap.lookup_insert]
  by_cases h : other = site
  · simp [h]
  · simp [h]

theorem linked_erase :
    linked (OrderedMap.erase site m) other = if other = site then [] else m.linked other := by
  unfold linked
  rw [OrderedMap.lookup_erase]
  by_cases h : other = site
  · simp [h]
  · simp [h]

theorem linked_add :
    (m.add site loc).linked other =
      if other = site then OrderedSet.insert (m.linked site) loc else m.linked other :=
  linked_insert

theorem linked_push :
    (m.push site loc).linked other =
      if other = site then m.linked site ++ [loc] else m.linked other :=
  linked_insert

/-- The link is dropped from the list of its site, and other sites keep theirs. -/
theorem linked_drop :
    (m.drop site loc).linked other =
      if other = site then OrderedSet.erase (m.linked site) loc else m.linked other := by
  unfold drop
  cases hsite : m.lookup site with
  | none =>
      by_cases h : other = site
      · simp [h, linked, hsite, OrderedSet.erase]
      · simp [h]
  | some locs =>
      have hlinked : m.linked site = locs := by simp [linked, hsite]
      cases hrest : OrderedSet.erase locs loc with
      | nil => simp [hrest, linked_erase, hlinked]
      | cons first rest => simp [hrest, linked_insert, hlinked]

theorem mem_linked_add :
    e ∈ (m.add site loc).linked other ↔ e ∈ m.linked other ∨ (other = site ∧ e = loc) := by
  rw [linked_add]
  by_cases h : other = site
  · simp [h]
  · simp [h]

theorem mem_linked_push :
    e ∈ (m.push site loc).linked other ↔ e ∈ m.linked other ∨ (other = site ∧ e = loc) := by
  rw [linked_push]
  by_cases h : other = site
  · simp [h]
  · simp [h]

theorem mem_linked_drop :
    e ∈ (m.drop site loc).linked other ↔ e ∈ m.linked other ∧ ¬(other = site ∧ e = loc) := by
  rw [linked_drop]
  by_cases h : other = site
  · simp [h]
  · simp [h]

end LinkMap

namespace Chains

/-- Every link is kept at both of its ends. -/
def Mutual (c : Chains) : Prop :=
  ∀ v d u, u ∈ c.uses v d ↔ d ∈ c.defs v u

variable {c : Chains} {v w : VarId} {d e u x : Loc}

@[simp] theorem mem_defs_empty :
    d ∈ empty.defs v u ↔ False := by
  simp [empty, defs, LinkMap.linked]

@[simp] theorem mem_uses_empty :
    u ∈ empty.uses v d ↔ False := by
  simp [empty, uses, LinkMap.linked]

theorem mem_defs_link :
    e ∈ (c.link v d u).defs w x ↔ e ∈ c.defs w x ∨ (w = v ∧ e = d ∧ x = u) := by
  simp only [defs, link, LinkMap.mem_linked_add, Prod.mk.injEq]
  grind

theorem mem_uses_link :
    x ∈ (c.link v d u).uses w e ↔ x ∈ c.uses w e ∨ (w = v ∧ e = d ∧ x = u) := by
  simp only [uses, link, LinkMap.mem_linked_add, Prod.mk.injEq]
  grind

theorem mem_defs_unlink :
    e ∈ (c.unlink v d u).defs w x ↔ e ∈ c.defs w x ∧ ¬(w = v ∧ e = d ∧ x = u) := by
  simp only [defs, unlink, LinkMap.mem_linked_drop, Prod.mk.injEq]
  grind

theorem mem_uses_unlink :
    x ∈ (c.unlink v d u).uses w e ↔ x ∈ c.uses w e ∧ ¬(w = v ∧ e = d ∧ x = u) := by
  simp only [uses, unlink, LinkMap.mem_linked_drop, Prod.mk.injEq]
  grind

theorem mem_foldl_unlink
    (ds : List Loc) :
    (e ∈ (ds.foldl (fun c d => c.unlink v d u) c).defs w x ↔
        e ∈ c.defs w x ∧ ¬(w = v ∧ e ∈ ds ∧ x = u)) ∧
      (x ∈ (ds.foldl (fun c d => c.unlink v d u) c).uses w e ↔
        x ∈ c.uses w e ∧ ¬(w = v ∧ e ∈ ds ∧ x = u)) := by
  induction ds generalizing c with
  | nil => simp
  | cons d ds ih =>
      simp only [List.foldl_cons, ih, mem_defs_unlink, mem_uses_unlink, List.mem_cons]
      constructor
      · grind
      · grind

theorem mem_defs_forgetUse :
    e ∈ (c.forgetUse v u).defs w x ↔ e ∈ c.defs w x ∧ ¬(w = v ∧ x = u) := by
  rw [forgetUse, (mem_foldl_unlink _).1]
  constructor
  · rintro ⟨h, hnot⟩
    refine ⟨h, ?_⟩
    rintro ⟨rfl, rfl⟩
    exact hnot ⟨rfl, h, rfl⟩
  · rintro ⟨h, hnot⟩
    exact ⟨h, fun h' => hnot ⟨h'.1, h'.2.2⟩⟩

theorem Mutual.forgetUse
    (hc : c.Mutual)
    (v : VarId)
    (u : Loc) :
    (c.forgetUse v u).Mutual := by
  intro w e x
  rw [mem_defs_forgetUse, Chains.forgetUse, (mem_foldl_unlink _).2, hc w e x]
  constructor
  · rintro ⟨h, hnot⟩
    refine ⟨h, ?_⟩
    rintro ⟨rfl, rfl⟩
    exact hnot ⟨rfl, h, rfl⟩
  · rintro ⟨h, hnot⟩
    exact ⟨h, fun h' => hnot ⟨h'.1, h'.2.2⟩⟩

section Adding

/-- A change of chains that adds certain links at both of their ends and does nothing else. -/
def Adds (f : Chains → Chains) (P : VarId → Loc → Loc → Prop) : Prop :=
  ∀ c v d u, (d ∈ (f c).defs v u ↔ d ∈ c.defs v u ∨ P v d u) ∧
    (u ∈ (f c).uses v d ↔ u ∈ c.uses v d ∨ P v d u)

theorem Adds.congr
    {f : Chains → Chains}
    {P Q : VarId → Loc → Loc → Prop}
    (h : Adds f P)
    (hiff : ∀ v d u, P v d u ↔ Q v d u) :
    Adds f Q := by
  intro c v d u
  rw [← hiff]
  exact h c v d u

theorem adds_link
    (v : VarId)
    (d u : Loc) :
    Adds (fun c => c.link v d u) fun w e x => w = v ∧ e = d ∧ x = u :=
  fun _ _ _ _ => ⟨mem_defs_link, mem_uses_link⟩

/-- Changes made one after another add what each of them adds. -/
theorem adds_foldl
    {α : Type}
    {f : Chains → α → Chains}
    {P : α → VarId → Loc → Loc → Prop}
    {xs : List α}
    (h : ∀ a, a ∈ xs → Adds (fun c => f c a) (P a)) :
    Adds (xs.foldl f) fun v d u => ∃ a, a ∈ xs ∧ P a v d u := by
  induction xs with
  | nil => simp [Adds]
  | cons a xs ih =>
      intro c v d u
      obtain ⟨hdefs, huses⟩ := h a (by simp) c v d u
      obtain ⟨hdefs', huses'⟩ := ih (fun b hb => h b (by simp [hb])) (f c a) v d u
      simp only [List.foldl_cons, hdefs', huses', hdefs, huses, List.mem_cons, exists_eq_or_imp,
        or_assoc, and_self]

end Adding

theorem mutual_of_adds
    {f : Chains → Chains}
    {P : VarId → Loc → Loc → Prop}
    (h : Adds f P)
    (hc : c.Mutual) :
    (f c).Mutual := by
  intro v d u
  rw [(h c v d u).1, (h c v d u).2, hc v d u]

/-- The chains of a graph gather what supplies each instruction of the order. -/
theorem adds_linkUses
    (g : FlowGraph)
    (r : Reaching)
    (id : NodeId)
    (entry : (Instr × Loc) × Nat) :
    Adds (fun c => linkUses g r id c entry) fun v d u =>
      v ∈ entry.1.1.reads ∧ d ∈ r.supplying g v id entry.2 ∧ u = entry.1.2 := by
  obtain ⟨⟨ins, loc⟩, position⟩ := entry
  have hinner : ∀ w, w ∈ ins.varsRead →
      Adds (fun c => (r.supplying g w id position).foldl (fun c d => c.link w d loc) c)
        fun v d u => ∃ e, e ∈ r.supplying g w id position ∧ v = w ∧ d = e ∧ u = loc :=
    fun w _ => adds_foldl fun d _ => adds_link w d loc
  refine (adds_foldl hinner).congr fun v d u => ?_
  constructor
  · rintro ⟨w, hw, e, he, rfl, rfl, rfl⟩
    exact ⟨Symbolic.Instr.mem_varsRead.mp hw, he, rfl⟩
  · rintro ⟨hv, hd, rfl⟩
    exact ⟨v, Symbolic.Instr.mem_varsRead.mpr hv, d, hd, rfl, rfl, rfl⟩

theorem adds_linkNodes
    (g : FlowGraph)
    (r : Reaching)
    (ids : List NodeId) :
    Adds (fun c => ids.foldl (fun c id => (g.code id).zipIdx.foldl (linkUses g r id) c) c)
      fun v d u => ∃ id, id ∈ ids ∧ ∃ entry, entry ∈ (g.code id).zipIdx ∧
        v ∈ entry.1.1.reads ∧ d ∈ r.supplying g v id entry.2 ∧ u = entry.1.2 :=
  adds_foldl fun id _ => adds_foldl fun entry _ => adds_linkUses g r id entry

/-- The chains of a graph have every link at both of its ends, whatever the graph is like. -/
theorem mutual_ofGraph
    (g : FlowGraph)
    (params : List VarId) :
    (ofGraph g params).Mutual :=
  mutual_of_adds (adds_linkNodes g (Reaching.compute g params) g.order) (c := empty)
    fun v d u => by simp

section OfGraph

variable {g : FlowGraph} {params : List VarId}

/-- Building the chains of a graph adds the links of its runs. -/
theorem adds_ofGraph
    (hg : g.Numbered) :
    Adds (fun c => g.order.foldl
      (fun c id => (g.code id).zipIdx.foldl (linkUses g (Reaching.compute g params) id) c) c)
      (g.Links params) := by
  refine (adds_linkNodes g (Reaching.compute g params) g.order).congr fun v d u => ?_
  constructor
  · rintro ⟨id, hid, ⟨⟨ins, loc⟩, position⟩, hentry, hreads, hd, rfl⟩
    obtain ⟨run, hrun, hsupplied⟩ := (Reaching.mem_supplying_iff hg hid).mp hd
    have hcode := List.mem_zipIdx_iff_getElem?.mp hentry
    exact ⟨run, ins, FlowGraph.executes_iff_runsTo.mpr ⟨id, position, hrun, hcode⟩, hreads,
      hsupplied⟩
  · rintro ⟨run, ins, hexec, hreads, hsupplied⟩
    obtain ⟨id, position, hrun, hcode⟩ := FlowGraph.executes_iff_runsTo.mp hexec
    have hid : id ∈ g.order := by
      obtain ⟨front, w, -⟩ := hrun
      exact hg.mem_order_of_walk w (by simp) (List.mem_of_getElem? hcode)
    exact ⟨id, hid, ((ins, u), position), List.mem_zipIdx_iff_getElem?.mpr hcode, hreads,
      (Reaching.mem_supplying_iff hg hid).mpr ⟨run, hrun, hsupplied⟩, rfl⟩

theorem mem_defs_ofGraph
    (hg : g.Numbered) :
    d ∈ (ofGraph g params).defs v u ↔ g.Links params v d u := by
  have hadds : Adds _ (g.Links params) := adds_ofGraph hg
  have h := (hadds empty v d u).1
  rwa [mem_defs_empty, false_or] at h

theorem mem_uses_ofGraph
    (hg : g.Numbered) :
    u ∈ (ofGraph g params).uses v d ↔ g.Links params v d u := by
  have hadds : Adds _ (g.Links params) := adds_ofGraph hg
  have h := (hadds empty v d u).2
  rwa [mem_uses_empty, false_or] at h

theorem links_iff_reaches :
    g.Links params v d u ↔
      ∃ n position ins, (g.code n)[position]? = some (ins, u) ∧ v ∈ ins.reads ∧
        g.Reaches params v d n position := by
  simp only [FlowGraph.reaches_iff_supplied]
  constructor
  · rintro ⟨run, ins, hexec, hreads, hsupplied⟩
    obtain ⟨n, position, hrun, hcode⟩ := FlowGraph.executes_iff_runsTo.mp hexec
    exact ⟨n, position, ins, hcode, hreads, run, hrun, hsupplied⟩
  · rintro ⟨n, position, ins, hcode, hreads, run, hrun, hsupplied⟩
    exact ⟨run, ins, FlowGraph.executes_iff_runsTo.mpr ⟨n, position, hrun, hcode⟩, hreads,
      hsupplied⟩

theorem mem_entering_iff_reaches
    (hg : g.Numbered)
    {n : NodeId} :
    d ∈ (Reaching.compute g params).entering g n ↔ ∃ v, g.Reaches params v d n 0 := by
  simp only [FlowGraph.reaches_iff_supplied]
  constructor
  · intro h
    have hplace := (List.mem_filter.mp h).1
    obtain ⟨v, hsite⟩ := (Reaching.mem_places Reaching.start_below_compute).mp hplace
    exact ⟨v, (Reaching.mem_entering_iff hg hsite).mp h⟩
  · rintro ⟨v, run, hrun, hsupplied⟩
    have hsite := Reaching.mem_sitesOf_of_supplied hg hrun hsupplied
    exact (Reaching.mem_entering_iff hg hsite).mpr ⟨run, hrun, hsupplied⟩

/-- **Exactness of chains.**  The sweeps end because nothing changes any more, whatever larger
bound they have; a place enters a node exactly if its definition reaches the node; and a
definition and a use are linked, at both of their ends, exactly if the use reads the variable and
the definition reaches its position. -/
theorem ofGraph_exact
    (g : FlowGraph)
    (params : List VarId)
    (hg : g.Numbered) :
    let r := Reaching.compute g params
    let c := ofGraph g params
    (g.order.foldl (Reaching.step g) r = r ∧
      ∀ sweeps, g.size * r.places.length < sweeps →
        Reaching.settle g sweeps (Reaching.start g params) = r) ∧
    (∀ d n, d ∈ r.entering g n ↔ ∃ v, g.Reaches params v d n 0) ∧
    ∀ v d u,
      (d ∈ c.defs v u ↔
        ∃ n position ins, (g.code n)[position]? = some (ins, u) ∧ v ∈ ins.reads ∧
          g.Reaches params v d n position) ∧
      (u ∈ c.uses v d ↔
        ∃ n position ins, (g.code n)[position]? = some (ins, u) ∧ v ∈ ins.reads ∧
          g.Reaches params v d n position) := by
  intro r c
  refine ⟨⟨Reaching.compute_stable, fun sweeps hsweeps => ?_⟩,
    fun d n => mem_entering_iff_reaches hg, fun v d u => ?_⟩
  · have hplaces : r.places = (Reaching.start g params).places :=
      Reaching.start_below_compute.places
    rw [hplaces] at hsweeps
    exact Reaching.settle_eq_of_le hsweeps Reaching.compute_stable
  · rw [← links_iff_reaches]
    exact ⟨mem_defs_ofGraph hg, mem_uses_ofGraph hg⟩

/-- A loop that counts with a variable, behind an assignment to it. -/
def countingLoop : FlowGraph :=
  { FlowGraph.empty with
    slots := #[placedSlot .statement [(.assign (some 0) (.const (.int 0)), 0)] [1] [],
      placedSlot .statement
        [(.assign (some 0) (.binary .add (.var 0) (.var 1) "I"), 1)] [1, 2] [0, 1],
      placedSlot .statement [(.ret (some (.var 0)), 2)] [] [1]]
    order := [0, 1, 2] }

/-- A node with an assignment that leads to a use and cannot be reached. -/
def strandedDefinition : FlowGraph :=
  { FlowGraph.empty with
    slots := #[placedSlot .statement [(.nop, 0)] [2] [],
      placedSlot .statement [(.assign (some 0) (.const (.int 7)), 1)] [2] [],
      placedSlot .statement [(.ret (some (.var 0)), 2)] [] [1, 0]]
    order := [0, 2] }

theorem countingLoop_numbered :
    countingLoop.Numbered := by
  refine ⟨FlowGraph.wellFormed_of_lt (by decide) (by decide), ?_, by decide, by decide, by decide⟩
  simp [countingLoop, FlowGraph.toDigraph, Digraph.reversePostorder, Digraph.postorder,
    Digraph.leaveOrder, FlowGraph.size, FlowGraph.flowSuccs, FlowGraph.succs,
    FlowGraph.handlerSuccs, FlowGraph.empty, placedSlot, List.range_succ]

theorem strandedDefinition_numbered :
    strandedDefinition.Numbered := by
  refine ⟨FlowGraph.wellFormed_of_lt (by decide) (by decide), ?_, by decide, by decide, by decide⟩
  simp [strandedDefinition, FlowGraph.toDigraph, Digraph.reversePostorder, Digraph.postorder,
    Digraph.leaveOrder, FlowGraph.size, FlowGraph.flowSuccs, FlowGraph.succs,
    FlowGraph.handlerSuccs, FlowGraph.empty, placedSlot, List.range_succ]

/-- The sum read at the head of the loop is the start value or the last sum. -/
theorem ofGraph_exact_countingLoop :
    countingLoop.Numbered ∧
      (Chains.ofGraph countingLoop [1]).defs 0 1 = [0, 1] ∧
      ∀ v d u, d ∈ (Chains.ofGraph countingLoop [1]).defs v u ↔
        ∃ n position ins, (countingLoop.code n)[position]? = some (ins, u) ∧ v ∈ ins.reads ∧
          countingLoop.Reaches [1] v d n position :=
  ⟨countingLoop_numbered, by cbv, fun v d u =>
    ((ofGraph_exact countingLoop [1] countingLoop_numbered).2.2 v d u).1⟩

/-- A definition in a node that cannot be reached is left out, although it leads to a use on a
walk that does not define its variable again. -/
theorem strandedDefinition_not_linked :
    strandedDefinition.Numbered ∧
      ((List.range 3).flatMap fun id => (strandedDefinition.node id).locs).Nodup ∧
      strandedDefinition.ReachesFrom 0 1 1 2 0 ∧
      1 ∉ (Reaching.compute strandedDefinition []).entering strandedDefinition 2 ∧
      1 ∉ (ofGraph strandedDefinition []).defs 0 2 := by
  refine ⟨strandedDefinition_numbered, by decide, ?_, by decide +kernel, by decide +kernel⟩
  refine ⟨[1], .assign (some 0) (.const (.int 7)), [], [], ?_, ?_, ?_, rfl, by simp⟩
  · exact Digraph.Walk.here.step (by decide)
  · exact List.mem_of_getElem? (i := 0) rfl
  · rfl

end OfGraph

end Chains
end DalvikDecompiler
