import DalvikDecompiler.Chains.Declaration
import DalvikDecompiler.Proofs.Chains.Amending
import DalvikDecompiler.Proofs.Chains.Splitting
import DalvikDecompiler.Proofs.Digraph.Reducibility

/-!
# Places of declarations

**Input.** A graph in which no variable is read before it is defined, with its
chains and its dominator tree.

A variable is declared for its definitions outside of handlers that have a use.
What dominates the nodes of these definitions dominates every use that only they
supply: a walk to such a use passes the definition that supplies it, and what
dominates the node of this definition before that.

**Results.**
* `mem_defNodes`: the nodes for which a variable is declared.
* `declares_place`: what placing declarations does to a node.
* `exists_placed`: a variable is declared at the nearest node that dominates all of
  its definitions outside of handlers, unless it is defined there.
-/

namespace DalvikDecompiler

open Symbolic (VarId Variables Instr)

namespace Declaration

/-- A node outside of handlers holds a definition of a variable that supplies a use. -/
def Defines (g : FlowGraph) (params : List VarId) (v : VarId) (n : NodeId) : Prop :=
  (g.node n).inCatch = false ∧ ∃ d u, d ∈ (g.node n).locs ∧ g.Links params v d u

/-- A node holds a use of a variable that no definition in a handler supplies. -/
def ReadsOutside (g : FlowGraph) (params : List VarId) (v : VarId) (n : NodeId) : Prop :=
  ∃ ins u, (ins, u) ∈ g.code n ∧ v ∈ ins.reads ∧
    ∀ d m, g.Links params v d u → d ∈ (g.node m).locs → (g.node m).inCatch = false

/-- A variable has its place in a node: the nearest one that dominates its used definitions outside
of handlers.  Unless one of them is in this node, the node declares the variable. -/
structure Placed (g : FlowGraph) (params : List VarId) (vars : Variables) (c : Chains)
    (tree : DominatorTree) (v : VarId) (home : NodeId) : Prop where
  computed : tree.commonDominatorOf (((defNodes g vars c).lookup v).getD []) = some home
  reachable : g.toDigraph.Reachable g.entry home
  dominates_defines : ∀ n, Defines g params v n → g.toDigraph.Dominates home n
  dominates_reads : ∀ n, ReadsOutside g params v n → g.toDigraph.Dominates home n
  nearest : ∀ n, g.toDigraph.Dominates home n →
    (∀ m, Defines g params v m → g.toDigraph.Dominates n m) → n = home
  declares_iff : ∀ n, v ∈ ((place g vars c tree).node n).declares ↔
    v ∈ (g.node n).declares ∨ n = home ∧ ¬Defines g params v home

variable {g : FlowGraph} {params : List VarId} {vars : Variables} {c : Chains}
  {tree : DominatorTree} {v w : VarId} {n : NodeId}

section Collecting

/-- Note the node of a definition. -/
def note (g : FlowGraph) (vars : Variables) (found : List (VarId × List NodeId)) (site : DefSite) :
    List (VarId × List NodeId) :=
  match nodeOf? g vars site with
  | none => found
  | some id =>
      OrderedMap.insert site.1 (OrderedSet.insert ((found.lookup site.1).getD []) id) found

theorem nodup_keys_note
    {found : List (VarId × List NodeId)}
    (h : (found.map Prod.fst).Nodup)
    (site : DefSite) :
    ((note g vars found site).map Prod.fst).Nodup := by
  unfold note
  split
  · exact h
  · exact OrderedMap.nodup_keys_insert h

theorem mem_lookup_note
    {found : List (VarId × List NodeId)}
    {site : DefSite} :
    n ∈ ((note g vars found site).lookup v).getD [] ↔
      n ∈ (found.lookup v).getD [] ∨ site.1 = v ∧ nodeOf? g vars site = some n := by
  unfold note
  cases hnode : nodeOf? g vars site with
  | none => simp
  | some id =>
      by_cases hv : v = site.1
      · subst hv
        simp [eq_comm]
      · have hv' : (v == site.1) = false := by simpa using hv
        simp [hv', Ne.symm hv]

theorem mem_lookup_foldl_note
    (sites : List DefSite)
    (found : List (VarId × List NodeId)) :
    n ∈ ((sites.foldl (note g vars) found).lookup v).getD [] ↔
      n ∈ (found.lookup v).getD [] ∨ ∃ d, (v, d) ∈ sites ∧ nodeOf? g vars (v, d) = some n := by
  induction sites generalizing found with
  | nil => simp
  | cons site sites ih =>
      obtain ⟨w, e⟩ := site
      rw [List.foldl_cons, ih, mem_lookup_note, or_assoc]
      refine or_congr_right ?_
      constructor
      · rintro (⟨rfl, hnode⟩ | ⟨d, hd, hnode⟩)
        · exact ⟨e, List.mem_cons_self, hnode⟩
        · exact ⟨d, List.mem_cons_of_mem _ hd, hnode⟩
      · rintro ⟨d, hd, hnode⟩
        rcases List.mem_cons.mp hd with heq | hd
        · obtain ⟨rfl, rfl⟩ := Prod.mk.inj heq
          exact Or.inl ⟨rfl, hnode⟩
        · exact Or.inr ⟨d, hd, hnode⟩

theorem nodup_keys_defNodes :
    ((defNodes g vars c).map Prod.fst).Nodup :=
  List.foldlRecOn (motive := fun found : List (VarId × List NodeId) => (found.map Prod.fst).Nodup)
    _ (note g vars) List.nodup_nil fun _ h site _ => nodup_keys_note h site

theorem nodeOf?_eq_some_iff
    (hg : g.Indexed)
    {d : Loc} :
    nodeOf? g vars (v, d) = some n ↔
      vars.isParam v = false ∧ d ∈ (g.node n).locs ∧ (g.node n).inCatch = false := by
  unfold nodeOf?
  split
  · rename_i hskipped
    refine iff_of_false (by simp) ?_
    rintro ⟨hv, hd, -⟩
    have hnonneg := hg.numbered.nonneg n (hg.mem_order n d hd) d hd
    simp [hv, Int.not_lt.mpr hnonneg] at hskipped
  · rename_i hkept
    have hv : vars.isParam v = false := by
      simp only [Bool.or_eq_true, not_or, Bool.not_eq_true] at hkept
      exact hkept.2
    simp [Option.filter_eq_some_iff, hg.nodeAt_iff, hv]

theorem mem_definitionsInUse_iff
    (hc : c.Tracks g params)
    (hused : c.Occupied)
    {d : Loc} :
    (v, d) ∈ c.definitionsInUse ↔ ∃ u, g.Links params v d u := by
  constructor
  · intro hmem
    obtain ⟨u, hu⟩ := hused.linked hc.mutually hmem
    exact ⟨u, (hc.mem_defs_iff v d u).mp hu⟩
  · rintro ⟨u, hlink⟩
    have huse : u ∈ c.usesAt.linked (v, d) :=
      (hc.mutually v d u).mpr ((hc.mem_defs_iff v d u).mpr hlink)
    obtain ⟨locs, hentry, -⟩ := LinkMap.exists_of_mem_linked huse
    exact List.mem_mergeSort.mpr (List.mem_map_of_mem hentry)

/-- The nodes for which a variable is declared are those outside of handlers with a used
definition. -/
theorem mem_defNodes
    (hc : c.Tracks g params)
    (hused : c.Occupied)
    (hv : vars.isParam v = false) :
    n ∈ ((defNodes g vars c).lookup v).getD [] ↔ Defines g params v n := by
  have hfold : n ∈ ((defNodes g vars c).lookup v).getD [] ↔ _ :=
    mem_lookup_foldl_note c.definitionsInUse []
  rw [hfold]
  simp only [List.lookup_nil, Option.getD_none, List.not_mem_nil, false_or,
    mem_definitionsInUse_iff hc hused, nodeOf?_eq_some_iff hc.indexed, hv, true_and, Defines]
  constructor
  · rintro ⟨d, ⟨u, hlink⟩, hd, houtside⟩
    exact ⟨houtside, d, u, hd, hlink⟩
  · rintro ⟨houtside, d, u, hd, hlink⟩
    exact ⟨d, ⟨u, hlink⟩, hd, houtside⟩

end Collecting

section Placing

theorem mem_all_iff :
    .declare n v ∈ all g vars c tree ↔
      ∃ nodes, (defNodes g vars c).lookup v = some nodes ∧ node? tree nodes = some n := by
  unfold all
  rw [List.mem_filterMap]
  constructor
  · rintro ⟨⟨w, nodes⟩, hentry, hnode⟩
    obtain ⟨id, hid, hedit⟩ := Option.map_eq_some_iff.mp hnode
    obtain ⟨rfl, rfl⟩ := Edit.declare.inj hedit
    exact ⟨nodes, (OrderedMap.mem_iff_lookup_eq_some nodup_keys_defNodes).mp hentry, hid⟩
  · rintro ⟨nodes, hlookup, hnode⟩
    exact ⟨(v, nodes), (OrderedMap.mem_iff_lookup_eq_some nodup_keys_defNodes).mpr hlookup,
      Option.map_eq_some_iff.mpr ⟨n, hnode, rfl⟩⟩

theorem mem_declares_modifyNode
    {id : NodeId} :
    v ∈ ((g.modifyNode id fun node => node.declare w).node n).declares ↔
      v ∈ (g.node n).declares ∨ n < g.size ∧ n = id ∧ v = w := by
  by_cases hid : id < g.size
  · rw [FlowGraph.node_modifyNode g n _ hid]
    by_cases hn : n = id
    · subst hn
      simp [Node.declare, hid]
    · simp [hn]
  · have hnode : (g.modifyNode id fun node => node.declare w).node n = g.node n := by
      rw [FlowGraph.node, FlowGraph.node, FlowGraph.slots_modifyNode]
      cases hslot : g.slots[n]? with
      | none => rfl
      | some slot =>
          have hn : n ≠ id := by
            rintro rfl
            exact hid (Array.getElem?_eq_some_iff.mp hslot).1
          simp [hn]
    rw [hnode, or_iff_left]
    rintro ⟨hn, rfl, -⟩
    exact hid hn

/-- A node declares what it declared before, and what is placed in it. -/
theorem declares_place :
    v ∈ ((place g vars c tree).node n).declares ↔
      v ∈ (g.node n).declares ∨ n < g.size ∧ .declare n v ∈ all g vars c tree := by
  have hdeclares : ∀ edit, edit ∈ all g vars c tree → ∃ id w, edit = .declare id w := by
    intro edit hedit
    obtain ⟨entry, -, hnode⟩ := List.mem_filterMap.mp hedit
    obtain ⟨id, -, rfl⟩ := Option.map_eq_some_iff.mp hnode
    exact ⟨id, entry.1, rfl⟩
  unfold place
  generalize all g vars c tree = edits at hdeclares
  induction edits generalizing g with
  | nil => simp
  | cons edit edits ih =>
      obtain ⟨⟨id, w, rfl⟩, hrest⟩ := List.forall_mem_cons.mp hdeclares
      refine (ih hrest).trans ?_
      rw [Edit.perform, mem_declares_modifyNode, FlowGraph.size_modifyNode, or_assoc, ← and_or_left,
        List.mem_cons, Edit.declare.injEq]

end Placing

section Homes

theorem lt_size_of_reachable
    {d : Digraph}
    {a b : NodeId}
    (hd : d.WellFormed)
    (h : d.Reachable a b)
    (hb : b < d.size) :
    a < d.size := by
  obtain ⟨nodes, hwalk⟩ := h
  induction hwalk with
  | here => exact hb
  | step _ hsucc ih => exact ih (hd.source_lt _ _ hsucc)

/-- What dominates all definitions of a variable outside of handlers dominates a use that only these
supply. -/
theorem dominates_of_readsOutside
    {home : NodeId}
    (hdefined : g.Defined params)
    (hv : v ∉ params)
    (hhome : ∀ m, Defines g params v m → g.toDigraph.Dominates home m)
    (hreads : ReadsOutside g params v n) :
    g.toDigraph.Dominates home n := by
  intro nodes hwalk
  obtain ⟨ins, u, hcode, hread, houtside⟩ := hreads
  obtain ⟨front, rfl⟩ := hwalk.exists_eq_append
  obtain ⟨before, after, hsplit⟩ := List.append_of_mem hcode
  have hexec : g.Executes (g.trace front ++ before) (ins, u) :=
    ⟨n, _, after, hwalk, by rw [FlowGraph.trace_append, FlowGraph.trace_singleton, hsplit,
      List.append_assoc]⟩
  obtain ⟨d, hsupplied⟩ := hdefined _ ins u v hexec hread
  have hlink : g.Links params v d u := ⟨_, ins, hexec, hread, hsupplied⟩
  have hlast : lastDefinition v (g.trace front ++ before) = some d := by
    rcases hsupplied with hlast | ⟨-, hargument⟩
    · exact hlast
    · obtain ⟨index, hindex, -⟩ := mem_argumentSites.mp hargument
      exact absurd (List.mem_of_getElem? hindex) hv
  -- the definition stands in a node of the walk
  obtain ⟨definition, hmem, -⟩ := exists_mem_of_lastDefinition hlast
  have hon : ∃ m, m ∈ front ++ [n] ∧ (definition, d) ∈ g.code m := by
    rcases List.mem_append.mp hmem with hmem | hmem
    · obtain ⟨m, hm, hcode'⟩ := List.mem_flatMap.mp hmem
      exact ⟨m, List.mem_append_left _ hm, hcode'⟩
    · exact ⟨n, by simp, by rw [hsplit]; exact List.mem_append_left _ hmem⟩
  obtain ⟨m, hm, hcode'⟩ := hon
  have hd : d ∈ (g.node m).locs := (List.of_mem_zip hcode').2
  have hdominates := hhome m ⟨houtside d m hlink hd, d, u, hd, hlink⟩
  obtain ⟨start, rest, heq⟩ := List.append_of_mem hm
  have hbefore := hdominates _ (hwalk.split heq).1
  rw [heq]
  rcases List.mem_append.mp hbefore with hbefore | hbefore
  · exact List.mem_append_left _ hbefore
  · rw [List.mem_singleton.mp hbefore]
    exact List.mem_append_right _ List.mem_cons_self

/-- **Declarations dominate what they declare.**  Take any graph in which no variable is read before
it is defined, chains that hold its links and an exact dominator tree.  A variable that is no
argument and has a used definition outside of handlers has its place in one node. -/
theorem exists_placed
    (hdefined : g.Defined params)
    (hc : c.Tracks g params)
    (hused : c.Occupied)
    (htree : DominatorTree.Exact g.toDigraph tree)
    (hparams : ∀ v, v ∈ params → vars.isParam v = true)
    (hv : vars.isParam v = false)
    (hsome : ∃ n, Defines g params v n) :
    ∃ home, Placed g params vars c tree v home := by
  have hg := hc.indexed
  have hnodes : ∀ n, n ∈ ((defNodes g vars c).lookup v).getD [] ↔ Defines g params v n := fun n =>
    mem_defNodes hc hused hv
  have horder : ∀ n, Defines g params v n → g.toDigraph.Reachable g.entry n ∧ n < g.size := by
    rintro n ⟨-, d, u, hd, -⟩
    exact hg.numbered.mem_order_iff.mp (hg.mem_order n d hd)
  have hpair : ∀ a b, g.toDigraph.Reachable g.entry a → g.toDigraph.Reachable g.entry b →
      g.toDigraph.Reachable g.entry (tree.commonDominator a b) ∧
        ∀ d, g.toDigraph.Dominates d (tree.commonDominator a b) ↔
          g.toDigraph.Dominates d a ∧ g.toDigraph.Dominates d b := by
    intro a b ha hb
    have hiff := fun d => htree.dominates_commonDominator_iff a b d ha hb
    have hself : g.toDigraph.Dominates (tree.commonDominator a b) (tree.commonDominator a b) :=
      fun _ hwalk => hwalk.target_mem
    exact ⟨((hiff _).mp hself).1.reachable ha, hiff⟩
  obtain ⟨first, hfirst⟩ := hsome
  have hne : ((defNodes g vars c).lookup v).getD [] ≠ [] :=
    List.ne_nil_of_mem ((hnodes first).mpr hfirst)
  obtain ⟨home, hcommon, hreachable, hiff⟩ := DominatorTree.exists_commonDominatorOf_of_pairs
    hpair hne fun n hn => (horder n ((hnodes n).mp hn)).1
  have hdefines : ∀ n, Defines g params v n → g.toDigraph.Dominates home n := fun n hn =>
    (hiff home).mp (fun _ hwalk => hwalk.target_mem) n ((hnodes n).mpr hn)
  have hv' : v ∉ params := fun hmem => by
    rw [hparams v hmem] at hv
    cases hv
  refine ⟨home, hcommon, hreachable, hdefines, fun n hn =>
    dominates_of_readsOutside hdefined hv' hdefines hn, fun n hn hall => ?_, fun n => ?_⟩
  · have habove : g.toDigraph.Dominates n home :=
      (hiff n).mpr fun m hm => hall m ((hnodes m).mp hm)
    exact habove.antisymm hreachable hn
  · have hsize : home < g.size := by
      obtain ⟨⟨nodes, hwalk⟩, hlt⟩ := horder first hfirst
      obtain ⟨front, behind, heq⟩ := List.append_of_mem (hdefines first hfirst nodes hwalk)
      exact lt_size_of_reachable hg.numbered.wellFormed ⟨_, (hwalk.split heq).2⟩ hlt
    obtain ⟨nodes, hlookup⟩ : ∃ nodes, (defNodes g vars c).lookup v = some nodes := by
      cases hlookup : (defNodes g vars c).lookup v with
      | none => simp [hlookup] at hne
      | some nodes => exact ⟨nodes, rfl⟩
    rw [hlookup, Option.getD_some] at hcommon hnodes
    rw [declares_place, mem_all_iff]
    refine or_congr_right ?_
    simp only [hlookup, Option.some.injEq, exists_eq_left', node?, hcommon,
      Option.filter_eq_some_iff,
      ← hnodes home]
    constructor
    · rintro ⟨-, rfl, hnot⟩
      exact ⟨rfl, by simpa using hnot⟩
    · rintro ⟨rfl, hnot⟩
      exact ⟨hsize, rfl, by simpa using hnot⟩

end Homes

end Declaration
end DalvikDecompiler
