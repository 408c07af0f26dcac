import DalvikDecompiler.Proofs.Digraph.DerivedSequence
import DalvikDecompiler.Proofs.FlowGraph.LoopBodies
import DalvikDecompiler.Proofs.FlowGraph.References
import DalvikDecompiler.Proofs.FlowGraph.Regions
import DalvikDecompiler.Proofs.FlowGraph.StructuredDominance

/-!
# The references of a structured graph

**Input.** An intact flow graph with a tree that names nodes of the graph.

Marks are taken from edges, from the tree, from intervals and from other marks, all of which are
about nodes of the graph.  A merge puts its new node in the place of two in graph and tree, and the
condition of the new node is the only thing that goes on to name the two.  Regions are entered
through new nodes, and nothing goes.

**Results.**
* `Intact.marked`, `Intact.prepared`: marks and merges leave a graph intact.
* `Intact.protect`: so does entering regions.
* `Intact.structured`: so does structuring as a whole.
-/

namespace DalvikDecompiler

open Edges (replacing)

namespace NodeKind

variable {kind : NodeKind} {r : NodeId}

theorem mem_keys_foldl_addKey
    {entries : List (Int32 × NodeId)}
    {arms : List (NodeId × List Int32)}
    (hmem : r ∈ (entries.foldl SwitchTable.addKey arms).map Prod.fst) :
    r ∈ arms.map Prod.fst ∨ r ∈ entries.map Prod.snd := by
  induction entries generalizing arms with
  | nil => exact .inl hmem
  | cons entry entries ih =>
      rcases ih hmem with hmem | hmem
      · rw [SwitchTable.addKey, OrderedMap.keys_insert, OrderedSet.mem_insert] at hmem
        rcases hmem with hmem | rfl
        · exact .inl hmem
        · exact .inr List.mem_cons_self
      · exact .inr (List.mem_cons_of_mem _ hmem)

/-- A switch whose targets have been put in order has no others. -/
theorem refs_order
    {s : SwitchTable}
    (hmem : r ∈ (NodeKind.switch s.order).refs) :
    r ∈ (NodeKind.switch s).refs := by
  have hlisted {cases : List NodeId}
      (hmem : r ∈ ((s.keys.zip cases).foldl SwitchTable.addKey []).map Prod.fst) : r ∈ cases := by
    rcases mem_keys_foldl_addKey hmem with hnone | hmem
    · cases hnone
    · obtain ⟨entry, hthere, rfl⟩ := List.mem_map.1 hmem
      exact (List.of_mem_zip hthere).2
  obtain ⟨keys, cases, fallback, arms⟩ := s
  simp only [refs, List.mem_append, Option.mem_toList] at hmem ⊢
  unfold SwitchTable.order at hmem
  cases cases with
  | nil =>
      rcases hmem with (hmem | hmem) | hmem
      · exact .inl (.inl (OrderedSet.mem_ofList.1 hmem))
      · exact .inl (.inr hmem)
      · exact .inl (.inl (hlisted hmem))
  | cons first rest =>
      by_cases hmore : keys.length < (first :: rest).length
      · simp only [if_pos hmore, OrderedSet.mem_ofList] at hmem
        rcases hmem with (hmem | hmem) | hmem
        · exact .inl (.inl (List.mem_cons_of_mem _ hmem))
        · exact .inl (.inl (Option.some.inj hmem ▸ List.mem_cons_self))
        · exact .inl (.inl (List.mem_cons_of_mem _ (hlisted hmem)))
      · simp only [if_neg hmore, OrderedSet.mem_ofList] at hmem
        rcases hmem with (hmem | hmem) | hmem
        · exact .inl (.inl hmem)
        · exact .inl (.inr hmem)
        · exact .inl (.inl (hlisted hmem))

theorem refs_mapSwitch_order
    (hmem : r ∈ (kind.mapSwitch SwitchTable.order).refs) :
    r ∈ kind.refs := by
  induction kind with
  | loop inner _ ih => exact ih hmem
  | switch s => exact refs_order hmem
  | _ => exact hmem

theorem catches_mapSwitch
    (f : SwitchTable → SwitchTable) :
    (kind.mapSwitch f).catches = kind.catches := by
  induction kind with
  | loop inner _ ih => exact ih
  | _ => rfl

theorem condition?_mapSwitch
    (f : SwitchTable → SwitchTable) :
    (kind.mapSwitch f).condition? = kind.condition? := by
  induction kind with
  | loop inner _ ih => exact ih
  | _ => rfl

end NodeKind

namespace FlowGraph

section Choices

variable {g : FlowGraph} {caught : NodeId → Prop} {nodes : List NodeId} {n id : NodeId}

/-- What is chosen out of a list is in it. -/
theorem mem_of_foldl_choice
    {pick : Option NodeId → NodeId → Option NodeId}
    (hchoice : ∀ best n, pick best n = best ∨ pick best n = some n)
    (nodes : List NodeId)
    {best : Option NodeId}
    (hfound : nodes.foldl pick best = some n) :
    best = some n ∨ n ∈ nodes := by
  induction nodes generalizing best with
  | nil => exact .inl hfound
  | cons m nodes ih =>
      rcases ih hfound with hlast | hmem
      · rcases hchoice best m with hsame | hnew
        · exact .inl (hsame.symm.trans hlast)
        · exact .inr (Option.some.inj (hnew.symm.trans hlast) ▸ List.mem_cons_self)
      · exact .inr (List.mem_cons_of_mem m hmem)

theorem mem_of_lastByNumber
    (hfound : g.lastByNumber nodes = some n) :
    n ∈ nodes := by
  refine (mem_of_foldl_choice (fun best m => ?_) nodes hfound).resolve_left nofun
  cases best with
  | none => exact .inr rfl
  | some best => exact (ite_eq_or_eq _ _ _).symm

theorem mem_of_firstByNumber
    (hfound : g.firstByNumber nodes = some n) :
    n ∈ nodes := by
  refine (mem_of_foldl_choice (fun best m => ?_) nodes hfound).resolve_left nofun
  cases best with
  | none => exact .inr rfl
  | some best => exact (ite_eq_or_eq _ _ _).symm

theorem isLive_of_joinBelow
    {tree : DominatorTree}
    (hfound : g.joinBelow tree id = some n) :
    g.isLive n = true := by
  have hkept := (List.mem_filter.1 (mem_of_lastByNumber hfound)).2
  exact (Bool.and_eq_true_iff.1 hkept).1

/-- Several nodes get the same mark. -/
theorem Intact.foldl_note
    {f : Node → Node}
    (h : g.Intact caught)
    (hkind : ∀ node, (f node).kind = node.kind)
    (hnotes : ∀ node, ∀ r ∈ (f node).notes, r ∈ node.notes ∨ g.isLive r = true)
    (ids : List NodeId) :
    (ids.foldl (fun g id => g.modifyNode id f) g).Intact caught := by
  induction ids generalizing g with
  | nil => exact h
  | cons id ids ih =>
      refine ih (h.note (hkind _) fun hlive r hmem => ?_) fun node r hmem => by
        simpa using hnotes node r hmem
      exact (hnotes _ r hmem).elim (h.notes_live hlive r) fun hlive => hlive

end Choices

section Switches

variable {g : FlowGraph} {caught : NodeId → Prop} {tree : DominatorTree}

theorem Intact.markSwitch
    {waiting : List NodeId}
    (h : g.Intact caught)
    (id : NodeId) :
    (markSwitch tree (g, waiting) id).1.Intact caught := by
  have hordered {g : FlowGraph} (h : g.Intact caught) :
      (g.modifyNode id fun n => { n with kind := n.kind.mapSwitch SwitchTable.order }).Intact
        caught := by
    refine h.modifyNode (fun hlive r hmem => ?_) (fun hlive r hmem => ?_)
      (NodeKind.condition?_mapSwitch _)
    · rcases List.mem_append.1 hmem with hmem | hmem
      · exact h.refs_live hlive r (List.mem_append_left _ (NodeKind.refs_mapSwitch_order hmem))
      · exact h.notes_live hlive r hmem
    · exact h.refers.catches id hlive r
        (NodeKind.catches_mapSwitch _ ▸ hmem)
  unfold FlowGraph.markSwitch
  dsimp only
  refine hordered ?_
  split
  · next follow hfound =>
      refine h.foldl_note (f := fun n => { n with switchFollow := some follow }) (fun _ => rfl)
        (fun node r hmem => ?_) (id :: waiting)
      have hlive := isLive_of_joinBelow hfound
      simp only [Node.notes, List.mem_append, Option.mem_toList] at hmem ⊢
      grind
  · exact h

theorem Intact.markSwitches
    (h : g.Intact caught)
    (tree : DominatorTree) :
    (g.markSwitches tree).Intact caught :=
  List.foldlRecOn (motive := fun state : FlowGraph × List NodeId => state.1.Intact caught) _ _ h
    fun _ h id _ => h.markSwitch id

end Switches

section Loops

variable {g : FlowGraph} {caught : NodeId → Prop} {level : Digraph.DerivedLevel}
variable {I : Digraph.Interval}
variable {head latch n : NodeId} {members body : List NodeId} {k : Nat}

/-- The body of a loop is made of its head, its latch and sources of edges. -/
theorem isLive_of_mem_loopBody
    (h : g.Wired)
    (hlive : g.isLive head = true)
    (hlive' : g.isLive latch = true)
    (hmem : n ∈ g.loopBody members head latch) :
    g.isLive n = true := by
  rcases List.mem_cons.1 hmem with rfl | hmem
  · exact hlive
  · obtain ⟨s, hstart, -, hpath⟩ := Digraph.mem_search_iff.1 hmem
    induction hpath with
    | refl => exact List.mem_singleton.1 hstart ▸ hlive'
    | tail _ hstep ih =>
        have hedge := List.mem_of_mem_filter hstep.1
        exact (h.live_of_flow ((h.wellFormed.mem_preds _ _).1 hedge)).1

/-- The loop of an interval is marked. -/
theorem Intact.recordLoop
    {state : FlowGraph × Nat}
    (h : state.1.Intact caught)
    (hends : level.Ends (state.1.isLive · = true))
    (k : Nat)
    (I : Digraph.Interval) :
    (recordLoop level state (I, k)).1.Intact caught := by
  have hlatches (l : NodeId) (hmem : l ∈ level.latches k I) : state.1.isLive l = true := by
    obtain ⟨p, hback, rfl⟩ := List.mem_map.1 hmem
    exact hends.preds _ p (List.mem_of_mem_filter hback)
  rw [recordLoop_fst]
  split
  · exact h
  · refine h.note rfl fun hlive r hmem => ?_
    simp only [Node.notes, loopMark, List.mem_append, Option.mem_toList] at hmem
    rcases hmem with (((hold | hold) | hold) | hlast) | hmem
    · exact h.notes_live hlive r (by simp [Node.notes, hold])
    · exact h.notes_live hlive r (by simp [Node.notes, hold])
    · exact h.notes_live hlive r (by simp [Node.notes, hold])
    · exact hlatches r (List.mem_of_getLast? hlast)
    · rw [List.mem_mergeSort, OrderedSet.mem_ofList, List.mem_flatMap] at hmem
      obtain ⟨l, hlatch, hinside⟩ := hmem
      exact isLive_of_mem_loopBody h.wired hlive (hlatches l hlatch) hinside

theorem Intact.recordLoops
    (h : g.Intact caught)
    {sequence : Digraph.DerivedSequence}
    (hends : ∀ level ∈ sequence.levels, level.Ends (g.isLive · = true)) :
    (g.recordLoops sequence).1.Intact caught := by
  have hkept (state : FlowGraph × Nat) (hsame : SameFlow g state.1) (n : NodeId) :
      state.1.isLive n = g.isLive n := by
    have hnodes : state.1.liveIds = g.liveIds := congrArg Digraph.nodes hsame.toDigraph_eq
    have hiff (g : FlowGraph) : g.isLive n = true ↔ n ∈ g.liveIds := mem_liveIds_iff.symm
    rw [Bool.eq_iff_iff, hiff, hiff, hnodes]
  refine (List.foldlRecOn (motive := fun state : FlowGraph × Nat =>
    state.1.Intact caught ∧ SameFlow g state.1) _ _ ⟨h, .refl g⟩
      fun state hbefore level hmem => ?_).1
  refine List.foldlRecOn (motive := fun state : FlowGraph × Nat =>
    state.1.Intact caught ∧ SameFlow g state.1) _ _ hbefore fun state hbefore entry _ => ?_
  refine ⟨hbefore.1.recordLoop ?_ entry.2 entry.1, hbefore.2.trans sameFlow_recordLoop⟩
  simp only [hkept state hbefore.2]
  exact hends level hmem

/-- The nodes of all levels end at nodes of the graph. -/
theorem Intact.ends
    (h : g.Intact caught)
    {level : Digraph.DerivedLevel}
    (hmem : level ∈ (g.toDigraph.derivedSequence g.order).levels) :
    level.Ends (g.isLive · = true) := by
  have hlastOf (n : NodeId) : (List.range g.toDigraph.size).toArray[n]?.getD n = n :=
    Digraph.DerivedLevel.base_lastOf g.toDigraph g.order n
  have hbase : (Digraph.DerivedLevel.base g.toDigraph g.order).Ends (g.isLive · = true) := by
    refine Digraph.DerivedLevel.ends_of _ _ _ _ _ (fun n hmem => ?_) fun n p hmem => ?_
    · rw [hlastOf]
      exact (List.mem_append.1 hmem).elim (h.order_live n) mem_liveIds_iff.1
    · rw [hlastOf]
      exact (h.wired.live_of_flow ((h.wired.wellFormed.mem_preds _ _).1 hmem)).1
  exact hbase.sequence hmem

theorem Intact.makeHeads
    (h : g.Intact caught) :
    g.makeHeads.Intact caught := by
  refine List.foldlRecOn (motive := (Intact · caught)) _ _ h fun g h id _ => ?_
  unfold makeHead
  split
  · exact h.modifyNode h.refs_live (h.refers.catches id) rfl
  · exact h

theorem Intact.markLoopTest
    (h : g.Intact caught)
    (head : NodeId) :
    (g.markLoopTest head).Intact caught := by
  have hsame (type : LoopTest) (kind : NodeKind) : (setLoopTest type kind).refs = kind.refs ∧
      (setLoopTest type kind).catches = kind.catches ∧
      (setLoopTest type kind).condition? = kind.condition? := by
    cases kind <;> exact ⟨rfl, rfl, rfl⟩
  unfold FlowGraph.markLoopTest
  split
  · exact h
  · obtain ⟨hrefs, hcatches, hcondition⟩ := hsame (g.loopTestOf head ‹_›) (g.node head).kind
    refine h.modifyNode (fun hlive r hmem => h.refs_live hlive r ?_)
      (fun hlive r hmem => ?_) hcondition
    · rw [Node.refs, hrefs] at hmem
      exact hmem
    · exact h.refers.catches head hlive r (hcatches ▸ hmem)

/-- What a branch leads to is part of the graph. -/
theorem Intact.isLive_of_targets?
    (h : g.Intact caught)
    (hlive : g.isLive n = true)
    {b : BranchTargets}
    (hfound : (g.node n).kind.targets? = some b) :
    g.isLive b.onTrue = true ∧ g.isLive b.onFalse = true := by
  obtain ⟨honTrue, honFalse⟩ := NodeKind.mem_refs_of_targets? hfound
  exact ⟨h.refs_live hlive _ (List.mem_append_left _ honTrue),
    h.refs_live hlive _ (List.mem_append_left _ honFalse)⟩

theorem Intact.isLive_of_exitOf
    (h : g.Intact caught)
    (hlive : g.isLive n = true)
    {follow : NodeId}
    (hfound : g.exitOf body n = some follow) :
    g.isLive follow = true := by
  obtain ⟨b, htargets, rfl⟩ := Option.map_eq_some_iff.1 hfound
  split
  · exact (h.isLive_of_targets? hlive htargets).2
  · exact (h.isLive_of_targets? hlive htargets).1

/-- The first exit of a loop is part of the graph. -/
theorem Intact.isLive_of_firstExit
    (h : g.Intact caught)
    (hbody_live : ∀ n ∈ body, g.isLive n = true)
    {follow : NodeId}
    (hfound : (g.firstExit body).found = some follow) :
    g.isLive follow = true := by
  refine List.foldlRecOn (motive := fun s : ExitSearch => ∀ n, s.found = some n → g.isLive n = true)
    body (ExitSearch.look g body) (b := { found := none, dangling := false }) nofun
    (fun s hbefore id hmem n hfound => ?_) follow hfound
  unfold ExitSearch.look at hfound
  split at hfound
  · exact hbefore n hfound
  · next b htargets =>
      obtain ⟨honTrue, honFalse⟩ := h.isLive_of_targets? (hbody_live id hmem) htargets
      dsimp only at hfound
      split at hfound
      · exact Option.some.inj hfound ▸ honTrue
      · split at hfound
        · exact Option.some.inj hfound ▸ honFalse
        · exact hbefore n hfound

theorem Intact.isLive_of_loopFollowOf
    (h : g.Intact caught)
    (hlive : g.isLive head = true)
    (follow : NodeId)
    (hfound : (g.loopFollowOf head).found = some follow) :
    g.isLive follow = true := by
  have hnotes {r : NodeId} (hmem : (g.node head).latch = some r ∨ r ∈ (g.node head).loopNodes) :
      g.isLive r = true := by
    refine h.notes_live hlive r ?_
    simpa [Node.notes, or_assoc] using .inr (.inr (.inr hmem))
  unfold loopFollowOf at hfound
  split at hfound
  · exact h.isLive_of_exitOf hlive hfound
  · obtain ⟨latch, hthere, hfound⟩ := Option.bind_eq_some_iff.1 hfound
    exact h.isLive_of_exitOf (hnotes (.inl hthere)) hfound
  · exact h.isLive_of_firstExit (fun n hmem => hnotes (.inr hmem)) hfound

theorem Intact.markLoopFollow
    (h : g.Intact caught)
    (hlive : g.isLive head = true) :
    (g.markLoopFollow head).1.Intact caught := by
  refine h.foldl_note (f := fun n => { n with loopFollow := (g.loopFollowOf head).found })
    (fun _ => rfl) (fun node r hmem => ?_) (head :: (g.node head).loopNodes)
  have hfollow := h.isLive_of_loopFollowOf hlive r
  simp only [Node.notes, List.mem_append, Option.mem_toList] at hmem ⊢
  grind

theorem Intact.describeLoops
    (h : g.Intact caught) :
    g.describeLoops.1.Intact caught := by
  refine (List.foldlRecOn (motive := fun state : FlowGraph × Bool =>
    state.1.Intact caught ∧ Marks g state.1) _ _ ⟨h, .refl g⟩ fun state hbefore id hmem => ?_).1
  refine ⟨?_, hbefore.2.trans (describeLoop_marks state id)⟩
  obtain ⟨g', dangling⟩ := state
  unfold describeLoop
  dsimp only
  split
  · have htested := hbefore.1.markLoopTest id
    have horder : (g'.markLoopTest id).order = g'.order := by
      unfold FlowGraph.markLoopTest
      split <;> rfl
    refine htested.markLoopFollow (htested.order_live id ?_)
    rw [horder, hbefore.2.order_eq]
    exact hmem
  · exact hbefore.1

end Loops

section Branches

variable {g : FlowGraph} {caught : NodeId → Prop} {tree : DominatorTree} {follow : NodeId}

/-- Several branches come together in a node of the graph. -/
theorem Intact.setIfFollows
    (h : g.Intact caught)
    (hlive : g.isLive follow = true)
    (ids : List NodeId) :
    (ids.foldl (fun g id => g.setIfFollow id follow) g).Intact caught := by
  refine h.foldl_note (f := fun n => { n with ifFollow := some follow }) (fun _ => rfl)
    (fun node r hmem => ?_) ids
  simp only [Node.notes, List.mem_append, Option.mem_toList] at hmem ⊢
  grind

theorem Intact.markIfFollows
    (h : g.Intact caught) :
    (g.markIfFollows tree).1.Intact caught := by
  refine List.foldlRecOn
    (motive := fun state : FlowGraph × List NodeId => state.1.Intact caught) _ _ h
    fun state h id _ => ?_
  obtain ⟨g, waiting⟩ := state
  unfold markIfFollow
  dsimp only
  split
  · split
    · exact h
    · next follow hfound =>
        exact h.setIfFollows (isLive_of_joinBelow hfound) (id :: waiting.filter _)
  · exact h

theorem Intact.markByContext
    (h : g.Intact caught)
    (id : NodeId) :
    (g.markByContext id).Intact caught := by
  unfold FlowGraph.markByContext
  dsimp only
  split
  · next follow hfound =>
      exact h.setIfFollows (List.mem_filter.1 (mem_of_firstByNumber hfound)).2 [id]
  · exact h

end Branches

section Merging

variable {g : FlowGraph} {tree : DominatorTree} {first : NodeId} {b : BranchTargets} {merge : Merge}

/-- Before regions are entered, no node has handlers, and a tree names nodes of the graph. -/
structure IntactWith (g : FlowGraph) (tree : DominatorTree) : Prop where
  intact : g.Intact fun _ => False
  named : ∀ n d, tree.immediateDominator n = some d → g.isLive d = true

/-- Two nodes go, and a third one takes over the references to both. -/
theorem Refers.combine
    {g' : FlowGraph}
    {caught ok ok' : NodeId → Prop}
    {second merged : NodeId}
    (h : g'.Refers ok caught)
    (htakes : ∀ n, ok n → ok' (combining first second merged n)) :
    ((((g'.removeNode second).removeNode first).retarget first merged).retarget second
      merged).Refers ok' caught := by
  have hretargeted : (((g'.removeNode second).removeNode first).retarget first merged).Refers
      (fun m => ∃ n, ok n ∧ replacing first merged n = m) caught :=
    ((h.removeNode second).removeNode first).retarget fun n hthere => ⟨n, hthere, rfl⟩
  refine hretargeted.retarget fun m ⟨n, hthere, hsame⟩ => ?_
  rw [← hsame, replacing_replacing]
  exact htakes n hthere

/-- The new node of a merge refers to the targets of the second branch, and to nothing that the
first one did not refer to. -/
theorem Intact.addMerged
    {caught : NodeId → Prop}
    (h : g.Intact caught)
    (hplans : g.Plans first b merge)
    (hlive : g.isLive first = true)
    {added : Node}
    (hsame : SameRefs
      ((g.node first).shell added.name
        (.shortCircuit
          { first
            second := merge.second
            isAnd := merge.isAnd
            isNot := merge.isNot
            branches := merge.branches })) added) :
    (g.addNode added).2.Refers (g.isLive · = true) caught := by
  have hlive' := hplans.live h.wired
  obtain ⟨honTrue, honFalse⟩ := h.isLive_of_targets? hlive' hplans.targets
  obtain ⟨hrefs, hkind⟩ := hsame
  refine h.refers.addNode (fun r hmem => ?_) (fun r hmem => ?_) fun sc hfound => ?_
  · rw [hrefs] at hmem
    rcases List.mem_append.1 hmem with hmem | hmem
    · have hcases : r = merge.branches.onTrue ∨ r = merge.branches.onFalse := by
        simpa [NodeKind.refs, Node.shell] using hmem
      rcases hcases with rfl | rfl
      · exact honTrue
      · exact honFalse
    · exact h.notes_live hlive r hmem
  · rw [hkind] at hmem
    cases hmem
  · rw [hkind] at hfound
    obtain rfl := Option.some.inj hfound
    exact ⟨lt_size_of_isLive hlive, lt_size_of_isLive hlive'⟩

/-- **A merge leaves only its new node refer to the two that go**, and that as its parts. -/
theorem Intact.mergeBranches
    {caught : NodeId → Prop}
    (h : g.Intact caught)
    (hplans : g.Plans first b merge)
    (hlive : g.isLive first = true) :
    (g.mergeBranches first merge).2.Intact caught := by
  have hmerges := merges_mergeBranches h.wired hplans hlive
  have hknown := lt_size_of_isLive hlive
  have hknown' := lt_size_of_isLive (hplans.live h.wired)
  have hjoined := h.addMerged hplans hlive (sameRefs_foldl_declare
    ((g.node first).shell ((g.node first).name ++ "+" ++ (g.node merge.second).name) _)
    ((g.node first).declares ++ (g.node merge.second).declares))
  unfold FlowGraph.mergeBranches at hmerges ⊢
  dsimp only at hmerges ⊢
  rw [fst_addNode] at hmerges ⊢
  generalize ((g.node first).declares ++ (g.node merge.second).declares).foldl
    Node.declare _ = added
    at hjoined hmerges ⊢
  obtain ⟨-, hsame⟩ := h.wired.gathers added hknown hknown' hplans.apart
  have hframe : SameFrame (g.addNode added).2 _ :=
    ((sameFrame_moveIncoming _ first g.size).trans (sameFrame_moveOutgoing _ first g.size)).trans
      (sameFrame_moveOutgoing _ merge.second g.size)
  have hgathered := hjoined.of_same hsame hframe.exit_eq
  have horder := hframe.order_eq
  generalize (((g.addNode added).2.moveIncoming first g.size).moveOutgoing first
    g.size).moveOutgoing merge.second g.size = g₁ at hgathered horder hmerges ⊢
  refine ⟨hmerges.wired, hgathered.combine fun n hthere => hmerges.live_combining hthere,
    fun n hmem => ?_⟩
  rw [order_retarget, order_retarget, (frame_removeNode _ _).1, (frame_removeNode _ _).1,
    OrderedSet.mem_erase, OrderedSet.mem_erase, horder] at hmem
  rw [hmerges.live_iff]
  exact .inr ⟨hmem.2, hmem.1.2, h.order_live n hmem.1.1⟩

/-- The tree follows a merge. -/
theorem IntactWith.mergeBranches
    (h : g.IntactWith tree)
    (hplans : g.Plans first b merge)
    (hlive : g.isLive first = true) :
    (g.mergeBranches first merge).2.IntactWith (tree.mergeInto first merge.second g.size) := by
  have hmerges := merges_mergeBranches h.intact.wired hplans hlive
  refine ⟨h.intact.mergeBranches hplans hlive, fun n d hfound => ?_⟩
  by_cases hgone : n = first ∨ n = merge.second
  · have hremoved : (((tree.setParent g.size (tree.immediateDominator first)).remove first).remove
        merge.second).immediateDominator n = none := by
      rw [DominatorTree.immediateDominator_remove, DominatorTree.immediateDominator_remove]
      grind
    rw [DominatorTree.mergeInto, DominatorTree.immediateDominator_replace,
      DominatorTree.immediateDominator_replace, hremoved] at hfound
    cases hfound
  · obtain ⟨hother, hother'⟩ := not_or.1 hgone
    rw [DominatorTree.immediateDominator_mergeInto tree hother hother'] at hfound
    obtain ⟨m, hbefore, rfl⟩ := Option.map_eq_some_iff.1 hfound
    exact hmerges.live_combining (h.named _ m hbefore)

theorem IntactWith.marked
    (h : g.IntactWith tree) :
    (g.marked tree).IntactWith tree := by
  have hmarks := markSwitches_marks g tree
  have hswitched := h.intact.markSwitches tree
  have hboth := marked_marks g tree
  refine ⟨hswitched.recordLoops fun level hmem => ?_, fun n d hfound => ?_⟩
  · simp only [hmarks.touch.isLive_eq]
    exact h.intact.ends hmem
  · rw [hboth.touch.isLive_eq]
    exact h.named n d hfound

/-- **Marks and merges leave no reference to a node that has gone.** -/
theorem IntactWith.prepared
    (h : g.IntactWith tree)
    (passes : Nat) :
    (g.prepared tree passes).1.IntactWith (g.prepared tree passes).2 := by
  have hmerged : IntactWith _ _ := Merging.passes_induction (P := IntactWith)
    (fun g tree first b merge h hlive _ houter hplanned =>
      h.mergeBranches (plans_mergePlan houter hplanned) hlive)
    (fun g tree h => ⟨h.intact.reorder, fun n d hfound =>
      ((retouches_reorder g).isLive_eq d).trans (h.named n d hfound)⟩) passes
    { graph := g.marked tree, tree, merged := 0, dangling := false } h.marked
  have hmarks := prepared_marks g tree passes
  refine ⟨?_, fun n d hfound => ?_⟩
  · refine List.foldlRecOn (motive := fun g : FlowGraph => g.Intact fun _ => False) _ _ ?_
      fun g h id _ => h.markByContext id
    exact hmerged.intact.reorder.markIfFollows.makeHeads.describeLoops
  · have hparents := ((Merging.passes passes
      { graph := g.marked tree, tree, merged := 0, dangling := false }).1.tree.foldl_setNumber_facts
        (fun id => (((g.marked tree).merged tree passes).reorder.node id).num)
        ((g.marked tree).merged tree passes).reorder.order).2.1
    rw [hmarks.touch.isLive_eq, (retouches_reorder _).isLive_eq]
    exact hmerged.named n d ((hparents n).symm.trans hfound)

end Merging

section Regions

variable {g : FlowGraph} {tree : DominatorTree} {start handler : NodeId}

/-- An intact graph whose handlers are part of it. -/
def SelfContained (g : FlowGraph) : Prop :=
  g.Intact (g.isLive · = true)

theorem SelfContained.isLive_of_regionFollow
    (h : g.SelfContained)
    (hlive : g.isLive start = true)
    (follow : NodeId)
    (hfound : g.regionFollow start = some follow) :
    g.isLive follow = true := by
  have hnotes := h.notes_live hlive follow
  simp only [Node.notes, List.mem_append, Option.mem_toList] at hnotes
  unfold regionFollow at hfound
  dsimp only at hfound
  split at hfound
  · exact hnotes (by simp [hfound])
  · rcases Option.or_eq_some_iff.1 hfound with hloop | ⟨-, hbranch⟩
    · exact hnotes (by simp [hloop])
    · exact hnotes (by simp [hbranch])
  · rcases Option.or_eq_some_iff.1 hfound with hloop | ⟨-, hbranch⟩
    · exact hnotes (by simp [hloop])
    · exact hnotes (by simp [hbranch])
  · exact (h.wired.live start follow (.inl (List.mem_of_head? hfound))).2
  · exact hnotes (by simp [hfound])
  · cases hfound

theorem isLive_enterTry
    (h : g.Wired)
    (hlive : g.isLive start = true)
    (n : NodeId)
    (hthere : g.isLive n = true) :
    (g.enterTry start).2.isLive n = true := by
  simp [(enters_enterTry h hlive).2.isLive_eq, hthere]

theorem isLive_enterCatch
    (handler n : NodeId)
    (hthere : g.isLive n = true) :
    (g.enterCatch handler).2.isLive n = true ∧
      (g.enterCatch handler).2.isLive (g.enterCatch handler).1 = true := by
  have hdropped : (g.dropBinding handler).isLive n = true :=
    ((retouches_dropBinding handler).isLive_eq n).trans hthere
  simp [FlowGraph.enterCatch, isLive_addNode, hdropped]

theorem isLive_addCatch
    (region handler n : NodeId) :
    (g.addCatch region handler).isLive n = g.isLive n :=
  isLive_modifyNode ..

/-- What entering regions and handlers keeps holds when all handlers have been put into regions. -/
theorem protect_induction
    {P : FlowGraph → Prop}
    (hwired : ∀ g, P g → g.Wired)
    (henterTry : ∀ g start, P g → g.isLive start = true → P (g.enterTry start).2)
    (henterCatch : ∀ g handler, P g → g.isLive handler = true → P (g.enterCatch handler).2)
    (haddCatch : ∀ g region handler, P g → g.isLive handler = true → P (g.addCatch region handler))
    (horder_live : ∀ n ∈ g.order, g.isLive n = true)
    (hnamed : ∀ n d, tree.immediateDominator n = some d → g.isLive d = true)
    (hstart : P g) :
    P (g.protect tree).graph := by
  refine (List.foldlRecOn (motive := fun s : Protection => P s.graph ∧
    ∀ n, g.isLive n = true → s.graph.isLive n = true) g.handlers _ ⟨hstart, fun _ hlive => hlive⟩
    fun s ⟨hwhole, hgrown⟩ handler hmem => ?_).1
  have hlisted := hgrown handler (horder_live handler (List.mem_of_mem_filter hmem))
  unfold Protection.addHandler
  split
  · exact ⟨hwhole, hgrown⟩
  · next start hfound =>
      have hregion : P (s.region start).2.graph ∧
          ∀ n, s.graph.isLive n = true → (s.region start).2.graph.isLive n = true := by
        unfold Protection.region
        split
        · exact ⟨hwhole, fun _ hlive => hlive⟩
        · have hthere := hgrown start (hnamed handler start hfound)
          have hentered := henterTry _ start hwhole hthere
          have hgrows := isLive_enterTry (hwired _ hwhole) hthere
          generalize s.graph.enterTry start = made at hentered hgrows ⊢
          exact ⟨hentered, hgrows⟩
      generalize s.region start = made at hregion ⊢
      obtain ⟨id, s'⟩ := made
      obtain ⟨hwhole, hgrows⟩ := hregion
      have hcaught := henterCatch _ handler hwhole (hgrows handler hlisted)
      have hkept (n : NodeId) (hlive : g.isLive n = true) :=
        isLive_enterCatch handler n (hgrows n (hgrown n hlive))
      have hnew := (isLive_enterCatch handler handler (hgrows handler hlisted)).2
      dsimp only
      generalize s'.graph.enterCatch handler = made' at hcaught hkept hnew ⊢
      exact ⟨haddCatch _ id _ hcaught hnew, fun n hlive =>
        (isLive_addCatch id made'.1 n).trans (hkept n hlive).1⟩

/-- A region is entered through a new node. -/
theorem SelfContained.enterTry
    (h : g.SelfContained)
    (hlive : g.isLive start = true) :
    (g.enterTry start).2.SelfContained := by
  refine Intact.mono ?_ (isLive_enterTry h.wired hlive)
  have hknown := lt_size_of_isLive hlive
  have hfollows := h.isLive_of_regionFollow hlive
  have hnotes := h.notes_live hlive
  unfold FlowGraph.enterTry
  dsimp only
  rw [fst_addNode]
  generalize g.regionFollow start = follow at *
  have hadded : (g.addNode
      { (g.node start).shell ((g.node start).name ++ "-try") .statement with
        startsLoop := false
        latch := none
        loopNodes := [] }).2.Intact _ :=
    h.addNode (fun r hmem => hnotes r (by
      simp only [Node.refs, NodeKind.refs, Node.notes, Node.shell, List.mem_append] at hmem ⊢
      simp at hmem
      simp [hmem])) nofun nofun
  have hkind : ({ (g.node start).shell ((g.node start).name ++ "-try") .statement with
      startsLoop := false
      latch := none
      loopNodes := [] } : Node).kind = .statement := rfl
  generalize ({ (g.node start).shell _ .statement with
    startsLoop := false, latch := none, loopNodes := [] } : Node) = node at hadded hkind ⊢
  have hisLive (n : NodeId) : ((g.addNode node).2.retarget start g.size).isLive n =
      (n == g.size || g.isLive n) := by
    rw [isLive_retarget, isLive_addNode]
  have hretargeted : ((g.addNode node).2.retarget start g.size).Intact _ :=
    hadded.retarget (by simp [isLive_addNode])
  have hstatement : (((g.addNode node).2.retarget start g.size).node g.size).kind = .statement := by
    rw [node_retarget _ _ _ _ (by simp [isLive_addNode]), node_addNode, if_pos rfl, Node.retarget,
      Node.remap, hkind]
    rfl
  generalize (g.addNode node).2.retarget start g.size = g₁ at hisLive hretargeted hstatement ⊢
  have hentered : (g₁.modifyNode g.size fun n =>
      { n with kind := .tryBlock start [] follow }).Intact _ :=
    hretargeted.modifyNode (fun hlive' r hmem => by
      rcases List.mem_append.1 hmem with hmem | hmem
      · rcases List.mem_cons.1 hmem with rfl | hmem
        · simp [hisLive, hlive]
        · simp [hisLive, hfollows r (Option.mem_toList.1 hmem)]
      · exact hretargeted.notes_live hlive' r hmem) (fun _ _ hmem => by cases hmem)
    (by rw [hstatement]; rfl)
  have hisLive (n : NodeId) : (g₁.modifyNode g.size fun n =>
      { n with kind := .tryBlock start [] follow }).isLive n = (n == g.size || g.isLive n) := by
    rw [isLive_modifyNode, hisLive]
  obtain ⟨hmoved, hsame⟩ := hentered.moveIncoming (by simp [hisLive]) hknown.ne'
  exact (hmoved.addEdge (by simp [hsame.isLive_eq, hisLive])
    (by simp [hsame.isLive_eq, hisLive, hlive])).1

theorem SelfContained.dropBinding
    (h : g.SelfContained)
    (handler : NodeId) :
    (g.dropBinding handler).SelfContained := by
  have htouch := retouches_dropBinding (g := g) handler
  have hframe : (g.dropBinding handler).exit = g.exit ∧
    (g.dropBinding handler).order = g.order := by
    unfold FlowGraph.dropBinding
    split
    · exact ⟨rfl, rfl⟩
    · exact frame_removeInstr ..
    · exact ⟨rfl, rfl⟩
  have hintact : (g.dropBinding handler).Intact (g.isLive · = true) :=
    h.retouch (htouch.mono fun _ _ => Recoded.sameRefs) hframe.1 (hframe.2.symm ▸ h.order_live)
  exact hintact.mono fun n hthere => (htouch.isLive_eq n).trans hthere

/-- A handler is entered through a new node. -/
theorem SelfContained.enterCatch
    (h : g.SelfContained)
    (hlive : g.isLive handler = true) :
    (g.enterCatch handler).2.SelfContained := by
  have hdropped := h.dropBinding handler
  have hlive' : (g.dropBinding handler).isLive handler = true :=
    ((retouches_dropBinding handler).isLive_eq handler).trans hlive
  unfold FlowGraph.enterCatch
  dsimp only
  generalize g.dropBinding handler = g₁ at *
  refine (hdropped.addNode (fun r hmem => ?_) (fun _ hmem => by cases hmem)
    fun _ hfound => by cases hfound).mono fun n hthere => by simp [isLive_addNode, hthere]
  rcases List.mem_append.1 hmem with hmem | hmem
  · exact List.mem_singleton.1 hmem ▸ hlive'
  · exact hdropped.notes_live hlive' r hmem

/-- A handler that is part of the graph is added to a region. -/
theorem SelfContained.addCatch
    (h : g.SelfContained)
    (region : NodeId)
    (hlive : g.isLive handler = true) :
    (g.addCatch region handler).SelfContained := by
  have hintact : (g.addCatch region handler).Intact (g.isLive · = true) := by
    refine h.modifyNode (fun hlive' r hmem => ?_) (fun hlive' r hmem => ?_) ?_
    · have hold := h.refs_live hlive' r
      unfold Node.refs at hold
      split at hmem
      · next hkind =>
          rw [hkind] at hold
          exact hold hmem
      · exact hold hmem
    · have hold := h.refers.catches region hlive' r
      split at hmem
      · next hkind =>
          rw [hkind] at hold
          rcases List.mem_append.1 hmem with hmem | hmem
          · exact hold hmem
          · exact List.mem_singleton.1 hmem ▸ hlive
      · exact hold hmem
    · split
      · next hkind => rw [hkind]; rfl
      · rfl
  exact hintact.mono fun n hthere => (isLive_addCatch ..).trans hthere

/-- **Structuring leaves no reference to a node that has gone.** -/
theorem IntactWith.structured
    (h : g.IntactWith tree)
    (passes : Nat)
    (method : String) :
    (g.structured tree passes method).graph.SelfContained := by
  rw [(structured_eq g tree passes method).1]
  have hprepared := h.prepared passes
  exact protect_induction (P := SelfContained) (fun _ hwhole => hwhole.wired)
    (fun _ _ hwhole hlive => hwhole.enterTry hlive)
      (fun _ _ hwhole hlive => hwhole.enterCatch hlive)
    (fun _ region _ hwhole hlive => hwhole.addCatch region hlive) hprepared.intact.order_live
    hprepared.named (hprepared.intact.mono fun _ => False.elim)

end Regions

end FlowGraph
end DalvikDecompiler
