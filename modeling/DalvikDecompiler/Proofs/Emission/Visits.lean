import DalvikDecompiler.Proofs.Emission.Homes
import DalvikDecompiler.Proofs.Emission.Jumps
import DalvikDecompiler.Proofs.FlowGraph.StructuredReferences

/-!
# What code goes on to

**Input.** A graph, and the nodes that are visited while code is written from it.

The code of a node goes on to other nodes.  Each of them is written when a walk comes to it, has
been written before, or is written behind one of the statements around.  So the visited nodes are
closed under going on as far as nothing is left for later, and what a statement leaves for later is
settled by the code behind it.

Two kinds of nodes are exceptions.  A condition at the end of a loop is marked as visited without
being gone on from, and a latch that is no condition is not written at all where a loop is said to
be tested behind.

**Results.**
* `WritesNext.of_onward`: where all that code goes on to is written.
* `OnWay.isLive`: the ways from the entry do not leave the graph.
* `Covers.trans`, `Goes.leave`: what is left for later is settled by what follows.
* `Goes.enter`: a node is visited and gone on from.
-/

namespace DalvikDecompiler

namespace NodeKind

/-- Whether the node enters a handler. -/
def isCatch : NodeKind → Bool
  | .catchBlock .. => true
  | _ => false

/-- Whether a loop at the node is tested behind. -/
def isTestedBehind : NodeKind → Bool
  | .loop _ .postTest => true
  | .loop inner _ => inner.isTestedBehind
  | _ => false

theorem refs_base
    (kind : NodeKind) :
    kind.base.refs = kind.refs := by
  induction kind with
  | loop inner _ ih => exact ih
  | _ => rfl

theorem catches_base
    (kind : NodeKind) :
    kind.base.catches = kind.catches := by
  induction kind with
  | loop inner _ ih => exact ih
  | _ => rfl

end NodeKind

namespace FlowGraph

variable (g : FlowGraph)

/-- The targets that a branch goes on to.  A branch whose targets come together at the second one is
turned round if the first one has a smaller number, and the first one is not written then. -/
def branchOnward (id : NodeId) (b : BranchTargets) : List NodeId :=
  if (g.node id).ifFollow = some b.onFalse ∧ (g.node b.onTrue).num < (g.node id).num then
    [b.onFalse]
  else
    [b.onTrue, b.onFalse]

/-- The nodes that the code of a node goes on to, if it is written as a node of some kind. -/
def onwardAs (id : NodeId) : NodeKind → List NodeId
  | .loop inner .preTest =>
      match inner.targets? with
      | some b =>
          (if some b.onTrue = (g.node id).loopFollow then b.onFalse else b.onTrue) ::
            (g.node id).loopFollow.toList
      | none => onwardAs id inner ++ (g.node id).latch.toList ++ (g.node id).loopFollow.toList
  | .loop inner .postTest => onwardAs id inner ++ (g.node id).loopFollow.toList
  | .loop inner .endless =>
      onwardAs id inner ++ (g.node id).latch.toList ++ (g.node id).loopFollow.toList
  | .conditional b => g.branchOnward id b
  | .shortCircuit sc => g.branchOnward id sc.branches
  | .switch cases =>
      if (g.node id).ins = [] then
        []
      else
        cases.cases ++ cases.fallback.toList ++ (g.node id).switchFollow.toList
  | .statement =>
      match g.succs id with
      | [next] => [next]
      | _ => []
  | .ret => []
  | .throw => []
  | .tryBlock start handlers follow => start :: handlers ++ follow.toList
  | .catchBlock start _ _ => [start]

/-- The nodes that the code of a node goes on to. -/
def onward (id : NodeId) : List NodeId :=
  g.onwardAs id (g.node id).kind

end FlowGraph

namespace Emission

section Static

variable (g : FlowGraph)

/-- A node may be marked as visited without being gone on from: the condition at the end of the loop
of another node, or what a region names as a handler although it is none. -/
def IsMarked (id : NodeId) : Prop :=
  ∃ other, g.isLive other = true ∧
    (other ≠ id ∧ TestedBehind g other id ∨ Catches g other id ∧ (g.node id).kind.isCatch = false)

/-- A latch that is no condition is not written where a loop is said to be tested behind. -/
def IsUntested (id : NodeId) : Prop :=
  ∃ head inner, g.isLive head = true ∧ Inside (.loop inner .postTest) (g.node head).kind ∧
    (g.node head).latch = some id ∧ (g.node id).kind.isCond = false

/-- The code of a node goes on to another one and writes it, unless it has been written. -/
structure WritesNext (id next : NodeId) : Prop where
  onward : next ∈ g.onward id
  goes : ¬ IsMarked g id
  tested : ¬ IsUntested g next

/-- The nodes that code leads to from the entry. -/
def Led (id : NodeId) : Prop :=
  Relation.ReflTransGen (WritesNext g) g.entry id

/-- The nodes that lie on a way from the entry, which code may but need not go. -/
def OnWay (id : NodeId) : Prop :=
  Relation.ReflTransGen (Way g) g.entry id

variable {g} {n m id : NodeId}

theorem Inside.isTestedBehind
    {inner outer : NodeKind}
    (h : Inside (.loop inner .postTest) outer) :
    outer.isTestedBehind = true := by
  have hwithin {kind outer : NodeKind} (h : Inside kind outer)
      (hbehind : kind.isTestedBehind = true) : outer.isTestedBehind = true := by
    induction h with
    | refl => exact hbehind
    | @loop inner _ type _ ih =>
        refine ih ?_
        cases type <;> simp [NodeKind.isTestedBehind, hbehind]
  exact hwithin h rfl

/-- Code leads to all that it goes on to, if no loop is tested behind and regions name handlers. -/
theorem WritesNext.of_onward
    (honward : m ∈ g.onward n)
    (htested : ∀ id, g.isLive id = true → (g.node id).kind.isTestedBehind = false)
    (handlers : ∀ id, g.isLive id = true →
      ∀ h ∈ (g.node id).kind.catches, (g.node h).kind.isCatch = true) :
    WritesNext g n m := by
  have huntested {id : NodeId} {inner : NodeKind} (hlive : g.isLive id = true)
      (hloop : Inside (.loop inner .postTest) (g.node id).kind) : False := by
    simpa [htested id hlive] using hloop.isTestedBehind
  refine ⟨honward, ?_, fun ⟨_, _, hlive, hloop, _⟩ => huntested hlive hloop⟩
  rintro ⟨other, hlive, ⟨-, hloop, -, -⟩ | ⟨⟨hkind, hmem⟩, hnoHandler⟩⟩
  · exact huntested hlive hloop
  · have hcatches : n ∈ (g.node other).kind.catches := by
      rwa [← NodeKind.catches_base, hkind]
    simp [handlers other hlive n hcatches] at hnoHandler

theorem Way.isLive
    (hintact : g.SelfContained)
    (hlive : g.isLive n = true)
    (hway : Way g n m) :
    g.isLive m = true := by
  have hrefs (hmem : m ∈ (g.node n).kind.base.refs) : g.isLive m = true :=
    hintact.refs_live hlive m (List.mem_append_left _ (NodeKind.refs_base _ ▸ hmem))
  have hnotes (hmem : m ∈ (g.node n).notes) : g.isLive m = true := hintact.notes_live hlive m hmem
  cases hway with
  | goesOn h =>
      cases h with
      | straight _ hnext => exact (hintact.wired.live n m (.inl (by simp [hnext]))).2
      | branch htargets hmem =>
          obtain ⟨honTrue, honFalse⟩ := NodeKind.mem_refs_of_targets? htargets
          rw [← NodeKind.refs_base] at honTrue honFalse
          rcases hmem with rfl | rfl
          · exact hrefs honTrue
          · exact hrefs honFalse
      | join _ hfollow => exact hnotes (by simp [Node.notes, hfollow])
      | arm hkind hmem =>
          refine hrefs ?_
          rw [hkind]
          rcases hmem with hmem | hmem <;> simp [NodeKind.refs, hmem]
      | behindSwitch _ hfollow => exact hnotes (by simp [Node.notes, hfollow])
      | behindLoop _ hfollow => exact hnotes (by simp [Node.notes, hfollow])
      | latch _ _ hlatch => exact hnotes (by simp [Node.notes, hlatch])
      | region hkind hmem =>
          refine hrefs ?_
          rw [hkind]
          rcases hmem with rfl | hfollow
          · exact List.mem_cons_self
          · exact List.mem_cons_of_mem _ (Option.mem_toList.2 hfollow)
      | handler hkind => exact hrefs (by simp [hkind, NodeKind.refs])
  | catches h =>
      obtain ⟨hkind, hmem⟩ := h
      refine hintact.refers.catches n hlive m ?_
      rw [← NodeKind.catches_base, hkind]
      exact hmem
  | testedBehind h =>
      obtain ⟨-, hlatch, -⟩ := h
      exact hnotes (by simp [Node.notes, hlatch])

/-- **The ways from the entry do not leave the graph**, if no reference dangles. -/
theorem OnWay.isLive
    (hintact : g.SelfContained)
    (h : OnWay g id) :
    g.isLive id = true := by
  induction h with
  | refl => exact hintact.entry_live
  | tail _ hway hlive => exact hway.isLive hintact hlive

end Static

/-- A node that is not written here: its code comes behind one of the statements around or is the
next arm of the switch, or it is not written at all. -/
def Postponed (g : FlowGraph) (ctx : Context) (next : Option NodeId) (id : NodeId) : Prop :=
  (∃ m, ctx.top m = some id) ∨ next = some id ∨ IsUntested g id

/-- What has been visited between two states comes to some nodes, lies on a way from the entry and
is gone on from, unless a node comes later. -/
structure Covers (g : FlowGraph) (later : NodeId → Prop) (targets : List NodeId)
    (s s' : Progress) : Prop where
  kept : s.visited ⊆ s'.visited
  comes : ∀ t ∈ targets, t ∈ s'.visited ∨ later t
  onWay : ∀ n ∈ s'.visited, n ∉ s.visited → OnWay g n
  goes : ∀ n ∈ s'.visited, n ∉ s.visited →
    IsMarked g n ∨ ∀ t ∈ g.onward n, t ∈ s'.visited ∨ later t

/-- Writing code in a context comes to some nodes and goes on from them. -/
structure Goes (g : FlowGraph) (ctx : Context) (targets : List NodeId) (s s' : Progress) : Prop
    extends Covers g (Postponed g ctx s.nextCase) targets s s' where
  nextCase : s'.nextCase = none ∨ s'.nextCase = s.nextCase

/-- A context gives a meaning only to nodes to which another one does and to some nodes more. -/
def Adds (ctx inner : Context) (more : NodeId → Prop) : Prop :=
  ∀ m t, inner.top m = some t → ctx.top m = some t ∨ more t

theorem Adds.refl
    (ctx : Context)
    (more : NodeId → Prop) :
    Adds ctx ctx more :=
  fun _ _ => .inl

theorem Adds.push
    {ctx inner : Context}
    {more : NodeId → Prop}
    (h : Adds ctx inner more)
    (m : Marker)
    {node : Option NodeId}
    (hadded : ∀ t, node = some t → more t) :
    Adds ctx (inner.push m node) more := by
  intro other t htop
  rw [Context.top_push] at htop
  split at htop
  · exact .inr (hadded t htop)
  · exact h other t htop

section Covering

variable {g : FlowGraph} {ctx inner : Context} {later later' : NodeId → Prop} {id : NodeId}
variable {targets targets' : List NodeId} {next next' : Option NodeId} {s s' s'' : Progress}

theorem Postponed.weaken
    (h : Postponed g ctx next id)
    (hearlier : next = none ∨ next = next') :
    Postponed g ctx next' id := by
  obtain haround | hsame | huntested := h
  · exact .inl haround
  · rcases hearlier with rfl | rfl
    · cases hsame
    · exact .inr (.inl hsame)
  · exact .inr (.inr huntested)

theorem Covers.refl
    (g : FlowGraph)
    (later : NodeId → Prop)
    (s : Progress) :
    Covers g later [] s s where
  kept := List.Subset.refl _
  comes := nofun
  onWay _ hmem hnew := absurd hmem hnew
  goes _ hmem hnew := absurd hmem hnew

/-- What one piece of code leaves for later is settled by the next one. -/
theorem Covers.trans
    (h : Covers g later targets s s')
    (h' : Covers g later' targets' s' s'')
    (hsettled : ∀ t, later t → t ∈ s''.visited ∨ later' t) :
    Covers g later' (targets ++ targets') s s'' := by
  have hcomes {t : NodeId} (hthere : t ∈ s'.visited ∨ later t) : t ∈ s''.visited ∨ later' t :=
    hthere.elim (fun hmem => .inl (h'.kept hmem)) (hsettled t)
  refine ⟨List.Subset.trans h.kept h'.kept, fun t hmem => ?_, fun n hmem hnew => ?_,
    fun n hmem hnew => ?_⟩
  · exact (List.mem_append.1 hmem).elim (fun hmem => hcomes (h.comes t hmem)) (h'.comes t)
  · by_cases hearly : n ∈ s'.visited
    · exact h.onWay n hearly hnew
    · exact h'.onWay n hmem hearly
  · by_cases hearly : n ∈ s'.visited
    · exact (h.goes n hearly hnew).imp_right fun hall t hmem => hcomes (hall t hmem)
    · exact h'.goes n hmem hearly

theorem Covers.weaken
    (h : Covers g later targets s s')
    (hweaker : ∀ t, later t → later' t) :
    Covers g later' targets s s' where
  kept := h.kept
  comes t hmem := (h.comes t hmem).imp_right (hweaker t)
  onWay := h.onWay
  goes n hmem hnew := (h.goes n hmem hnew).imp_right fun hall t hmem =>
    (hall t hmem).imp_right (hweaker t)

/-- Only the visited nodes of the states matter. -/
theorem Covers.of_visited
    {t t' : Progress}
    (h : Covers g later targets t t')
    (hfirst : s.visited = t.visited)
    (hlast : s'.visited = t'.visited) :
    Covers g later targets s s' := by
  obtain ⟨hkept, hcomes, honWay, hgoes⟩ := h
  rw [← hfirst, ← hlast] at *
  exact ⟨hkept, hcomes, honWay, hgoes⟩

/-- Code behind a statement settles what the statement left for it. -/
theorem Goes.leave
    (h : Goes g inner targets s s')
    (h' : Goes g ctx targets' s' s'')
    (hadds : Adds ctx inner fun t => t ∈ targets' ∨ t ∈ s'.visited) :
    Goes g ctx (targets ++ targets') s s'' := by
  have hweak := h'.toCovers.weaken fun t (hlater : Postponed g ctx s'.nextCase t) =>
    hlater.weaken h.nextCase
  refine ⟨h.toCovers.trans hweak fun t hlater => ?_, ?_⟩
  · obtain ⟨m, htop⟩ | hrest := hlater
    · rcases hadds m t htop with haround | hmem | hold
      · exact .inr (.inl ⟨m, haround⟩)
      · exact hweak.comes t hmem
      · exact .inl (h'.kept hold)
    · exact .inr (.inr hrest)
  · rcases h'.nextCase with hnone | hsame
    · exact .inl hnone
    · exact hsame ▸ h.nextCase

theorem Goes.trans
    (h : Goes g ctx targets s s')
    (h' : Goes g ctx targets' s' s'') :
    Goes g ctx (targets ++ targets') s s'' :=
  h.leave h' (.refl ctx _)

/-- Fewer nodes, and nodes that come later. -/
theorem Goes.mono
    (h : Goes g ctx targets s s')
    (hsub : ∀ t ∈ targets', t ∈ targets ∨ Postponed g ctx s.nextCase t) :
    Goes g ctx targets' s s' :=
  ⟨{ h.toCovers with comes := fun t hmem => (hsub t hmem).elim (h.comes t) .inr }, h.nextCase⟩

theorem Goes.sub
    (h : Goes g ctx targets s s')
    (hsub : targets' ⊆ targets) :
    Goes g ctx targets' s s' :=
  h.mono fun _ hmem => .inl (hsub hmem)

/-- Where nothing is visited, only what has been visited or comes later is come to. -/
theorem Goes.still
    (hvisited : s'.visited = s.visited)
    (hnextCase : s'.nextCase = s.nextCase)
    (hcomes : ∀ t ∈ targets, t ∈ s.visited ∨ Postponed g ctx s.nextCase t) :
    Goes g ctx targets s s' :=
  ⟨Covers.of_visited { Covers.refl g _ s with comes := hcomes } rfl hvisited, .inr hnextCase⟩

theorem SameCourse.goes
    (h : SameCourse s s')
    (g : FlowGraph)
    (ctx : Context) :
    Goes g ctx [] s s' :=
  .still h.visited h.nextCase nofun

/-- A node is visited, and its code goes on from it. -/
theorem Goes.enter
    (honWay : OnWay g id)
    (h : Goes g ctx targets { s with visited := OrderedSet.insert s.visited id } s')
    (hgoes : id ∈ s.visited ∨ IsMarked g id ∨ g.onward id ⊆ targets) :
    Goes g ctx (id :: targets) s s' := by
  have here : id ∈ s'.visited := h.kept (OrderedSet.mem_insert.2 (.inr rfl))
  have hother {n : NodeId} (hnew : n ∉ s.visited) (hapart : n ≠ id) :
      n ∉ OrderedSet.insert s.visited id :=
    fun hold => (OrderedSet.mem_insert.1 hold).elim hnew hapart
  refine ⟨⟨fun n hmem => h.kept (OrderedSet.mem_insert.2 (.inl hmem)), ?_, fun n hmem hnew => ?_,
    fun n hmem hnew => ?_⟩, h.nextCase⟩
  · exact List.forall_mem_cons.2 ⟨.inl here, h.comes⟩
  · by_cases hsame : n = id
    · exact hsame ▸ honWay
    · exact h.onWay n hmem (hother hnew hsame)
  · by_cases hsame : n = id
    · subst hsame
      rcases hgoes with hold | hmarked | hsub
      · exact absurd hold hnew
      · exact .inl hmarked
      · exact .inr fun t hmem => h.comes t (hsub hmem)
    · exact h.goes n hmem (hother hnew hsame)

end Covering

section Targets

variable {g : FlowGraph} {ctx : Context} {id : NodeId} {b : BranchTargets} {s s' s'' : Progress}

theorem mem_branchOnward
    {t : NodeId}
    (hmem : t ∈ g.branchOnward id b)
    (holds : Bool) :
    t = b.toward holds ∨ t = b.toward !holds := by
  have hboth : t = b.onTrue ∨ t = b.onFalse := by
    unfold FlowGraph.branchOnward at hmem
    split at hmem
    · exact .inr (List.mem_singleton.1 hmem)
    · simpa using hmem
  cases holds
  · exact hboth.symm
  · exact hboth

/-- One target of a branch is written, then the node at which the targets come together.  The other
target is this node, comes in the next arm, or has a smaller number. -/
theorem comes_of_meets
    {follow t : NodeId}
    {reversed : Bool}
    (hifFollow : (g.node id).ifFollow = some follow)
    (horder : reversed = true ↔ b.onTrue = follow ∨ some b.onTrue = s.nextCase ∨
      (g.node b.onTrue).num < (g.node id).num)
    (hmeets : follow = b.toward !reversed ∨ follow = b.toward reversed)
    (hmem : t ∈ g.branchOnward id b) :
    t ∈ [b.toward !reversed, follow] ∨ Postponed g ctx s.nextCase t := by
  rcases hmeets with hfirst | rfl
  · cases reversed with
    | false => exact absurd (horder.2 (.inl hfirst.symm)) Bool.false_ne_true
    | true =>
        obtain rfl : follow = b.onFalse := hfirst
        rcases mem_branchOnward hmem false with rfl | rfl
        · exact .inl List.mem_cons_self
        rcases horder.1 rfl with hsame | hnext | hsmaller
        · exact .inl (by simp [BranchTargets.toward, hsame])
        · exact .inr (.inr (.inl hnext.symm))
        · rw [FlowGraph.branchOnward, if_pos ⟨hifFollow, hsmaller⟩] at hmem
          exact .inl (List.mem_cons_of_mem _ hmem)
  · refine .inl ?_
    rcases mem_branchOnward hmem reversed with rfl | rfl <;> simp

/-- The default target of a switch is one of the targets with keys, has an arm of its own, or
follows the switch. -/
theorem Covers.arms
    {targets : List NodeId}
    {fallback left follow : Option NodeId}
    (h : Covers g (Postponed g ctx none) targets s s')
    (hsettled : ∀ t, fallback = some t → left = some t ∨ t ∈ s'.visited ∨ Postponed g ctx none t)
    (hlast : Goes g ctx (left.filter fun d => some d != follow).toList
      { s' with nextCase := none } s'')
    (hends : ctx.top .switchEnd = follow) :
    Goes g ctx (targets ++ fallback.toList) s s'' := by
  have hlast_covers := hlast.toCovers.of_visited (s := s') rfl rfl
  have hall := h.trans hlast_covers fun _ => .inr
  have hcomes (t : NodeId) (hmem : t ∈ targets ++ fallback.toList) :
      t ∈ s''.visited ∨ Postponed g ctx none t := by
    rcases List.mem_append.1 hmem with hmem | hmem
    · exact hall.comes t (List.mem_append_left _ hmem)
    rcases hsettled t (Option.mem_toList.1 hmem) with hkept | hold | hlater
    · by_cases hsame : some t = follow
      · exact .inr (.inl ⟨.switchEnd, hends.trans hsame.symm⟩)
      · exact hlast.comes t (Option.mem_toList.2
          (Option.filter_eq_some_iff.2 ⟨hkept, by simpa using hsame⟩))
    · exact .inl (hlast_covers.kept hold)
    · exact .inr hlater
  have hcovers : Covers g (Postponed g ctx none) (targets ++ fallback.toList) s s'' :=
    { hall with comes := hcomes }
  exact ⟨hcovers.weaken fun t hlater => hlater.weaken (.inl rfl), .inl (hlast.nextCase.elim id id)⟩

end Targets

end Emission
end DalvikDecompiler
