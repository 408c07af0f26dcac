import DalvikDecompiler.Proofs.FlowGraph.Wiring
import DalvikDecompiler.Proofs.FlowGraph.Trips

/-!
# What happens along paths

**Input.** A flow graph.

A path follows normal edges.  At each node its instructions are performed; then a branch or a switch
selects the next node, and any other node just goes on.  What has happened on a path at some point
is a list of instructions performed and of outcomes of branches and switches.

**Results.**
* `Mirrors.goes_iff`: a node that refers to other nodes through a map goes on as before, up to the
  map.
* `Fuses.proceeds_iff`: when a node and the one node it leads to are one node, the same happens.
* `Shortens.proceeds_iff`: when a node without instructions is left out, the same happens.
-/

namespace DalvikDecompiler

open Symbolic (Instr)
open Edges (replacing replacing_self replacing_of_ne)

/-- How a branch or a switch comes out. -/
inductive BranchOutcome where
  | truth (holds : Bool)
  /-- The case at a position. -/
  | case (position : Nat)
  /-- None of the cases. -/
  | fallback
  deriving DecidableEq, Repr

/-- What happens along a path. -/
inductive PathEvent where
  /-- An instruction is performed. -/
  | performs (ins : Instr)
  /-- A branch or a switch comes out. -/
  | selects (outcome : BranchOutcome)

namespace NodeKind

/-- A node of some kind goes on to another one, with an outcome if the kind has any. -/
inductive Selects (kind : NodeKind) : Option BranchOutcome → NodeId → Prop
  | branch {b : BranchTargets} (holds : Bool)
      (htargets : kind.targets? = some b) :
      Selects kind (some (.truth holds)) (b.toward holds)
  | case {s : SwitchTable} {position : Nat} {target : NodeId}
      (hswitch : kind.switch? = some s)
      (hfound : s.cases[position]? = some target) :
      Selects kind (some (.case position)) target
  | fallback {s : SwitchTable} {target : NodeId}
      (hswitch : kind.switch? = some s)
      (hfallback : s.fallback = some target) :
      Selects kind (some .fallback) target
  | straight {target : NodeId}
      (hnoBranch : kind.targets? = none)
      (hnoSwitch : kind.switch? = none) :
      Selects kind none target

/-- The targets of a branch or a switch. -/
def choices? (kind : NodeKind) : Option (List NodeId) :=
  match kind.targets? with
  | some b => some [b.onTrue, b.onFalse]
  | none => kind.switch?.map fun s => s.cases ++ s.fallback.toList

variable {kind : NodeKind} {f : NodeId → NodeId} {outcome : Option BranchOutcome} {target : NodeId}

theorem targets?_remap :
    (kind.remap f).targets? = kind.targets?.map (BranchTargets.remap f) := by
  induction kind with
  | loop inner _ ih => exact ih
  | _ => rfl

theorem switch?_remap :
    (kind.remap f).switch? = kind.switch?.map (SwitchTable.remap f) := by
  induction kind with
  | loop inner _ ih => exact ih
  | _ => rfl

theorem toward_remap
    {b : BranchTargets}
    {holds : Bool} :
    (b.remap f).toward holds = f (b.toward holds) := by
  cases holds <;> rfl

theorem choices?_remap :
    (kind.remap f).choices? = kind.choices?.map (List.map f) := by
  unfold choices?
  rw [targets?_remap, switch?_remap]
  cases kind.targets? with
  | some b => rfl
  | none =>
      cases kind.switch? with
      | none => rfl
      | some s => cases h : s.fallback <;> simp [SwitchTable.remap, h]

theorem choices?_of_targets?
    {b : BranchTargets}
    (h : kind.targets? = some b) :
    kind.choices? = some [b.onTrue, b.onFalse] := by
  unfold choices?
  rw [h]

theorem choices?_of_switch?
    {s : SwitchTable}
    (h : kind.switch? = some s) :
    kind.choices? = some (s.cases ++ s.fallback.toList) := by
  unfold choices?
  cases htargets : kind.targets? with
  | some b =>
      have hnoSwitch := isSwitch_of_targets? htargets
      simp [isSwitch, h] at hnoSwitch
  | none => rw [h]; rfl

/-- A branch or a switch selects one of its targets. -/
theorem Selects.mem_choices
    {outcome : BranchOutcome}
    (h : kind.Selects (some outcome) target)
    {targets : List NodeId}
    (hchoices : kind.choices? = some targets) :
    target ∈ targets := by
  cases h with
  | branch holds hsame =>
      obtain rfl := Option.some.inj ((choices?_of_targets? hsame).symm.trans hchoices)
      cases holds <;> simp [BranchTargets.toward]
  | case hswitch hfound =>
      obtain rfl := Option.some.inj ((choices?_of_switch? hswitch).symm.trans hchoices)
      exact List.mem_append_left _ (List.mem_of_getElem? hfound)
  | fallback hswitch hfallback =>
      obtain rfl := Option.some.inj ((choices?_of_switch? hswitch).symm.trans hchoices)
      exact List.mem_append_right _ (by simp [hfallback])

theorem Selects.exists_choices
    {outcome : BranchOutcome}
    (h : kind.Selects (some outcome) target) :
    ∃ targets, kind.choices? = some targets := by
  cases h with
  | branch holds hsame => exact ⟨_, choices?_of_targets? hsame⟩
  | case hswitch => exact ⟨_, choices?_of_switch? hswitch⟩
  | fallback hswitch => exact ⟨_, choices?_of_switch? hswitch⟩

/-- References through a map are followed through the map. -/
theorem selects_remap_iff :
    (kind.remap f).Selects outcome target ↔
      (∃ t, kind.Selects outcome t ∧ outcome.isSome = true ∧ f t = target) ∨
        outcome = none ∧ kind.targets? = none ∧ kind.switch? = none := by
  constructor
  · intro h
    cases h with
    | branch holds htargets =>
        rw [targets?_remap, Option.map_eq_some_iff] at htargets
        obtain ⟨b, htargets, rfl⟩ := htargets
        exact .inl ⟨_, .branch holds htargets, rfl, toward_remap.symm⟩
    | case hswitch hfound =>
        rw [switch?_remap, Option.map_eq_some_iff] at hswitch
        obtain ⟨s, hswitch, rfl⟩ := hswitch
        simp only [SwitchTable.remap, List.getElem?_map, Option.map_eq_some_iff] at hfound
        obtain ⟨t, hfound, rfl⟩ := hfound
        exact .inl ⟨t, .case hswitch hfound, rfl, rfl⟩
    | fallback hswitch hfallback =>
        rw [switch?_remap, Option.map_eq_some_iff] at hswitch
        obtain ⟨s, hswitch, rfl⟩ := hswitch
        simp only [SwitchTable.remap, Option.map_eq_some_iff] at hfallback
        obtain ⟨t, hfallback, rfl⟩ := hfallback
        exact .inl ⟨t, .fallback hswitch hfallback, rfl, rfl⟩
    | straight hnoBranch hnoSwitch =>
        rw [targets?_remap, Option.map_eq_none_iff] at hnoBranch
        rw [switch?_remap, Option.map_eq_none_iff] at hnoSwitch
        exact .inr ⟨rfl, hnoBranch, hnoSwitch⟩
  · rintro (⟨t, hselects, hsome, rfl⟩ | ⟨rfl, hnoBranch, hnoSwitch⟩)
    · cases hselects with
      | branch holds htargets =>
          rw [← toward_remap (f := f)]
          exact .branch holds (by rw [targets?_remap, htargets]; rfl)
      | case hswitch hfound =>
          exact .case (by rw [switch?_remap, hswitch]; rfl) (by simp [SwitchTable.remap, hfound])
      | fallback hswitch hfallback =>
          exact .fallback (by rw [switch?_remap, hswitch]; rfl)
            (by simp [SwitchTable.remap, hfallback])
      | straight => cases hsome
    · exact .straight (by rw [targets?_remap, hnoBranch]; rfl)
        (by rw [switch?_remap, hnoSwitch]; rfl)

end NodeKind

namespace FlowGraph

/-- A path goes on from a node to another one. -/
structure Goes (g : FlowGraph) (n : NodeId) (outcome : Option BranchOutcome)
    (next : NodeId) : Prop where
  edge : next ∈ g.succs n
  selects : (g.node n).kind.Selects outcome next

/-- What may have happened at some point of a path from a node on. -/
inductive Proceeds (g : FlowGraph) : NodeId → List PathEvent → Prop
  | here {n : NodeId} {done : List Instr}
      (hbegun : done <+: (g.node n).ins) :
      Proceeds g n (done.map .performs)
  | onward {n next : NodeId} {outcome : Option BranchOutcome} {events : List PathEvent}
      (hgoes : g.Goes n outcome next)
      (hrest : Proceeds g next events) :
      Proceeds g n ((g.node n).ins.map .performs ++ outcome.toList.map .selects ++ events)

/-- A graph of the shape that methods have. -/
structure Regular (g : FlowGraph) : Prop where
  wired : g.Wired
  entry : g.isLive g.entry = true
  /-- A statement has at most one successor. -/
  straight : ∀ n, g.isLive n = true → (g.node n).kind = .statement → (g.succs n).length ≤ 1
  /-- The targets of a branch or a switch are exactly the successors. -/
  exact : ∀ n, g.isLive n = true → ∀ targets, (g.node n).kind.choices? = some targets →
    ∀ t, t ∈ g.succs n ↔ t ∈ targets

/-- The shape can be checked node by node. -/
theorem regular_iff
    {g : FlowGraph} :
    g.Regular ↔ g.Wired ∧ g.isLive g.entry = true ∧ ∀ n ∈ g.liveIds,
      ((g.node n).kind = .statement → (g.succs n).length ≤ 1) ∧
      ∀ targets ∈ (g.node n).kind.choices?,
        (∀ t ∈ g.succs n, t ∈ targets) ∧ ∀ t ∈ targets, t ∈ g.succs n := by
  constructor
  · rintro ⟨hwired, hentry, hstraight, hexact⟩
    refine ⟨hwired, hentry, fun n hmem =>
      ⟨hstraight n (mem_liveIds_iff.1 hmem), fun targets hchoices => ?_⟩⟩
    have htargets := hexact n (mem_liveIds_iff.1 hmem) targets hchoices
    exact ⟨fun t => (htargets t).1, fun t => (htargets t).2⟩
  · rintro ⟨hwired, hentry, heach⟩
    refine ⟨hwired, hentry, fun n hlive => (heach n (mem_liveIds_iff.2 hlive)).1,
      fun n hlive targets hchoices t => ?_⟩
    obtain ⟨hcovered, hled⟩ := (heach n (mem_liveIds_iff.2 hlive)).2 targets hchoices
    exact ⟨hcovered t, hled t⟩

instance (g : FlowGraph) : Decidable g.Regular :=
  decidable_of_iff _ regular_iff.symm

/-- A node of another graph refers to other nodes through a map. -/
structure Mirrors (g g' : FlowGraph) (n n' : NodeId) (f : NodeId → NodeId) : Prop where
  kind_eq : (g'.node n').kind = (g.node n).kind.remap f
  mem_succs : ∀ t', t' ∈ g'.succs n' ↔ ∃ t ∈ g.succs n, f t = t'

section Steps

variable {g g' : FlowGraph} {n n' next : NodeId} {f : NodeId → NodeId}
    {outcome : Option BranchOutcome}

theorem Regular.isLive_next
    (h : g.Regular)
    (hgoes : g.Goes n outcome next) :
    g.isLive n = true ∧ g.isLive next = true :=
  h.wired.live n next (.inl hgoes.edge)

/-- Such a node goes on as before, up to the map. -/
theorem Mirrors.goes_iff
    (h : Mirrors g g' n n' f)
    (hregular : g.Regular)
    (hlive : g.isLive n = true) :
    g'.Goes n' outcome next ↔ ∃ t, g.Goes n outcome t ∧ f t = next := by
  constructor
  · rintro ⟨hedge, hselects⟩
    rw [h.kind_eq, NodeKind.selects_remap_iff] at hselects
    rcases hselects with ⟨t, hselects, hsome, rfl⟩ | ⟨rfl, hnoBranch, hnoSwitch⟩
    · obtain ⟨o, rfl⟩ := Option.isSome_iff_exists.1 hsome
      obtain ⟨targets, hchoices⟩ := hselects.exists_choices
      exact ⟨t, ⟨(hregular.exact n hlive targets hchoices t).2
        (hselects.mem_choices hchoices), hselects⟩,
        rfl⟩
    · obtain ⟨t, hsource, rfl⟩ := (h.mem_succs next).1 hedge
      exact ⟨t, ⟨hsource, .straight hnoBranch hnoSwitch⟩, rfl⟩
  · rintro ⟨t, ⟨hedge, hselects⟩, rfl⟩
    refine ⟨(h.mem_succs _).2 ⟨t, hedge, rfl⟩, ?_⟩
    rw [h.kind_eq, NodeKind.selects_remap_iff]
    cases hselects with
    | straight hnoBranch hnoSwitch => exact .inr ⟨rfl, hnoBranch, hnoSwitch⟩
    | branch holds htargets => exact .inl ⟨_, .branch holds htargets, rfl, rfl⟩
    | case hswitch hfound => exact .inl ⟨_, .case hswitch hfound, rfl, rfl⟩
    | fallback hswitch hfallback => exact .inl ⟨_, .fallback hswitch hfallback, rfl, rfl⟩

/-- Such a node refers to exactly its successors again. -/
theorem Mirrors.exact
    (h : Mirrors g g' n n' f)
    (hregular : g.Regular)
    (hlive : g.isLive n = true)
    {targets : List NodeId}
    (hchoices : (g'.node n').kind.choices? = some targets)
    (t : NodeId) :
    t ∈ g'.succs n' ↔ t ∈ targets := by
  rw [h.kind_eq, NodeKind.choices?_remap, Option.map_eq_some_iff] at hchoices
  obtain ⟨targets, hchoices, rfl⟩ := hchoices
  rw [h.mem_succs, List.mem_map]
  exact exists_congr fun x => and_congr_left fun _ => hregular.exact n hlive targets hchoices x

theorem goes_statement_iff
    (hkind : (g.node n).kind = .statement) :
    g.Goes n outcome next ↔ outcome = none ∧ next ∈ g.succs n := by
  constructor
  · rintro ⟨hedge, hselects⟩
    rw [hkind] at hselects
    cases hselects with
    | branch _ htargets => cases htargets
    | case hswitch => cases hswitch
    | fallback hswitch => cases hswitch
    | straight => exact ⟨rfl, hedge⟩
  · rintro ⟨rfl, hedge⟩
    exact ⟨hedge, by rw [hkind]; exact .straight rfl rfl⟩

/-- Only nodes and normal edges matter. -/
theorem Proceeds.congr
    {events : List PathEvent}
    (h : g.Proceeds n events)
    (hnode : g'.node = g.node)
    (hsuccs : g'.succs = g.succs) :
    g'.Proceeds n events := by
  induction h with
  | @here n done hbegun => exact .here (hnode ▸ hbegun)
  | @onward n next outcome events hgoes hrest ih =>
      rw [← hnode]
      exact .onward ⟨hsuccs ▸ hgoes.edge, hnode ▸ hgoes.selects⟩ ih

end Steps

section Fusion

variable {g g' : FlowGraph} {a b c : NodeId} {f : NodeId → NodeId} {events : List PathEvent}

/-- A node and the only node it leads to correspond to one node of another graph. -/
structure Fuses (g g' : FlowGraph) (a b c : NodeId) (f : NodeId → NodeId) : Prop where
  apart : a ≠ b
  code : (g'.node c).ins = (g.node a).ins ++ (g.node b).ins
  leads : ∀ outcome t, g.Goes a outcome t ↔ outcome = none ∧ t = b
  goes : ∀ outcome t', g'.Goes c outcome t' ↔ ∃ t, g.Goes b outcome t ∧ f t = t'
  renamed : f a = c
  /-- No other node leads to the second one. -/
  inner : ∀ n outcome t, n ≠ a → g.Goes n outcome t → t ≠ b
  others : ∀ n, g.isLive n = true → n ≠ a → n ≠ b →
    (g'.node (f n)).ins = (g.node n).ins ∧
      ∀ outcome t', g'.Goes (f n) outcome t' ↔ ∃ t, g.Goes n outcome t ∧ f t = t'
  live : ∀ n outcome t, g.Goes n outcome t → g.isLive t = true

/-- The events on the way to the second node are those of the first one. -/
theorem Fuses.proceeds
    (h : Fuses g g' a b c f)
    {n : NodeId}
    (hproceeds : g.Proceeds n events)
    (hlive : g.isLive n = true) :
    (n ≠ b → g'.Proceeds (f n) events) ∧
      (n = b → g'.Proceeds c ((g.node a).ins.map .performs ++ events)) := by
  induction hproceeds with
  | @here n done hbegun =>
      refine ⟨fun hother => ?_, fun here => ?_⟩
      · by_cases hfirst : n = a
        · subst hfirst
          rw [h.renamed]
          exact .here (h.code ▸ hbegun.trans (List.prefix_append ..))
        · exact .here ((h.others n hlive hfirst hother).1 ▸ hbegun)
      · subst here
        rw [← List.map_append]
        exact .here (h.code ▸ (List.prefix_append_right_inj _).2 hbegun)
  | @onward n next outcome events hgoes hrest ih =>
      obtain ⟨helsewhere, hinside⟩ := ih (h.live n outcome next hgoes)
      refine ⟨fun hother => ?_, fun here => ?_⟩
      · by_cases hfirst : n = a
        · subst hfirst
          obtain ⟨rfl, rfl⟩ := (h.leads outcome next).1 hgoes
          rw [h.renamed]
          simpa using hinside rfl
        · obtain ⟨hsame, honward⟩ := h.others n hlive hfirst hother
          rw [← hsame]
          exact .onward ((honward outcome (f next)).2 ⟨next, hgoes, rfl⟩)
            (helsewhere (h.inner n outcome next hfirst hgoes))
      · subst here
        have hall := Proceeds.onward ((h.goes outcome (f next)).2 ⟨next, hgoes, rfl⟩)
          (helsewhere (h.inner n outcome next h.apart.symm hgoes))
        rw [h.code] at hall
        simpa using hall

theorem Fuses.of_proceeds
    (h : Fuses g g' a b c f)
    {n' : NodeId}
    (hproceeds : g'.Proceeds n' events)
    {n : NodeId}
    (hlive : g.isLive n = true)
    (hother : n ≠ b)
    (hrenamed : f n = n') :
    g.Proceeds n events := by
  induction hproceeds generalizing n with
  | @here n' done hbegun =>
      subst hrenamed
      by_cases hfirst : n = a
      · subst hfirst
        rw [h.renamed, h.code] at hbegun
        rcases List.prefix_or_prefix_of_prefix hbegun
          (List.prefix_append ..) with hinFirst | ⟨rest, rfl⟩
        · exact .here hinFirst
        · have hinSecond := (List.prefix_append_right_inj _).1 hbegun
          have hboth := Proceeds.onward ((h.leads none b).2 ⟨rfl, rfl⟩) (.here hinSecond)
          simpa using hboth
      · exact .here ((h.others n hlive hfirst hother).1 ▸ hbegun)
  | @onward n' next' outcome events hgoes hrest ih =>
      subst hrenamed
      by_cases hfirst : n = a
      · subst hfirst
        rw [h.renamed] at hgoes ⊢
        obtain ⟨next, hgoes, hrenamed⟩ := (h.goes outcome next').1 hgoes
        have hafter := ih (h.live b outcome next hgoes)
          (h.inner b outcome next h.apart.symm hgoes) hrenamed
        have hboth := Proceeds.onward ((h.leads none b).2 ⟨rfl, rfl⟩) (.onward hgoes hafter)
        rw [h.code]
        simpa using hboth
      · obtain ⟨hsame, honward⟩ := h.others n hlive hfirst hother
        obtain ⟨next, hgoes, hrenamed⟩ := (honward outcome next').1 hgoes
        rw [hsame]
        exact .onward hgoes (ih (h.live n outcome next hgoes)
          (h.inner n outcome next hfirst hgoes) hrenamed)

/-- When a node and the one node it leads to become one node, or the other way round, the same
happens on paths. -/
theorem Fuses.proceeds_iff
    (h : Fuses g g' a b c f)
    {n : NodeId}
    (hlive : g.isLive n = true)
    (hother : n ≠ b)
    (events : List PathEvent) :
    g'.Proceeds (f n) events ↔ g.Proceeds n events :=
  ⟨fun hproceeds => h.of_proceeds hproceeds hlive hother rfl, fun hproceeds =>
    (h.proceeds hproceeds hlive).1 hother⟩

end Fusion

section Bypass

variable {g g' : FlowGraph} {a b : NodeId} {events : List PathEvent}

/-- A node without instructions is missing from another graph, and the only node it leads to takes
its place. -/
structure Shortens (g g' : FlowGraph) (a b : NodeId) : Prop where
  apart : b ≠ a
  empty : (g.node a).ins = []
  leads : ∀ outcome t, g.Goes a outcome t ↔ outcome = none ∧ t = b
  others : ∀ n, g.isLive n = true → n ≠ a →
    (g'.node n).ins = (g.node n).ins ∧
      ∀ outcome t', g'.Goes n outcome t' ↔ ∃ t, g.Goes n outcome t ∧ replacing a b t = t'
  live : ∀ n outcome t, g.Goes n outcome t → g.isLive t = true

theorem Shortens.proceeds
    (h : Shortens g g' a b)
    {n : NodeId}
    (hproceeds : g.Proceeds n events)
    (hlive : g.isLive n = true) :
    g'.Proceeds (replacing a b n) events := by
  induction hproceeds with
  | @here n done hbegun =>
      by_cases here : n = a
      · subst here
        rw [h.empty, List.prefix_nil] at hbegun
        subst hbegun
        exact .here (List.nil_prefix)
      · rw [replacing_of_ne here]
        exact .here ((h.others n hlive here).1 ▸ hbegun)
  | @onward n next outcome events hgoes hrest ih =>
      have hafter := ih (h.live n outcome next hgoes)
      by_cases here : n = a
      · subst here
        obtain ⟨rfl, rfl⟩ := (h.leads outcome next).1 hgoes
        rw [replacing_of_ne h.apart] at hafter
        simpa [replacing_self, h.empty] using hafter
      · obtain ⟨hsame, honward⟩ := h.others n hlive here
        rw [replacing_of_ne here, ← hsame]
        exact .onward ((honward outcome _).2 ⟨next, hgoes, rfl⟩) hafter

theorem Shortens.of_proceeds
    (h : Shortens g g' a b)
    {n : NodeId}
    (hproceeds : g'.Proceeds n events)
    (hlive : g.isLive n = true)
    (hother : n ≠ a) :
    g.Proceeds n events := by
  induction hproceeds with
  | @here n done hbegun => exact .here ((h.others n hlive hother).1 ▸ hbegun)
  | @onward n next' outcome events hgoes hrest ih =>
      obtain ⟨hsame, honward⟩ := h.others n hlive hother
      obtain ⟨next, hsource, rfl⟩ := (honward outcome next').1 hgoes
      have hthere := h.live n outcome next hsource
      rw [hsame]
      refine .onward hsource ?_
      by_cases here : next = a
      · subst here
        have hleads := (h.leads none b).2 ⟨rfl, rfl⟩
        rw [replacing_self] at ih
        -- The node that is missing goes on to `b` without doing anything.
        have hafter := Proceeds.onward hleads (ih (h.live _ none b hleads) h.apart)
        simpa [h.empty] using hafter
      · rw [replacing_of_ne here] at ih
        exact ih hthere here

/-- When a node without instructions is left out, the same happens on paths. -/
theorem Shortens.proceeds_iff
    (h : Shortens g g' a b)
    {n : NodeId}
    (hlive : g.isLive n = true)
    (events : List PathEvent) :
    g'.Proceeds (replacing a b n) events ↔ g.Proceeds n events := by
  refine ⟨fun hproceeds => ?_, fun hproceeds => h.proceeds hproceeds hlive⟩
  by_cases here : n = a
  · subst here
    rw [replacing_self] at hproceeds
    have hleads := (h.leads none b).2 ⟨rfl, rfl⟩
    have hafter := Proceeds.onward hleads (h.of_proceeds hproceeds (h.live _ none b hleads) h.apart)
    simpa [h.empty] using hafter
  · rw [replacing_of_ne here] at hproceeds
    exact h.of_proceeds hproceeds hlive here

end Bypass

end FlowGraph
end DalvikDecompiler
