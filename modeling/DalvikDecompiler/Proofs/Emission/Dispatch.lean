import DalvikDecompiler.Proofs.Emission.Jumps
import DalvikDecompiler.Proofs.FlowGraph.SwitchTables

/-!
# Where the values of a selector go

A switch gets one arm for each target whose turn comes before it has been visited, with all keys of
this target.  A target that has been visited, in front of the switch or in an earlier arm, gets no
arm, and its keys are lost: their values go where values without a key go.  These reach the default
target, or what follows the switch.

The states and the arms are those of the layout of the whole body, where each turn begins in the
state in which the one in front of it has ended.

Main statement: `switch_dispatches`, for graphs of all kinds.
-/

namespace DalvikDecompiler

namespace SwitchTable

/-- Each target is listed once, and each key goes to one target. -/
structure Exclusive (cases : SwitchTable) : Prop where
  nodup : cases.cases.Nodup
  apart : ∀ target other key, key ∈ cases.keysOf target → key ∈ cases.keysOf other →
    target = other

/-- A table that was ordered is exclusive, if its keys differ. -/
theorem order_exclusive
    {raw : SwitchTable}
    (h : raw.keys.Nodup) :
    raw.order.Exclusive := by
  obtain ⟨targets, hcases_eq, harms_eq⟩ : ∃ targets, raw.order.cases = OrderedSet.ofList targets ∧
      raw.order.arms = (raw.keys.zip targets).foldl addKey [] :=
    ⟨_, rfl, rfl⟩
  refine ⟨hcases_eq ▸ OrderedSet.nodup_ofList targets, fun target other key h₁ h₂ => ?_⟩
  simp only [keysOf, harms_eq, lookup_foldl_addKey, List.lookup_nil, Option.getD_none,
    List.nil_append, mem_keysTo] at h₁ h₂
  obtain ⟨i, hi, hsame⟩ := List.mem_iff_getElem.1 h₁
  obtain ⟨j, hj, hsame'⟩ := List.mem_iff_getElem.1 h₂
  simp only [List.getElem_zip, Prod.mk.injEq] at hsame hsame'
  obtain rfl : i = j := (h.getElem_inj_iff).1 (hsame.1.trans hsame'.1.symm)
  exact hsame.2.symm.trans hsame'.2

end SwitchTable

namespace Java

/-- The arms that have a value as their key. -/
def armsWith (arms : List SwitchArm) (value : Int32) : List SwitchArm :=
  arms.filter fun arm => arm.keys.contains value

/-- The arm that a value of the selector goes to: one with its key, or else the default. -/
def armFor? (arms : List SwitchArm) (value : Int32) : Option SwitchArm :=
  (armsWith arms value).head?.or (arms.find? SwitchArm.isDefault)

end Java

namespace Emission

open Symbolic (Variables Instr)
open Java (Block SwitchArm)

section Turns

variable {cases : SwitchTable} {targets : List NodeId} {fallback left follow : Option NodeId}
variable {s s' : Progress} {turns more : List Turn}

theorem Turns.of_mem
    (h : Turns cases targets fallback s turns left s') :
    ∀ turn ∈ turns, turn.target ∈ targets ∧ turn.keys = cases.keysOf turn.target ∧
      (turn.isDefault = true → fallback = some turn.target) := by
  induction h with
  | nil => exact fun _ h => absurd h List.not_mem_nil
  | skip _ _ ih =>
      intro turn hturn
      obtain ⟨hmem, hrest⟩ := ih turn hturn
      exact ⟨List.mem_cons_of_mem _ hmem, hrest⟩
  | write _ _ ih =>
      intro turn hturn
      rcases List.mem_cons.1 hturn with rfl | hturn
      · exact ⟨List.mem_cons_self, rfl, fun h => eq_of_beq h⟩
      · obtain ⟨hmem, hkeys, hdefault⟩ := ih turn hturn
        refine ⟨List.mem_cons_of_mem _ hmem, hkeys, fun h => ?_⟩
        have hfound := hdefault h
        split at hfound
        · cases hfound
        · exact hfound

theorem Turns.nodup
    (h : Turns cases targets fallback s turns left s')
    (hnodup : targets.Nodup) :
    (turns.map Turn.target).Nodup := by
  induction h with
  | nil => exact List.nodup_nil
  | skip _ _ ih => exact ih (List.nodup_cons.1 hnodup).2
  | @write first _ _ _ _ _ _ _ _ _ h ih =>
      obtain ⟨hnotMem, hnodup'⟩ := List.nodup_cons.1 hnodup
      refine List.nodup_cons.2 ⟨fun hmem => ?_, ih hnodup'⟩
      obtain ⟨turn, hturn, hsame⟩ := List.mem_map.1 hmem
      have hsame : turn.target = first := hsame
      exact hnotMem (hsame ▸ (h.of_mem turn hturn).1)

/-- The nodes that have been visited behind some turns. -/
def visitedBehind (s : Progress) (turns : List Turn) : List NodeId :=
  (turns.getLast?.map fun turn => turn.finish.visited).getD s.visited

/-- A target has been visited when its turn comes, behind the turns of the targets in front of
it. -/
def PassedOver
    (targets : List NodeId)
    (s : Progress)
    (turns : List Turn)
    (target : NodeId) : Prop :=
  ∃ front behind earlier later, targets = front ++ target :: behind ∧ turns = earlier ++ later ∧
    (∀ turn ∈ earlier, turn.target ∈ front) ∧ (∀ turn ∈ later, turn.target ∈ behind) ∧
    target ∈ visitedBehind s earlier

theorem PassedOver.skip
    {target first : NodeId}
    (h : PassedOver targets s turns target) :
    PassedOver (first :: targets) s turns target := by
  obtain ⟨front, behind, earlier, later, rfl, hturns, hearlier, hlater, hmem⟩ := h
  exact ⟨first :: front, behind, earlier, later, rfl, hturns,
    fun turn hturn => List.mem_cons_of_mem _ (hearlier turn hturn), hlater, hmem⟩

theorem PassedOver.write
    {target first : NodeId}
    {turn : Turn}
    {next : Progress}
    (h : PassedOver targets next turns target)
    (hfirst : turn.target = first)
    (hnext : next.visited = turn.finish.visited) :
    PassedOver (first :: targets) s (turn :: turns) target := by
  obtain ⟨front, behind, earlier, later, rfl, rfl, hearlier, hlater, hmem⟩ := h
  refine ⟨first :: front, behind, turn :: earlier, later, rfl, rfl, fun t ht => ?_, hlater, ?_⟩
  · rcases List.mem_cons.1 ht with rfl | ht
    · exact hfirst ▸ List.mem_cons_self
    · exact List.mem_cons_of_mem _ (hearlier t ht)
  · cases earlier with
    | nil => simpa [visitedBehind, hnext] using hmem
    | cons other earlier => simpa [visitedBehind, List.getLast?_cons] using hmem

/-- A target has an arm unless it had been visited when its turn came. -/
theorem Turns.taken_or_passed
    (h : Turns cases targets fallback s turns left s')
    (hnodup : targets.Nodup)
    {target : NodeId}
    (hmem : target ∈ targets) :
    (∃ turn ∈ turns, turn.target = target ∧ target ∉ turn.begin.visited) ∨
      (∀ turn ∈ turns, turn.target ≠ target) ∧ PassedOver targets s turns target := by
  induction h with
  | nil => exact absurd hmem List.not_mem_nil
  | @skip first rest _ _ _ _ turns hvisited h ih =>
      obtain ⟨hnotMem, hnodup'⟩ := List.nodup_cons.1 hnodup
      rcases List.mem_cons.1 hmem with rfl | hmem
      · exact .inr ⟨fun turn hturn hsame => hnotMem (hsame ▸ (h.of_mem turn hturn).1), [],
          rest, [], turns,
          rfl, rfl, fun _ h => absurd h List.not_mem_nil, fun turn hturn => (h.of_mem turn hturn).1,
          hvisited⟩
      · exact (ih hnodup' hmem).imp_right (And.imp_right PassedOver.skip)
  | @write first rest _ _ s _ _ _ turns hnew h ih =>
      obtain ⟨hnotMem, hnodup'⟩ := List.nodup_cons.1 hnodup
      rcases List.mem_cons.1 hmem with rfl | hmem
      · exact .inl ⟨_, List.mem_cons_self, rfl, hnew⟩
      rcases ih hnodup' hmem with ⟨turn, hturn, hsame⟩ | ⟨hothers, hpassed⟩
      · exact .inl ⟨turn, List.mem_cons_of_mem _ hturn, hsame⟩
      refine .inr ⟨fun turn hturn => ?_, hpassed.write rfl rfl⟩
      rcases List.mem_cons.1 hturn with rfl | hturn
      · exact fun hsame : first = target => hnotMem (hsame ▸ hmem)
      · exact hothers turn hturn

/-- The default target is left if no arm takes the values without a key. -/
theorem Turns.left_eq
    (h : Turns cases targets fallback s turns left s') :
    (left = fallback ∨ left = none) ∧
      ((∀ turn ∈ turns, turn.isDefault = false) → left = fallback) := by
  induction h with
  | nil => exact ⟨.inl rfl, fun _ => rfl⟩
  | skip _ _ ih => exact ih
  | @write target _ fallback left _ _ _ _ _ _ _ ih =>
      by_cases hdefault : (fallback == some target) = true
      · rw [if_pos hdefault, or_self] at ih
        exact ⟨.inr ih.1, fun hnone =>
          absurd hdefault (Bool.eq_false_iff.1 (hnone _ List.mem_cons_self))⟩
      · rw [if_neg hdefault] at ih
        exact ⟨ih.1, fun hnone => ih.2 fun turn hturn => hnone turn (List.mem_cons_of_mem _ hturn)⟩

theorem LastTurn.of_mem
    (h : LastTurn follow left s turns s') :
    ∀ turn ∈ turns, turn.keys = [] ∧ left = some turn.target := by
  cases h with
  | skip => exact fun _ h => absurd h List.not_mem_nil
  | write => exact fun turn hturn => List.mem_singleton.1 hturn ▸ ⟨rfl, rfl⟩

end Turns

/-- How the arms that the targets of a switch have got dispatch the values of its selector: a value
with a key goes to the one arm with this key, which is that of its target and has been written
before the target was visited, or there is no such arm, as its target had been visited when its turn
came; any other value goes to the arm of the default target, or to what follows the switch. -/
structure Dispatches
    (src : Source)
    (id : NodeId)
    (cases : SwitchTable)
    (s : Progress)
    (turns more : List Turn) : Prop where
  keyed : ∀ target ∈ cases.cases, ∀ value ∈ cases.keysOf target,
    (∃ turn ∈ turns, turn.target = target ∧ target ∉ turn.begin.visited ∧
        Java.armsWith ((turns ++ more).map Turn.arm) value = [turn.arm] ∧
        Java.armFor? ((turns ++ more).map Turn.arm) value = some turn.arm) ∨
      Java.armsWith ((turns ++ more).map Turn.arm) value = [] ∧
        PassedOver cases.cases s turns target
  other : ∀ value, (∀ target ∈ cases.cases, value ∉ cases.keysOf target) →
    (∃ turn ∈ turns ++ more, cases.fallback = some turn.target ∧
        Java.armFor? ((turns ++ more).map Turn.arm) value = some turn.arm) ∨
      Java.armFor? ((turns ++ more).map Turn.arm) value = none ∧
        (cases.fallback = none ∨ cases.fallback = (src.node id).switchFollow)

/-- Each switch of a layout dispatches the values of its selector. -/
def Dispatched (src : Source) : Place → Stop → Prop
  | _, .selects _ id cases s turns more _ => Dispatches src id cases s turns more
  | place, stop => Whole src.graph place stop

section Dispatching

variable {cases : SwitchTable} {turns more : List Turn} {left follow : Option NodeId}
variable {s s₁ s' : Progress}

/-- The arms with a key are those of its target. -/
theorem armsWith_map
    (hexclusive : cases.Exclusive)
    (htaken : Turns cases cases.cases cases.fallback s turns left s₁)
    (hlastTaken : LastTurn follow left s₁ more s')
    {target : NodeId}
    {value : Int32}
    (hkey : value ∈ cases.keysOf target) :
    (∀ turn ∈ turns, turn.target = target →
        Java.armsWith ((turns ++ more).map Turn.arm) value = [turn.arm]) ∧
      ((∀ turn ∈ turns, turn.target ≠ target) →
        Java.armsWith ((turns ++ more).map Turn.arm) value = []) := by
  have hapart (turn : Turn) (hmem : turn ∈ turns) (has : value ∈ turn.keys) :
      turn.target = target := by
    rw [(htaken.of_mem turn hmem).2.1] at has
    exact hexclusive.apart _ _ _ has hkey
  have hunkeyed : Java.armsWith (more.map Turn.arm) value = [] := by
    rw [Java.armsWith, List.filter_eq_nil_iff]
    intro arm harm
    obtain ⟨turn, hturn, rfl⟩ := List.mem_map.1 harm
    simp [Turn.arm, Java.SwitchArm.keys, (hlastTaken.of_mem turn hturn).1]
  have hwithout {some : List Turn} (hsub : some ⊆ turns)
      (hnone : ∀ turn ∈ some, turn.target ≠ target) :
      Java.armsWith (some.map Turn.arm) value = [] := by
    rw [Java.armsWith, List.filter_eq_nil_iff]
    intro arm harm
    obtain ⟨turn, hturn, rfl⟩ := List.mem_map.1 harm
    have := fun has => hnone turn hturn (hapart turn (hsub hturn) has)
    simpa [Turn.arm, Java.SwitchArm.keys] using this
  have hsplit (front back : List Turn) :
      Java.armsWith ((front ++ back).map Turn.arm) value =
        Java.armsWith (front.map Turn.arm) value ++ Java.armsWith (back.map Turn.arm) value := by
    simp [Java.armsWith]
  constructor
  · intro turn hmem hsame
    obtain ⟨front, back, rfl⟩ := List.append_of_mem hmem
    have hnodup := htaken.nodup hexclusive.nodup
    rw [List.map_append, List.map_cons, List.nodup_append] at hnodup
    obtain ⟨-, hbehind, hdisjoint⟩ := hnodup
    have hfront_ne : ∀ t ∈ front, t.target ≠ target := fun t ht => hsame ▸
      hdisjoint _ (List.mem_map_of_mem ht) _ List.mem_cons_self
    have hback_ne : ∀ t ∈ back, t.target ≠ target := fun t ht h =>
      (List.nodup_cons.1 hbehind).1 (hsame ▸ h ▸ List.mem_map_of_mem ht)
    have here : Java.armsWith ([turn].map Turn.arm) value = [turn.arm] := by
      have : value ∈ turn.keys := (htaken.of_mem turn hmem).2.1 ▸ hsame ▸ hkey
      simp [Java.armsWith, Turn.arm, Java.SwitchArm.keys, this]
    rw [hsplit, hunkeyed, hsplit, hwithout (List.subset_append_left ..) hfront_ne,
      ← List.singleton_append, hsplit, here,
      hwithout (List.Subset.trans (List.subset_cons_self ..) (List.subset_append_right ..))
        hback_ne]
    rfl
  · intro hnone
    rw [hsplit, hunkeyed, hwithout (List.Subset.refl _) hnone]
    rfl

/-- The values without a key go to the default target. -/
theorem armFor?_other
    (htaken : Turns cases cases.cases cases.fallback s turns left s₁)
    (hlastTaken : LastTurn follow left s₁ more s')
    {value : Int32}
    (hunkeyed : ∀ target ∈ cases.cases, value ∉ cases.keysOf target) :
    (∃ turn ∈ turns ++ more, cases.fallback = some turn.target ∧
        Java.armFor? ((turns ++ more).map Turn.arm) value = some turn.arm) ∨
      Java.armFor? ((turns ++ more).map Turn.arm) value = none ∧
        (cases.fallback = none ∨ cases.fallback = follow) := by
  have hunlabelled : Java.armsWith ((turns ++ more).map Turn.arm) value = [] := by
    rw [Java.armsWith, List.filter_eq_nil_iff]
    intro arm harm
    obtain ⟨turn, hturn, rfl⟩ := List.mem_map.1 harm
    have habsent : value ∉ turn.keys := by
      rcases List.mem_append.1 hturn with hturn | hturn
      · obtain ⟨hmem, hkeys, -⟩ := htaken.of_mem turn hturn
        exact hkeys ▸ hunkeyed _ hmem
      · exact (hlastTaken.of_mem turn hturn).1 ▸ List.not_mem_nil
    simpa [Turn.arm, Java.SwitchArm.keys] using habsent
  have hgoes : Java.armFor? ((turns ++ more).map Turn.arm) value =
      ((turns ++ more).map Turn.arm).find? SwitchArm.isDefault := by
    rw [Java.armFor?, hunlabelled]
    rfl
  obtain ⟨hleft_cases, hleft_eq⟩ := htaken.left_eq
  rw [hgoes]
  cases hfound : ((turns ++ more).map Turn.arm).find? SwitchArm.isDefault with
  | some arm =>
      obtain ⟨turn, hturn, rfl⟩ := List.mem_map.1 (List.mem_of_find?_eq_some hfound)
      refine .inl ⟨turn, hturn, ?_, rfl⟩
      rcases List.mem_append.1 hturn with hturn | hturn
      · have hdefault : turn.arm.isDefault = true := List.find?_some hfound
        exact (htaken.of_mem turn hturn).2.2 hdefault
      · have hremains := (hlastTaken.of_mem turn hturn).2
        rcases hleft_cases with hsame | hlost
        · exact hsame ▸ hremains
        · simp [hlost] at hremains
  | none =>
      have hothers := List.find?_eq_none.1 hfound
      have hkeyedOnly : ∀ turn ∈ turns, turn.isDefault = false := by
        intro turn hturn
        have hnotDefault : ¬ turn.arm.isDefault = true :=
          hothers turn.arm (List.mem_map_of_mem (List.mem_append_left more hturn))
        exact Bool.eq_false_iff.2 hnotDefault
      have hkeeps : left = cases.fallback := hleft_eq hkeyedOnly
      refine .inr ⟨rfl, ?_⟩
      cases hlastTaken with
      | write =>
          exact (hothers _ (List.mem_map_of_mem
            (List.mem_append_right turns List.mem_cons_self)) rfl).elim
      | skip hbehind =>
          rw [← hkeeps]
          cases left with
          | none => exact .inl rfl
          | some target => exact .inr (hbehind target rfl)

/-- A switch whose table is exclusive dispatches. -/
theorem Selects.dispatches
    {src : Source}
    {vars : Variables}
    {ok : Place → Stop → Prop}
    {place : Place}
    {ctx : Context}
    {id : NodeId}
    (h : Selects src vars ok place ctx id cases s turns more s')
    (hexclusive : cases.Exclusive) :
    Dispatches src id cases s turns more := by
  obtain ⟨left, s₁, htaken, hlastTaken⟩ := h.taken
  constructor
  case keyed =>
    intro target hmem value hkey
    obtain ⟨hfound, habsent⟩ := armsWith_map hexclusive htaken hlastTaken hkey
    rcases htaken.taken_or_passed hexclusive.nodup hmem with
      ⟨turn, hturn, hsame, hnew⟩ | ⟨hnone, hpassed⟩
    · have hwith_ := hfound turn hturn hsame
      refine .inl ⟨turn, hturn, hsame, hnew, hwith_, ?_⟩
      rw [Java.armFor?, hwith_]
      rfl
    · exact .inr ⟨habsent hnone, hpassed⟩
  case other => exact fun value hunkeyed => armFor?_other htaken hlastTaken hunkeyed

end Dispatching

/-- If all tables are exclusive, each switch of every method dispatches the values of its selector,
where it stands in the layout of the body. -/
theorem switch_dispatches
    (w : Writing)
    (g : FlowGraph)
    (vars : Variables)
    (naming : Java.Naming)
    (htables : ∀ id cases, (g.node id).kind.switch? = some cases → cases.Exclusive) :
    ∃ (src : Source) (naming' : Java.Naming) (body : Block) (s : Progress),
      src.writing = w ∧ src.graph = g ∧ (emit w g vars naming).method.body = some body ∧
        (emit w g vars naming).visited = s.visited ∧
        Lays src vars (Dispatched src) .outermost .outermost g.entry .node
          (.start vars naming') body s := by
  obtain ⟨src, naming', body, s, rfl, rfl, hbody, hvisited, -, hlays⟩ := told_emit w g vars naming
  refine ⟨src, naming', body, s, rfl, rfl, hbody, hvisited, ?_⟩
  refine hlays.map .outermost .start (.refl s) fun place stop htold _ => ?_
  cases stop with
  | selects ctx id cases _ turns more =>
      obtain ⟨hselects, -⟩ := htold.2
      exact hselects.dispatches (htables id cases hselects.kind)
  | _ => exact htold.1

/-- `while (a != 0) { switch (b) { … } }`, where the first key goes to the head of the loop. -/
def lostKey : FlowGraph :=
  { FlowGraph.empty with
    slots := #[
      sampleSlot 1 none (.conditional ⟨2, 1⟩) [sampleTest 1] [1, 2] [1, 3, 4],
      sampleSlot 3 none (.switch (.unordered [1, 2] [3, 0, 4])) [.switch (.var 0)] [3, 0, 4] [0],
      sampleSlot 2 none .ret [sampleAssignment 3, .ret none] [] [0],
      sampleSlot 5 none .statement [sampleAssignment 1] [0] [1],
      sampleSlot 4 none .statement [sampleAssignment 2] [0] [1]]
    order := [0, 2, 1, 4, 3] }

theorem lostKey_exclusive
    (id : NodeId)
    (cases : SwitchTable)
    (h : ((sampleStructured lostKey).node id).kind.switch? = some cases) :
    cases.Exclusive := by
  have hsize : (sampleStructured lostKey).size = 5 := by cbv
  have htable : ((sampleStructured lostKey).node id).kind.switch? =
      if id = 1 then some (SwitchTable.unordered [1, 2] [3, 0, 4]).order else none := by
    rcases Nat.lt_or_ge id 5 with hknown | hunknown
    · interval_cases id <;> cbv
    · rw [FlowGraph.node_of_size_le (hsize ▸ hunknown), if_neg (by rintro rfl; omega)]
      rfl
  rw [htable] at h
  split at h
  · exact Option.some.inj h ▸ SwitchTable.order_exclusive (by decide)
  · cases h

theorem switch_dispatches_lostKey :
    ∃ (src : Source) (naming' : Java.Naming) (body : Block) (s : Progress),
      src.writing = sampleWriting ∧ src.graph = sampleStructured lostKey ∧
        (emit sampleWriting (sampleStructured lostKey) .empty .empty).method.body = some body ∧
        (emit sampleWriting (sampleStructured lostKey) .empty .empty).visited = s.visited ∧
        Lays src .empty (Dispatched src) .outermost .outermost
          (sampleStructured lostKey).entry .node
          (.start .empty naming') body s :=
  switch_dispatches sampleWriting (sampleStructured lostKey) .empty .empty lostKey_exclusive

/-- The first key goes to the head of the loop, but no arm has it. -/
theorem lostKey_noArm :
    let g := sampleStructured lostKey
    ((g.node 1).kind.switch?.map fun cases => (cases.keysOf 0, cases.keysOf 4)) =
        some ([1], [2]) ∧
      (emit sampleWriting g .empty .empty).method.body = some
        (.whileLoop (condition .empty "LT;" (sampleTest 1) true)
          [.switch (expression .empty "LT;" (.var 0) (some "I"))
            [.mk [2] false (sampleStatement 2 ++ [plainJump .continue]),
              .mk [] true (sampleStatement 1 ++ [plainJump .continue])]] ::
          (sampleStatement 3 ++ [.ret none])) := by
  refine ⟨?_, ?_⟩
  · cbv
  · cbv

end Emission
end DalvikDecompiler
