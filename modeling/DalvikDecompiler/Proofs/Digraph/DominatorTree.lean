import DalvikDecompiler.Digraph.Dominator
import Mathlib

/-!
# Reading and editing dominator trees

**Input.** A dominator tree in which every node has a larger number than the
node right above it.

`Above` says that one node is found from another one by going up.  Numbers get
smaller on the way up, so that the bounds on the number of steps of `chain` and
`meet` are never reached.

**Results.**
* `dominates_iff_above`: the test for dominance finds exactly the nodes above.
* `above_commonDominator_iff`: the nodes above the common dominator of two
  nodes are exactly the nodes above both.
* `above_setParent_iff`: what is above a node after a node has been moved
  further up.
-/

namespace DalvikDecompiler
namespace DominatorTree

/-- Whether a node is found by going up from another one, which may be the same. -/
inductive Above (t : DominatorTree) (a : NodeId) : NodeId → Prop
  | here : Above t a a
  | up {b c : NodeId} :
      t.immediateDominator b = some c →
      Above t a c →
      Above t a b

/-- Numbers get smaller on the way up, and none is larger than the number of slots. -/
structure Ranked (t : DominatorTree) : Prop where
  lt : ∀ b c, t.immediateDominator b = some c → t.number c < t.number b
  le_size : ∀ b, t.number b ≤ t.size

/-- Nodes with a number have different numbers, and the entry has one. -/
structure Distinct (t : DominatorTree) : Prop where
  eq_of_number_eq : ∀ a b, t.number a ≠ 0 → t.number a = t.number b → a = b
  number_entry : t.number t.entry ≠ 0

section Edit

variable (t : DominatorTree) (n m : Nat)

theorem getElem?_reserve :
    (t.reserve n).entries[m]? =
      t.entries[m]?.or (if m < n + 1 then some ⟨none, 0⟩ else none) := by
  simp only [reserve, size, Array.getElem?_append, Array.getElem?_replicate]
  by_cases h : m < t.entries.size
  · simp [h]
  · have hiff : m - t.entries.size < n + 1 - t.entries.size ↔ m < n + 1 := by omega
    simp [h, hiff]

@[simp] theorem immediateDominator_setParent
    (parent : Option NodeId) :
    (t.setParent n parent).immediateDominator m =
      if m = n then parent else t.immediateDominator m := by
  simp only [immediateDominator, setParent, Array.getElem?_modify, getElem?_reserve]
  by_cases h : m = n
  · subst h
    cases t.entries[m]? <;> simp
  · have h' : ¬ n = m := fun e => h e.symm
    by_cases hlt : m < n + 1 <;> cases t.entries[m]? <;> simp [h, h', hlt]

@[simp] theorem number_setParent
    (parent : Option NodeId) :
    (t.setParent n parent).number m = t.number m := by
  simp only [number, setParent, Array.getElem?_modify, getElem?_reserve]
  by_cases h : n = m <;> by_cases hlt : m < n + 1 <;> cases t.entries[m]? <;> simp [h, hlt]

@[simp] theorem entry_setParent
    (parent : Option NodeId) :
    (t.setParent n parent).entry = t.entry :=
  rfl

theorem size_setParent
    (parent : Option NodeId)
    (h : n < t.size) :
    (t.setParent n parent).size = t.size := by
  have h : n < t.entries.size := h
  simp only [size, setParent, reserve, Array.size_modify, Array.size_append, Array.size_replicate]
  omega

@[simp] theorem immediateDominator_setNumber
    (number : Nat) :
    (t.setNumber n number).immediateDominator m = t.immediateDominator m := by
  simp only [immediateDominator, setNumber, Array.getElem?_modify, getElem?_reserve]
  by_cases h : n = m <;> by_cases hlt : m < n + 1 <;> cases t.entries[m]? <;> simp [h, hlt]

@[simp] theorem number_setNumber
    (number : Nat) :
    (t.setNumber n number).number m = if m = n then number else t.number m := by
  simp only [DominatorTree.number, setNumber, Array.getElem?_modify, getElem?_reserve]
  by_cases h : m = n
  · subst h
    cases t.entries[m]? <;> simp
  · have h' : ¬ n = m := fun e => h e.symm
    by_cases hlt : m < n + 1 <;> cases t.entries[m]? <;> simp [h, h', hlt]

@[simp] theorem entry_setNumber
    (number : Nat) :
    (t.setNumber n number).entry = t.entry :=
  rfl

theorem size_setNumber
    (number : Nat)
    (h : n < t.size) :
    (t.setNumber n number).size = t.size := by
  have h : n < t.entries.size := h
  simp only [size, setNumber, reserve, Array.size_modify, Array.size_append, Array.size_replicate]
  omega

end Edit

namespace Above

variable {t : DominatorTree} {a b c : NodeId}

theorem trans
    (h : t.Above a b)
    (h' : t.Above b c) :
    t.Above a c := by
  induction h' with
  | here => exact h
  | up hp _ ih => exact .up hp ih

/-- What is above a node other than itself is above its parent. -/
theorem of_parent
    (h : t.Above a b)
    (hne : a ≠ b)
    (hp : t.immediateDominator b = some c) :
    t.Above a c := by
  cases h with
  | here => exact absurd rfl hne
  | up hp' h =>
      rw [hp] at hp'
      cases hp'
      exact h

/-- A node with another one above it has a parent. -/
theorem exists_parent
    (h : t.Above a b)
    (hne : a ≠ b) :
    ∃ c, t.immediateDominator b = some c ∧ t.Above a c := by
  cases h with
  | here => exact absurd rfl hne
  | up hp h => exact ⟨_, hp, h⟩

theorem number_le
    (hr : t.Ranked)
    (h : t.Above a b) :
    t.number a ≤ t.number b := by
  induction h with
  | here => exact Nat.le_refl _
  | up hp _ ih => exact Nat.le_of_lt (Nat.lt_of_le_of_lt ih (hr.lt _ _ hp))

theorem number_lt
    (hr : t.Ranked)
    (h : t.Above a b)
    (hne : a ≠ b) :
    t.number a < t.number b := by
  obtain ⟨c, hp, h⟩ := h.exists_parent hne
  exact Nat.lt_of_le_of_lt (h.number_le hr) (hr.lt _ _ hp)

end Above

section Reading

variable {t : DominatorTree}

/-- A chain with enough steps has all nodes above its first one. -/
theorem mem_chain_iff
    (hr : t.Ranked)
    {a : NodeId}
    (steps : Nat)
    {b : NodeId}
    (hb : t.number b < steps) :
    a ∈ t.chain steps b ↔ t.Above a b := by
  induction steps generalizing b with
  | zero => exact absurd hb (Nat.not_lt_zero _)
  | succ steps ih =>
      cases hp : t.immediateDominator b with
      | none =>
          simp only [chain, hp, List.mem_singleton]
          constructor
          · rintro rfl
            exact .here
          · intro h
            cases h with
            | here => rfl
            | up hp' _ => rw [hp] at hp'; cases hp'
      | some c =>
          have hc : t.number c < steps := by
            have := hr.lt b c hp
            omega
          simp only [chain, hp, List.mem_cons, ih hc]
          constructor
          · rintro (rfl | h)
            · exact .here
            · exact .up hp h
          · intro h
            by_cases hab : a = b
            · exact Or.inl hab
            · exact Or.inr (h.of_parent hab hp)

/-- The test for dominance finds exactly the nodes above. -/
theorem dominates_iff_above
    (hr : t.Ranked)
    (a b : NodeId) :
    t.dominates a b = true ↔ t.Above a b := by
  rw [dominates, List.contains_iff_mem, dominators]
  exact mem_chain_iff hr _ (Nat.lt_succ_of_le (hr.le_size b))

/-- Two walks up with enough steps meet at a node below which no node is above both starts. -/
theorem above_meet_iff
    (hr : t.Ranked)
    (hd : t.Distinct)
    {d : NodeId}
    (steps : Nat)
    {a b : NodeId}
    (ha : t.Above t.entry a)
    (hb : t.Above t.entry b)
    (hsteps : t.number a + t.number b < steps) :
    t.Above d (t.meet steps a b) ↔ t.Above d a ∧ t.Above d b := by
  induction steps generalizing a b with
  | zero => exact absurd hsteps (Nat.not_lt_zero _)
  | succ steps ih =>
      have hpos : t.number a ≠ 0 := by
        have h1 := ha.number_le hr
        have h2 := hd.number_entry
        omega
      by_cases hab : a = b
      · subst hab
        simp [meet]
      · have hne : t.number a ≠ t.number b := fun h => hab (hd.eq_of_number_eq a b hpos h)
        by_cases hlt : t.number a < t.number b
        · have hbe : t.entry ≠ b := by
            rintro rfl
            have := ha.number_le hr
            omega
          obtain ⟨c, hp, hc⟩ := hb.exists_parent hbe
          have hlt' := hr.lt b c hp
          simp only [meet, hab, hne, hlt, hp, if_true, if_false]
          rw [ih ha hc (by omega)]
          constructor
          · rintro ⟨h1, h2⟩
            exact ⟨h1, .up hp h2⟩
          · rintro ⟨h1, h2⟩
            refine ⟨h1, h2.of_parent ?_ hp⟩
            rintro rfl
            have := h1.number_le hr
            omega
        · have hae : t.entry ≠ a := by
            rintro rfl
            have := hb.number_le hr
            omega
          obtain ⟨c, hp, hc⟩ := ha.exists_parent hae
          have hlt' := hr.lt a c hp
          simp only [meet, hab, hne, hlt, hp, if_false]
          rw [ih hc hb (by omega)]
          constructor
          · rintro ⟨h1, h2⟩
            exact ⟨.up hp h1, h2⟩
          · rintro ⟨h1, h2⟩
            refine ⟨h1.of_parent ?_ hp, h2⟩
            rintro rfl
            have := h2.number_le hr
            omega

/-- Two walks up come to an end on their own: any two bounds that are large enough give the same.
-/
theorem meet_eq_of_lt
    (hr : t.Ranked)
    (steps steps' : Nat)
    {a b : NodeId}
    (h : t.number a + t.number b < steps)
    (h' : t.number a + t.number b < steps') :
    t.meet steps a b = t.meet steps' a b := by
  induction steps generalizing steps' a b with
  | zero => exact absurd h (Nat.not_lt_zero _)
  | succ steps ih =>
      cases steps' with
      | zero => exact absurd h' (Nat.not_lt_zero _)
      | succ steps' =>
          simp only [meet]
          split
          · rfl
          · split
            · rfl
            · split
              · cases hp : t.immediateDominator b with
                | none => rfl
                | some c =>
                    have hlt := hr.lt b c hp
                    exact ih steps' (by omega) (by omega)
              · cases hp : t.immediateDominator a with
                | none => rfl
                | some c =>
                    have hlt := hr.lt a c hp
                    exact ih steps' (by omega) (by omega)

/-- The bound on the steps of a common dominator is never reached. -/
theorem number_add_number_lt
    (hr : t.Ranked)
    (a b : NodeId) :
    t.number a + t.number b < (t.size + 2) * (t.size + 2) := by
  have h1 := hr.le_size a
  have h2 := hr.le_size b
  calc t.number a + t.number b
      < (t.size + 2) * 2 := by omega
    _ ≤ (t.size + 2) * (t.size + 2) := Nat.mul_le_mul_left _ (by omega)

/-- The nodes above the common dominator of two nodes are those above both. -/
theorem above_commonDominator_iff
    (hr : t.Ranked)
    (hd : t.Distinct)
    {d a b : NodeId}
    (ha : t.Above t.entry a)
    (hb : t.Above t.entry b) :
    t.Above d (t.commonDominator a b) ↔ t.Above d a ∧ t.Above d b :=
  above_meet_iff hr hd _ ha hb (number_add_number_lt hr a b)

/-- What the common dominator of two nodes has, that of several nodes has. -/
theorem exists_commonDominatorOf_of_pairs
    {above : NodeId → NodeId → Prop}
    {good : NodeId → Prop}
    (hpair : ∀ a b, good a → good b → good (t.commonDominator a b) ∧
      ∀ d, above d (t.commonDominator a b) ↔ above d a ∧ above d b)
    {nodes : List NodeId}
    (hne : nodes ≠ [])
    (hnodes : ∀ p, p ∈ nodes → good p) :
    ∃ c, t.commonDominatorOf nodes = some c ∧ good c ∧
      ∀ d, above d c ↔ ∀ p, p ∈ nodes → above d p := by
  -- from any common dominator so far to that of it and the nodes to come
  have hfold : ∀ (nodes : List NodeId) (c : NodeId), (∀ p, p ∈ nodes → good p) → good c →
      ∃ c', t.commonDominatorOf (c :: nodes) = some c' ∧ good c' ∧
        ∀ d, above d c' ↔ above d c ∧ ∀ p, p ∈ nodes → above d p := by
    intro nodes
    induction nodes with
    | nil => exact fun c _ hc => ⟨c, rfl, hc, by simp⟩
    | cons p nodes ih =>
        intro c hnodes hc
        obtain ⟨hgood, habove⟩ := hpair c p hc (hnodes p (by simp))
        obtain ⟨c', heq, hc', hiff⟩ := ih _ (fun q hq => hnodes q (by simp [hq])) hgood
        refine ⟨c', heq, hc', fun d => ?_⟩
        rw [hiff, habove]
        simp [and_assoc]
  cases nodes with
  | nil => exact absurd rfl hne
  | cons p nodes =>
      obtain ⟨c, heq, hc, hiff⟩ :=
        hfold nodes p (fun q hq => hnodes q (by simp [hq])) (hnodes p (by simp))
      exact ⟨c, heq, hc, fun d => by rw [hiff]; simp⟩

/-- The nodes above the common dominator of several nodes are those above all of them. -/
theorem exists_commonDominatorOf
    (hr : t.Ranked)
    (hd : t.Distinct)
    {nodes : List NodeId}
    (hne : nodes ≠ [])
    (hnodes : ∀ p, p ∈ nodes → t.Above t.entry p) :
    ∃ c, t.commonDominatorOf nodes = some c ∧
      ∀ d, t.Above d c ↔ ∀ p, p ∈ nodes → t.Above d p := by
  have hpair : ∀ a b, t.Above t.entry a → t.Above t.entry b →
      t.Above t.entry (t.commonDominator a b) ∧
        ∀ d, t.Above d (t.commonDominator a b) ↔ t.Above d a ∧ t.Above d b := by
    intro a b ha hb
    have hiff := fun d => above_commonDominator_iff (d := d) hr hd ha hb
    exact ⟨(hiff t.entry).mpr ⟨ha, hb⟩, hiff⟩
  obtain ⟨c, heq, -, hiff⟩ := exists_commonDominatorOf_of_pairs hpair hne hnodes
  exact ⟨c, heq, hiff⟩

end Reading

section Moving

variable {t : DominatorTree} {n c : NodeId}

/-- Nodes that are not below a node keep what is above them when that node gets another parent.
-/
theorem above_setParent_of_not_above
    (parent : Option NodeId)
    {d m : NodeId}
    (h : ¬ t.Above n m) :
    (t.setParent n parent).Above d m ↔ t.Above d m := by
  constructor
  · intro hd
    induction hd with
    | here => exact .here
    | @up b e hp _ ih =>
        have hbn : b ≠ n := by
          rintro rfl
          exact h .here
        rw [immediateDominator_setParent, if_neg hbn] at hp
        exact .up hp (ih fun he => h (.up hp he))
  · intro hd
    induction hd with
    | here => exact .here
    | @up b e hp _ ih =>
        have hbn : b ≠ n := by
          rintro rfl
          exact h .here
        refine .up ?_ (ih fun he => h (.up hp he))
        rw [immediateDominator_setParent, if_neg hbn, hp]

/-- Above a node with a new parent stand the node itself and what is above the parent. -/
theorem above_setParent_self
    {d : NodeId}
    (h : ¬ t.Above n c) :
    (t.setParent n (some c)).Above d n ↔ d = n ∨ t.Above d c := by
  have hp : (t.setParent n (some c)).immediateDominator n = some c := by simp
  rw [← above_setParent_of_not_above (some c) h]
  constructor
  · intro hd
    by_cases hdn : d = n
    · exact Or.inl hdn
    · exact Or.inr (hd.of_parent hdn hp)
  · rintro (rfl | hd)
    · exact .here
    · exact .up hp hd

/-- After a node has been moved further up, the nodes that were above it and are not above its new
parent are gone from above it and from above everything below it. -/
theorem above_setParent_iff
    (hr : t.Ranked)
    (hcn : t.Above c n)
    (hne : c ≠ n)
    (d m : NodeId) :
    (t.setParent n (some c)).Above d m ↔
      t.Above d m ∧ (t.Above n m → t.number n ≤ t.number d ∨ t.Above d c) := by
  have hc : ¬ t.Above n c := fun h =>
    absurd (h.number_le hr) (Nat.not_le.mpr (hcn.number_lt hr hne))
  by_cases hnm : t.Above n m
  · -- along the way from `m` up to `n`, where the parents are the old ones
    induction hnm with
    | here =>
        rw [above_setParent_self hc]
        constructor
        · rintro (rfl | h)
          · exact ⟨.here, fun _ => Or.inl (Nat.le_refl _)⟩
          · exact ⟨h.trans hcn, fun _ => Or.inr h⟩
        · rintro ⟨h, h'⟩
          by_cases hdn : d = n
          · exact Or.inl hdn
          · have hlt := h.number_lt hr hdn
            exact Or.inr ((h' .here).resolve_left (Nat.not_le.mpr hlt))
    | @up b e hp hne' ih =>
        have hbn : b ≠ n := by
          rintro rfl
          have h1 := hr.lt b e hp
          have h2 := hne'.number_le hr
          omega
        have hp' : (t.setParent n (some c)).immediateDominator b = some e := by
          rw [immediateDominator_setParent, if_neg hbn, hp]
        constructor
        · intro h
          by_cases hdb : d = b
          · subst hdb
            exact ⟨.here, fun h => Or.inl (h.number_le hr)⟩
          · obtain ⟨h1, h2⟩ := ih.mp (h.of_parent hdb hp')
            exact ⟨.up hp h1, fun _ => h2 hne'⟩
        · rintro ⟨h1, h2⟩
          by_cases hdb : d = b
          · subst hdb
            exact .here
          · exact .up hp' (ih.mpr ⟨h1.of_parent hdb hp, fun _ => h2 (.up hp hne')⟩)
  · rw [above_setParent_of_not_above _ hnm]
    exact ⟨fun h => ⟨h, fun h' => absurd h' hnm⟩, fun h => h.1⟩

end Moving

end DominatorTree
end DalvikDecompiler
