import DalvikDecompiler.OrderedSet
import Mathlib

/-!
# Members and entries of ordered sets and maps

**Results.** Inserting and erasing change membership and look-up as they do in
unordered sets and maps, and no set gets an element twice.
-/

namespace DalvikDecompiler
namespace OrderedSet

variable {α : Type} [BEq α] [LawfulBEq α] {xs ys : List α} {x y : α}

@[simp] theorem mem_insert :
    y ∈ insert xs x ↔ y ∈ xs ∨ y = x := by
  unfold insert
  split
  · rename_i h
    have hx : x ∈ xs := List.contains_iff_mem.mp h
    constructor
    · exact Or.inl
    · rintro (h | rfl)
      · exact h
      · exact hx
  · simp

@[simp] theorem mem_insertAll :
    y ∈ insertAll xs ys ↔ y ∈ xs ∨ y ∈ ys := by
  unfold insertAll
  induction ys generalizing xs with
  | nil => simp
  | cons z ys ih => simp [ih, or_assoc]

@[simp] theorem mem_ofList :
    y ∈ ofList xs ↔ y ∈ xs := by
  simp [ofList]

@[simp] theorem mem_erase :
    y ∈ erase xs x ↔ y ∈ xs ∧ y ≠ x := by
  simp [erase]

theorem nodup_insert
    (h : xs.Nodup) :
    (insert xs x).Nodup := by
  unfold insert
  split
  · exact h
  · rename_i hx
    have hx : x ∉ xs := fun hmem => hx (List.contains_iff_mem.mpr hmem)
    refine List.nodup_append.mpr ⟨h, List.nodup_singleton x, fun a ha b hb => ?_⟩
    rw [List.mem_singleton.mp hb]
    rintro rfl
    exact hx ha

theorem nodup_insertAll
    (h : xs.Nodup) :
    (insertAll xs ys).Nodup := by
  induction ys generalizing xs with
  | nil => exact h
  | cons y ys ih => exact ih (nodup_insert h)

theorem nodup_ofList
    (xs : List α) :
    (ofList xs).Nodup :=
  nodup_insertAll List.nodup_nil

theorem insert_of_mem
    (h : x ∈ xs) :
    insert xs x = xs :=
  if_pos (List.contains_iff_mem.mpr h)

theorem insert_of_not_mem
    (h : x ∉ xs) :
    insert xs x = xs ++ [x] :=
  if_neg fun hx => h (List.contains_iff_mem.mp hx)

theorem insertAll_of_subset
    (h : ys ⊆ xs) :
    insertAll xs ys = xs := by
  induction ys with
  | nil => rfl
  | cons y ys ih =>
      obtain ⟨hy, hys⟩ := List.cons_subset.mp h
      unfold insertAll at ih ⊢
      rw [List.foldl_cons, insert_of_mem hy, ih hys]

/-- Elements that are not there yet are put at the end in their order. -/
theorem insertAll_of_disjoint
    (h : ys.Nodup)
    (hnew : ∀ y, y ∈ ys → y ∉ xs) :
    insertAll xs ys = xs ++ ys := by
  induction ys generalizing xs with
  | nil => exact (List.append_nil xs).symm
  | cons y ys ih =>
      obtain ⟨hy, hys⟩ := List.nodup_cons.mp h
      have hfirst : insert xs y = xs ++ [y] := insert_of_not_mem (hnew y List.mem_cons_self)
      change insertAll (insert xs y) ys = _
      rw [hfirst, ih hys fun z hz hmem => ?_]
      · simp
      · rcases List.mem_append.mp hmem with hmem | hmem
        · exact hnew z (List.mem_cons_of_mem y hz) hmem
        · exact hy (List.mem_singleton.mp hmem ▸ hz)

omit [LawfulBEq α] in
theorem nodup_erase
    (h : xs.Nodup) :
    (erase xs x).Nodup :=
  h.filter _

theorem erase_of_not_mem
    (h : x ∉ xs) :
    erase xs x = xs := by
  refine List.filter_eq_self.mpr fun y hy => ?_
  simpa using ne_of_mem_of_not_mem hy h

end OrderedSet

namespace OrderedMap

variable {κ β : Type} [BEq κ] [LawfulBEq κ] {key other : κ} {value : β}

@[simp] theorem lookup_insert
    (entries : List (κ × β)) :
    (insert key value entries).lookup other =
      if other == key then some value else entries.lookup other := by
  induction entries with
  | nil =>
      by_cases h : other = key
      · simp [insert, h]
      · have h' : (other == key) = false := by simp [h]
        simp [insert, List.lookup, h']
  | cons entry entries ih =>
      obtain ⟨k, v⟩ := entry
      by_cases hk : k = key
      · subst hk
        by_cases h : other = k
        · simp [insert, h]
        · have h' : (other == k) = false := by simp [h]
          simp [insert, List.lookup, h']
      · have hk' : (k == key) = false := by simp [hk]
        rw [insert, hk']
        by_cases h : other = k
        · subst h
          simp [List.lookup, hk]
        · have h' : (other == k) = false := by simp [h]
          simp [List.lookup, h', ih]

@[simp] theorem lookup_erase
    (entries : List (κ × β)) :
    (erase key entries).lookup other =
      if other == key then none else entries.lookup other := by
  induction entries with
  | nil => simp [erase]
  | cons entry entries ih =>
      obtain ⟨k, v⟩ := entry
      unfold erase at ih ⊢
      by_cases hk : k = key
      · subst hk
        by_cases h : other = k
        · subst h
          simpa using ih
        · have h' : (other == k) = false := by simp [h]
          simpa [List.lookup, h'] using ih
      · by_cases h : other = k
        · subst h
          simp [List.lookup, hk]
        · have h' : (other == k) = false := by simp [h]
          simpa [List.lookup, hk, h'] using ih

theorem keys_insert
    (entries : List (κ × β)) :
    (insert key value entries).map Prod.fst =
      OrderedSet.insert (entries.map Prod.fst) key := by
  induction entries with
  | nil => simp [insert, OrderedSet.insert]
  | cons entry entries ih =>
      obtain ⟨k, v⟩ := entry
      by_cases hk : k = key
      · subst hk
        simp [insert, OrderedSet.insert]
      · have hk' : (k == key) = false := by simp [hk]
        have hk'' : (key == k) = false := by simpa using fun h => hk h.symm
        rw [insert, hk']
        simp only [Bool.false_eq_true, if_false, List.map_cons, ih, OrderedSet.insert,
          List.contains_cons, hk'', Bool.false_or, List.cons_append]
        split <;> rfl

theorem nodup_keys_insert
    {entries : List (κ × β)}
    (h : (entries.map Prod.fst).Nodup) :
    ((insert key value entries).map Prod.fst).Nodup := by
  rw [keys_insert]
  exact OrderedSet.nodup_insert h

/-- In a map with one entry per key, the entries are what look-up finds. -/
theorem mem_iff_lookup_eq_some
    {entries : List (κ × β)}
    (h : (entries.map Prod.fst).Nodup) :
    (key, value) ∈ entries ↔ entries.lookup key = some value := by
  induction entries with
  | nil => simp
  | cons entry entries ih =>
      obtain ⟨k, v⟩ := entry
      obtain ⟨hnot, h⟩ := List.nodup_cons.mp h
      by_cases hk : key = k
      · subst hk
        have hno : (key, value) ∉ entries := fun hmem =>
          hnot (List.mem_map.mpr ⟨(key, value), hmem, rfl⟩)
        simp [hno, eq_comm]
      · have hk' : (key == k) = false := by simp [hk]
        simp [List.lookup, hk', hk, ih h]

end OrderedMap
end DalvikDecompiler
