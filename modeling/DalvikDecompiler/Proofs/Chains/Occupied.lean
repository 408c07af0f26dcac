import DalvikDecompiler.Proofs.Chains.DeadCode
import DalvikDecompiler.Proofs.Chains.Moves
import DalvikDecompiler.Proofs.Chains.Splitting

/-!
# Definitions in use

**Input.** Chains that list no definition without a use.

A link that is dropped takes its definition with it when it was the last one, and
a definition that gets another variable keeps its uses.

**Results.** `Splitting.run_occupied`, `Pruning.run_occupied` and
`Propagation.run_occupied`: at each stage the chains list the definitions that have
a use, and no others.
-/

namespace DalvikDecompiler

open Symbolic (VarId Variables Instr)

namespace Chains

variable {c : Chains}

/-- A site that is left has a link left. -/
theorem mem_keys_drop
    {m : LinkMap}
    {site other : DefSite}
    {loc : Loc}
    (h : other ∈ (m.drop site loc).map Prod.fst) :
    other ∈ m.map Prod.fst ∧
      (other = site → m.lookup site ≠ none → (m.drop site loc).linked site ≠ []) := by
  unfold LinkMap.drop at h ⊢
  cases hsite : m.lookup site with
  | none => exact ⟨by simpa [hsite] using h, fun _ hne => absurd rfl hne⟩
  | some locs =>
      cases hrest : OrderedSet.erase locs loc with
      | nil =>
          simp only [hsite, hrest, OrderedMap.erase, List.mem_map, List.mem_filter] at h
          obtain ⟨entry, ⟨hentry, hne⟩, rfl⟩ := h
          exact ⟨List.mem_map_of_mem hentry, fun heq => by simp [heq] at hne⟩
      | cons first rest =>
          simp only [hsite, hrest, OrderedMap.keys_insert, OrderedSet.mem_insert] at h
          refine ⟨?_, fun _ _ => by simp [LinkMap.linked, hrest]⟩
          rcases h with h | rfl
          · exact h
          · obtain ⟨front, behind, rfl, -⟩ := List.lookup_eq_some_iff.mp hsite
            simp

theorem Occupied.unlink
    (h : c.Occupied)
    (v : VarId)
    (d u : Loc) :
    (c.unlink v d u).Occupied := by
  rintro ⟨w, e⟩ hsite
  obtain ⟨hold, hleft⟩ := mem_keys_drop hsite
  obtain ⟨x, hx⟩ := h _ hold
  by_cases heq : (w, e) = (v, d)
  · obtain ⟨rfl, rfl⟩ := Prod.mk.inj heq
    have hsome : c.usesAt.lookup (w, e) ≠ none := fun hnone => by
      simp [Chains.uses, LinkMap.linked, hnone] at hx
    exact List.exists_mem_of_ne_nil _ (hleft rfl hsome)
  · refine ⟨x, mem_uses_unlink.mpr ⟨hx, ?_⟩⟩
    rintro ⟨rfl, rfl, -⟩
    exact heq rfl

theorem Occupied.forgetUse
    (h : c.Occupied)
    (v : VarId)
    (u : Loc) :
    (c.forgetUse v u).Occupied :=
  List.foldlRecOn _ _ h fun _ h d _ => h.unlink v d u

theorem Occupied.reassign
    (h : c.Occupied)
    (old : VarId)
    (d : Loc)
    (new : VarId) :
    (c.reassign old d new).Occupied := by
  unfold Chains.reassign
  cases huses : c.usesAt.lookup (old, d) with
  | none => exact h
  | some uses =>
      have hkey : (old, d) ∈ c.usesAt.map Prod.fst := by
        obtain ⟨front, behind, heq, -⟩ := List.lookup_eq_some_iff.mp huses
        simp [heq]
      obtain ⟨u, hu⟩ := h _ hkey
      simp only [Chains.uses, LinkMap.linked, huses, Option.getD_some] at hu
      rintro ⟨w, e⟩ hsite
      simp only [Chains.uses, LinkMap.linked, OrderedMap.lookup_insert, OrderedMap.lookup_erase]
      by_cases hnew : (w, e) = (new, d)
      · exact ⟨u, by simpa [hnew] using hu⟩
      · simp only [OrderedMap.keys_insert, OrderedSet.mem_insert, hnew, or_false, OrderedMap.erase,
          List.mem_map, List.mem_filter] at hsite
        obtain ⟨entry, ⟨hentry, hne⟩, hfst⟩ := hsite
        obtain ⟨x, hx⟩ := h (w, e) (hfst ▸ List.mem_map_of_mem hentry)
        rw [hfst, Bool.not_eq_true'] at hne
        refine ⟨x, ?_⟩
        rw [beq_eq_false_iff_ne.mpr hnew, hne]
        exact hx

end Chains

theorem Splitting.run_occupied
    {s : Splitting}
    (h : s.chains.Occupied) :
    (run s).2.chains.Occupied := by
  rw [run_eq_foldl]
  refine List.foldlRecOn (motive := fun s : Splitting => s.chains.Occupied) _ _ h
    fun s h task _ => ?_
  obtain ⟨v, web, version⟩ := task
  unfold separate
  dsimp only
  split
  · exact h
  · exact List.foldlRecOn _ _ h fun _ h d _ => h.reassign v d _

namespace Pruning

theorem removeDead_occupied
    {s : Pruning}
    (depth : Nat)
    (loc : Loc)
    (h : s.chains.Occupied) :
    (removeDead depth s loc).chains.Occupied := by
  induction depth generalizing s loc with
  | zero => exact h
  | succ depth ih =>
      unfold removeDead
      split
      · exact h
      · split
        · exact h
        · split
          · exact h
          · refine List.foldlRecOn (motive := fun s : Pruning => s.chains.Occupied) _ _ h
              fun s h v _ => ?_
            refine List.foldlRecOn (motive := fun s : Pruning => s.chains.Occupied) _ _
              (h.forgetUse v loc) fun s h d _ => ?_
            split
            · exact ih d h
            · exact h

theorem run_occupied
    {g : FlowGraph}
    {c : Chains}
    (h : c.Occupied) :
    (run g c).chains.Occupied := by
  refine List.foldlRecOn (motive := fun s : Pruning => s.chains.Occupied) _ _ h fun s h id _ => ?_
  refine List.foldlRecOn (motive := fun s : Pruning => s.chains.Occupied) _ _ h fun s h loc _ => ?_
  unfold removeUnused
  split
  · exact h
  · split
    · exact h
    · exact removeDead_occupied _ loc h

end Pruning

namespace Propagation

theorem apply_occupied
    {s : Propagation}
    (use : Loc)
    (move : Move)
    (h : s.chains.Occupied) :
    (s.apply use move).chains.Occupied := by
  have hmoved : ∀ operands : List VarId, (operands.foldl (inherit move.source use)
      (s.chains.unlink move.target move.source use)).Occupied := fun operands =>
    List.foldlRecOn _ _ (h.unlink _ _ _) fun _ h operand _ =>
      List.foldlRecOn _ _ h fun _ h d _ => h.link operand d use
  unfold apply
  dsimp only
  split
  · exact hmoved _
  · exact List.foldlRecOn _ _ (hmoved _) fun _ h operand _ => h.forgetUse operand move.source

theorem run_occupied
    {g : FlowGraph}
    {c : Chains}
    (h : c.Occupied) :
    (run g c).chains.Occupied := by
  obtain ⟨moves, hsteps⟩ := run_steps g c
  have hall : ∀ {s s' : Propagation} {moves}, Steps s moves s' → s.chains.Occupied →
      s'.chains.Occupied := by
    intro s s' moves hsteps
    induction hsteps with
    | none s => exact id
    | next hallowed _ ih => exact fun h => ih (apply_occupied _ _ h)
  exact hall hsteps h

end Propagation
end DalvikDecompiler
