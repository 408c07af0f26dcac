import Mathlib

/-!
# Computations that may fail

**Input.** Computations that carry a state and may fail.  A state may have
numbers in use, those below a bound, and give out the bound as the next one.

**Results.**
* `run_bind`: a computation in two parts succeeds only if both do.
* `Yields.bind`: what one computation makes sure of may be used by the next one.
* `Allocates.bind`: so may the numbers that it returns.
* `Allocates.get_bind`, `Allocates.modifyGet`: what a computation that looks at
  the state has to show.
-/

namespace DalvikDecompiler

variable {ε σ α β : Type}

/-- A computation in two parts succeeds only if both do. -/
theorem run_bind
    {x : EStateM ε σ α}
    {f : α → EStateM ε σ β}
    {s s'' : σ}
    {b : β}
    (h : (x >>= f) s = .ok b s'') :
    ∃ a s', x s = .ok a s' ∧ f a s' = .ok b s'' := by
  change EStateM.bind x f s = .ok b s'' at h
  unfold EStateM.bind at h
  cases hx : x s with
  | error e s' =>
      rw [hx] at h
      cases h
  | ok a s' =>
      rw [hx] at h
      exact ⟨a, s', rfl, h⟩

/-- A computation keeps an invariant, and what it returns has a property. -/
def Yields (invariant : σ → Prop) (x : EStateM ε σ α) (post : α → Prop) : Prop :=
  ∀ s a s', invariant s → x s = .ok a s' → invariant s' ∧ post a

namespace Yields

variable {invariant : σ → Prop} {post : α → Prop} {post' : β → Prop}

theorem pure
    {a : α}
    (h : post a) :
    Yields invariant (Pure.pure a : EStateM ε σ α) post := by
  rintro s b s' hs ⟨⟩
  exact ⟨hs, h⟩

theorem throw
    (error : ε) :
    Yields invariant (MonadExcept.throw error : EStateM ε σ α) post := by
  rintro s a s' - ⟨⟩

/-- What one computation makes sure of may be used by the next one. -/
theorem bind
    {x : EStateM ε σ α}
    {f : α → EStateM ε σ β}
    (hx : Yields invariant x post)
    (hf : ∀ a, post a → Yields invariant (f a) post') :
    Yields invariant (x >>= f) post' := by
  intro s b s'' hs hrun
  obtain ⟨a, s', hfirst, hrest⟩ := run_bind hrun
  obtain ⟨hs', ha⟩ := hx s a s' hs hfirst
  exact hf a ha s' b s'' hs' hrest

theorem map
    {x : EStateM ε σ α}
    {f : α → β}
    (hx : Yields invariant x post)
    (hf : ∀ a, post a → post' (f a)) :
    Yields invariant (f <$> x) post' := by
  rw [← bind_pure_comp]
  exact hx.bind fun a ha => .pure (hf a ha)

theorem get_bind
    {f : σ → EStateM ε σ α}
    (h : ∀ s, invariant s → Yields invariant (f s) post) :
    Yields invariant (MonadState.get >>= f) post :=
  fun s a s' hs hrun => h s hs s a s' hs hrun

theorem modifyGet
    {f : σ → α × σ}
    (h : ∀ s, invariant s → invariant (f s).2 ∧ post (f s).1) :
    Yields invariant (MonadState.modifyGet f : EStateM ε σ α) post := by
  rintro s a s' hs ⟨⟩
  exact h s hs

end Yields

/-- Wherever an invariant holds and some numbers are in use, a computation keeps the invariant and
all numbers in use, and what it returns mentions numbers in use. -/
def Allocates (invariant : σ → Prop) (used : σ → Nat) (known : List Nat) (x : EStateM ε σ α)
    (names : α → List Nat) : Prop :=
  ∀ s a s', invariant s → (∀ n, n ∈ known → n < used s) → x s = .ok a s' →
    invariant s' ∧ used s ≤ used s' ∧ ∀ n, n ∈ names a → n < used s'

namespace Allocates

variable {invariant : σ → Prop} {used : σ → Nat} {known : List Nat}
  {names : α → List Nat} {names' : β → List Nat}

theorem pure
    {a : α}
    (h : ∀ n, n ∈ names a → n ∈ known) :
    Allocates invariant used known (Pure.pure a : EStateM ε σ α) names := by
  rintro s b s' hs hknown ⟨⟩
  exact ⟨hs, Nat.le_refl _, fun n hn => hknown n (h n hn)⟩

theorem throw
    (error : ε) :
    Allocates invariant used known (MonadExcept.throw error : EStateM ε σ α) names := by
  rintro s a s' - - ⟨⟩

/-- What one computation returns may be used by the next one. -/
theorem bind
    {x : EStateM ε σ α}
    {f : α → EStateM ε σ β}
    (hx : Allocates invariant used known x names)
    (hf : ∀ a, Allocates invariant used (names a ++ known) (f a) names') :
    Allocates invariant used known (x >>= f) names' := by
  intro s b s'' hs hknown hrun
  obtain ⟨a, s', hfirst, hrest⟩ := run_bind hrun
  obtain ⟨hs', hle, hnames⟩ := hx s a s' hs hknown hfirst
  have hknown' : ∀ n, n ∈ names a ++ known → n < used s' := by
    intro n hn
    rcases List.mem_append.mp hn with hn | hn
    · exact hnames n hn
    · exact Nat.lt_of_lt_of_le (hknown n hn) hle
  obtain ⟨hs'', hle', hnames'⟩ := hf a s' b s'' hs' hknown' hrest
  exact ⟨hs'', Nat.le_trans hle hle', hnames'⟩

theorem map
    {x : EStateM ε σ α}
    {f : α → β}
    (hx : Allocates invariant used known x names)
    (hf : ∀ a n, n ∈ names' (f a) → n ∈ names a ++ known) :
    Allocates invariant used known (f <$> x) names' := by
  rw [← bind_pure_comp]
  exact hx.bind fun a => .pure (hf a)

/-- Fewer numbers may be known, and fewer mentioned. -/
theorem weaken
    {x : EStateM ε σ α}
    {known' : List Nat}
    {fewer : α → List Nat}
    (hx : Allocates invariant used known x names)
    (hknown : ∀ n, n ∈ known → n ∈ known')
    (hnames : ∀ a n, n ∈ fewer a → n ∈ names a) :
    Allocates invariant used known' x fewer := by
  intro s a s' hs h hrun
  obtain ⟨hs', hle, hall⟩ := hx s a s' hs (fun n hn => h n (hknown n hn)) hrun
  exact ⟨hs', hle, fun n hn => hall n (hnames a n hn)⟩

theorem get :
    Allocates invariant used known (MonadState.get : EStateM ε σ σ) fun _ => [] := by
  rintro s a s' hs - ⟨⟩
  exact ⟨hs, Nat.le_refl _, by simp⟩

/-- What is looked up in the state may depend on the invariant. -/
theorem get_bind
    {f : σ → EStateM ε σ α}
    (h : ∀ s, invariant s → (∀ n, n ∈ known → n < used s) → ∀ a s', f s s = .ok a s' →
      invariant s' ∧ used s ≤ used s' ∧ ∀ n, n ∈ names a → n < used s') :
    Allocates invariant used known (MonadState.get >>= f) names := by
  intro s a s' hs hknown hrun
  exact h s hs hknown a s' hrun

theorem modifyGet
    {f : σ → α × σ}
    (h : ∀ s, invariant s → (∀ n, n ∈ known → n < used s) →
      invariant (f s).2 ∧ used s ≤ used (f s).2 ∧ ∀ n, n ∈ names (f s).1 → n < used (f s).2) :
    Allocates invariant used known (MonadState.modifyGet f : EStateM ε σ α) names := by
  intro s a s' hs hknown hrun
  have heq : (MonadState.modifyGet f : EStateM ε σ α) s = .ok (f s).1 (f s).2 := rfl
  rw [heq] at hrun
  obtain ⟨rfl, rfl⟩ := EStateM.Result.ok.inj hrun
  exact h s hs hknown

end Allocates
end DalvikDecompiler
