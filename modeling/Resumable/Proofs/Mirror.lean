import Resumable.Proofs.Monad

/-!
This module contains computations that mirror each other: from related states they come to the same
result, and to states that are related again.
-/

namespace Resumable

variable {ε σ α β : Type}

def Mirrors (R : σ → σ → Prop) (x y : EStateM ε σ α) : Prop :=
  ∀ s s', R s s' → match x s with
    | .ok a t => ∃ t', y s' = .ok a t' ∧ R t t'
    | .error e t => ∃ t', y s' = .error e t' ∧ R t t'

namespace Mirrors

variable {R : σ → σ → Prop}

theorem ok {x y : EStateM ε σ α} (h : Mirrors R x y) {s s' t : σ} {a : α} (hs : R s s')
    (hx : x s = .ok a t)
    : ∃ t', y s' = .ok a t' ∧ R t t' := by
  simpa only [hx] using h s s' hs

theorem error {x y : EStateM ε σ α} (h : Mirrors R x y) {s s' t : σ} {e : ε} (hs : R s s')
    (hx : x s = .error e t)
    : ∃ t', y s' = .error e t' ∧ R t t' := by
  simpa only [hx] using h s s' hs

theorem pure (a : α) : Mirrors R (Pure.pure a : EStateM ε σ α) (Pure.pure a) :=
  fun _ s' hs => ⟨s', rfl, hs⟩

theorem throw (e : ε) : Mirrors R (MonadExcept.throw e : EStateM ε σ α) (MonadExcept.throw e) :=
  fun _ s' hs => ⟨s', rfl, hs⟩

theorem bind {x y : EStateM ε σ α} {j k : α → EStateM ε σ β} (hx : Mirrors R x y)
    (hk : ∀ a, Mirrors R (j a) (k a))
    : Mirrors R (x >>= j) (y >>= k) := by
  intro s s' hs
  cases hrun : x s with
  | ok a t =>
    obtain ⟨t', hrun', ht⟩ := hx.ok hs hrun
    rw [bind_of_ok hrun, bind_of_ok hrun']
    exact hk a t t' ht
  | error e t =>
    obtain ⟨t', hrun', ht⟩ := hx.error hs hrun
    rw [bind_of_error hrun]
    exact ⟨t', bind_of_error hrun', ht⟩

theorem reading {j k : σ → EStateM ε σ α} (h : ∀ s s', R s s' → Mirrors R (j s) (k s'))
    : Mirrors R (get >>= j) (get >>= k) := by
  intro s s' hs
  have hread : ∀ (i : σ → EStateM ε σ α) (t : σ), (get >>= i) t = i t t :=
    fun _ _ => bind_of_ok rfl
  rw [hread, hread]
  exact h s s' hs s s' hs

theorem modify {g k : σ → σ} (h : ∀ s s', R s s' → R (g s) (k s'))
    : Mirrors R (modify g : EStateM ε σ PUnit) (modify k) :=
  fun s s' hs => ⟨k s', rfl, h s s' hs⟩

end Mirrors

end Resumable
