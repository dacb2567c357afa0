import Resumable.Value.Store

/-!
This module contains what runs of a step that may fail are made of.
-/

namespace Resumable

variable {ε σ α β : Type}

theorem bind_ok {x : EStateM ε σ α} {f : α → EStateM ε σ β} {s s' : σ} {b : β}
    : (x >>= f) s = .ok b s' ↔ ∃ a t, x s = .ok a t ∧ f a t = .ok b s' := by
  change EStateM.bind x f s = _ ↔ _
  unfold EStateM.bind
  cases h : x s with
  | ok a t =>
    constructor
    . intro hf
      exact ⟨a, t, rfl, hf⟩
    . rintro ⟨_, _, hat, hf⟩
      cases hat
      exact hf
  | error e t => simp

theorem pure_ok {s s' : σ} {a b : α}
    : (pure a : EStateM ε σ α) s = .ok b s' ↔ b = a ∧ s' = s := by
  change EStateM.Result.ok a s = .ok b s' ↔ _
  simp [eq_comm]

theorem get_ok {s s' t : σ} : (get : EStateM ε σ σ) s = .ok t s' ↔ t = s ∧ s' = s := by
  change EStateM.Result.ok s s = .ok t s' ↔ _
  simp [eq_comm]

theorem throw_ok {s s' : σ} {e : ε} {a : α}
    : (throw e : EStateM ε σ α) s = .ok a s' ↔ False := by
  change EStateM.Result.error e s = .ok a s' ↔ _
  simp

theorem bind_of_ok {x : EStateM ε σ α} {f : α → EStateM ε σ β} {s s' : σ} {a : α}
    (h : x s = .ok a s')
    : (x >>= f) s = f a s' := by
  change EStateM.bind x f s = _
  unfold EStateM.bind
  rw [h]

theorem bind_of_error {x : EStateM ε σ α} {f : α → EStateM ε σ β} {s s' : σ} {e : ε}
    (h : x s = .error e s')
    : (x >>= f) s = .error e s' := by
  change EStateM.bind x f s = _
  unfold EStateM.bind
  rw [h]

theorem Action.global_ok {store : Store} {name : String} {value : Value}
    (h : store.globals.get? name = some value)
    : Action.global name store = .ok value store := by
  unfold Action.global
  rw [bind_of_ok (get_ok.2 ⟨rfl, rfl⟩), h]
  rfl

theorem Action.global_undefined {store : Store} {name : String}
    (h : store.globals.get? name = none)
    : Action.global name store = .error (.thrown (Fault.undefined name).toValue) store := by
  unfold Action.global
  rw [bind_of_ok (get_ok.2 ⟨rfl, rfl⟩), h]
  rfl

theorem Except.eq_ok_of_toOption {x : Except ε α} {a : α} (h : x.toOption = some a)
    : x = .ok a := by
  cases x with
  | error e => cases h
  | ok b =>
    cases h
    rfl

end Resumable
