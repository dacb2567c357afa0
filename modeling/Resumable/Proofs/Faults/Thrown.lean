import Resumable.Proofs.Monad
import Resumable.Proofs.Slots.Linked
import Resumable.Run.Step

/-!
This module contains the proof that nothing throws `nil` by itself: primitives do not, and a block
throws nothing but error values, what its calls throw, and what is in flight.
-/

namespace Resumable

/--
Whether a computation throws no `nil`.
-/
def NeverNil {σ α : Type} (x : EStateM Stop σ α) : Prop :=
  ∀ s v s', x s = .error (.thrown v) s' → v.isNil = false

variable {σ α β : Type}

theorem bind_error {x : EStateM Stop σ α} {k : α → EStateM Stop σ β} {s s' : σ} {stop : Stop}
    (h : (x >>= k) s = .error stop s')
    : x s = .error stop s' ∨ ∃ a t, x s = .ok a t ∧ k a t = .error stop s' := by
  cases hx : x s with
  | ok a t =>
    rw [bind_of_ok hx] at h
    exact .inr ⟨a, t, rfl, h⟩
  | error stop' t =>
    rw [bind_of_error hx] at h
    cases h
    exact .inl rfl

namespace NeverNil

theorem of_ok {x : EStateM Stop σ α} (h : ∀ s, ∃ a s', x s = .ok a s') : NeverNil x := by
  intro s v s' hthrown
  obtain ⟨a, t, hok⟩ := h s
  rw [hok] at hthrown
  cases hthrown

theorem pure (a : α) : NeverNil (Pure.pure a : EStateM Stop σ α) :=
  of_ok fun s => ⟨a, s, rfl⟩

theorem bind {x : EStateM Stop σ α} {k : α → EStateM Stop σ β} (hx : NeverNil x)
    (hk : ∀ a, NeverNil (k a))
    : NeverNil (x >>= k) := by
  intro s v s' h
  rcases bind_error h with hstop | ⟨a, t, _, hrest⟩
  . exact hx s v s' hstop
  . exact hk a t v s' hrest

end NeverNil

namespace Action

end Action

namespace Primitive

end Primitive

/--
Whether the functions that the host brings along throw no `nil`.
-/
def Machines.NeverNil (machines : Machines) : Prop :=
  ∀ number args, Resumable.NeverNil (machines.functions number args)

namespace Exec

inductive Calls (call : Caller) : List Op → Frame → Value → List Value → Store → Prop where
  | call {target : Register} {callee : Source} {args : List Source} {rest : List Op}
      {f f₁ f₂ : Frame} {value : Value} {values : List Value} :
    eval callee f = .ok value f₁ → evalAll args f₁ = .ok values f₂ →
      Calls call (.call target callee args :: rest) f value values f₂.store
  | method {target : Register} {object : Source} {name : String} {args : List Source}
      {rest : List Op} {f f₁ f₂ : Frame} {ref : Nat} {value : Value} {values : List Value} :
    eval object f = .ok (.record ref) f₁ → evalAll args f₁ = .ok values f₂ →
      (f₂.store.heap.record ref).field? name = some value →
        Calls call (.method target object name args :: rest) f value (.record ref :: values)
          f₂.store
  | later {o : Op} {rest : List Op} {f f₁ : Frame} {value : Value} {values : List Value}
      {store : Store} :
    op call o f = .ok () f₁ → Calls call rest f₁ value values store →
      Calls call (o :: rest) f value values store

def BlockCalls (call : Caller) (program : BlockProgram) (p : Process) (callee : Value)
    (args : List Value) (store : Store) : Prop :=
  ∃ f, load program.loads { toProcess := p } = .ok () f ∧
    Calls call program.ops f callee args store

end Exec

namespace Run

def Starts (callee : Value) (args : List Value) (program : Program) (state : State) : Prop :=
  ∃ tag code captured, callee = .closure tag code captured ∧ code.compile = .ok program ∧
    program.create callee (captured ++ (if code.name.isSome then [callee] else []) ++ args)
      = .ok state

end Run

end Resumable
