import Resumable.Proofs.Handlers.Stack
import Resumable.Proofs.Mirror
import Resumable.Run.Step

/-!
This module contains states that differ at most in slot 0, which names their machine. No block looks
at this slot, so blocks do the same to both.
-/

namespace Resumable

structure State.Twins (s t : State) : Prop where
  room : headerSize ≤ s.slots.size
  size : t.slots.size = s.slots.size
  slot : ∀ i, 1 ≤ i → t.slot i = s.slot i

structure Process.Twins (p q : Process) : Prop where
  state : p.state.Twins q.state
  store : q.store = p.store

structure Frame.Twins (f g : Frame) : Prop where
  process : f.toProcess.Twins g.toProcess
  registers : g.registers = f.registers

def BlockProgram.IgnoresSelf (code : BlockProgram) : Prop :=
  ∀ load ∈ code.loads, 1 ≤ load.2

namespace State.Twins

variable {s t : State}

theorem setSlot (h : s.Twins t) (i : Nat) (value : Value)
    : (s.setSlot i value).Twins (t.setSlot i value) where
  room := by
    rw [State.setSlot, Array.size_setIfInBounds]
    exact h.room
  size := by
    rw [State.setSlot, State.setSlot, Array.size_setIfInBounds, Array.size_setIfInBounds]
    exact h.size
  slot := by
    intro j hj
    by_cases hij : i = j
    . subst hij
      by_cases hroom : i < s.slots.size
      . rw [slot_setSlot hroom, slot_setSlot (h.size ▸ hroom)]
      . simp [State.slot_eq, State.setSlot, h.size, hroom]
    . rw [slot_setSlot_ne _ hij, slot_setSlot_ne _ hij]
      exact h.slot j hj

theorem status? (h : s.Twins t) : t.status? = s.status? := by
  unfold State.status?
  rw [h.slot 1 (by decide)]

theorem pending (h : s.Twins t) : t.pending = s.pending :=
  h.slot 2 (by decide)

theorem handlers (h : s.Twins t) : t.handlers = s.handlers := by
  unfold State.handlers
  rw [h.slot 4 (by decide)]

theorem exception (h : s.Twins t) : t.exception = s.exception :=
  h.slot 5 (by decide)

theorem pushHandler (h : s.Twins t) (block : BlockId)
    : (s.pushHandler block).Twins (t.pushHandler block) := by
  unfold State.pushHandler
  rw [h.handlers]
  exact h.setSlot 4 _

theorem popHandler (h : s.Twins t) (block : BlockId)
    : (s.popHandler block).Twins (t.popHandler block) := by
  unfold State.popHandler
  rw [h.handlers]
  split
  . exact h
  . split
    . exact h.setSlot 4 _
    . exact h

theorem finish (h : s.Twins t) (value : Value) : (s.finish value).Twins (t.finish value) :=
  (h.setSlot 1 _).setSlot 2 value

theorem initial (self self' : Value) (start : BlockId) (args : List Value) (size : Nat)
    : (State.initial self start args size).Twins (State.initial self' start args size) where
  room := by simp [State.initial, headerSize]
  size := by simp [State.initial]
  slot := by
    intro i hi
    obtain ⟨i, rfl⟩ : ∃ k, i = k + 1 := ⟨i - 1, by omega⟩
    simp [State.slot, State.initial]

end State.Twins

namespace Exec

variable {α : Type}

theorem mirrors_onStore (action : Action α)
    : Mirrors Frame.Twins (onStore action) (onStore action) := by
  intro f g h
  unfold onStore
  rw [h.process.store]
  cases action f.store with
  | ok a store => exact ⟨_, rfl, ⟨h.process.state, rfl⟩, h.registers⟩
  | error stop store => exact ⟨_, rfl, ⟨h.process.state, rfl⟩, h.registers⟩

theorem mirrors_onState {g : State → State} (hg : ∀ s t : State, s.Twins t → (g s).Twins (g t))
    : Mirrors Frame.Twins (onState g) (onState g) :=
  .modify fun _ _ h => ⟨⟨hg _ _ h.process.state, h.process.store⟩, h.registers⟩

theorem mirrors_put (r : Register) (value : Value)
    : Mirrors Frame.Twins (put r value) (put r value) :=
  .modify fun _ _ h => ⟨h.process, by rw [h.registers]⟩

theorem mirrors_eval (source : Source) : Mirrors Frame.Twins (eval source) (eval source) := by
  cases source with
  | register r =>
    apply Mirrors.reading
    intro f g h
    rw [h.registers]
    exact .pure _
  | value v => exact .pure _
  | global name => exact mirrors_onStore _
  | pending =>
    apply Mirrors.reading
    intro f g h
    rw [h.process.state.pending]
    exact .pure _

theorem mirrors_evalAll (sources : List Source)
    : Mirrors Frame.Twins (evalAll sources) (evalAll sources) := by
  induction sources with
  | nil => exact .pure _
  | cons source sources ih =>
    apply Mirrors.bind (mirrors_eval source)
    intro value
    exact .bind ih fun _ => .pure _

theorem mirrors_makeClosure (code : Lambda) (captured : List Source)
    : Mirrors Frame.Twins (makeClosure code (evalAll captured))
        (makeClosure code (evalAll captured)) := by
  unfold makeClosure
  split
  . exact .throw _
  . apply Mirrors.bind (mirrors_evalAll captured)
    intro values
    exact .bind (mirrors_onStore _) fun _ => .pure _

theorem mirrors_op (call : Caller) (o : Op) : Mirrors Frame.Twins (op call o) (op call o) := by
  cases o with
  | move target source => exact .bind (mirrors_eval source) fun _ => mirrors_put target _
  | call target callee args =>
    apply Mirrors.bind (mirrors_eval callee)
    intro callee
    apply Mirrors.bind (mirrors_evalAll args)
    intro args
    exact .bind (mirrors_onStore _) fun _ => mirrors_put target _
  | closure target code captured =>
    exact .bind (mirrors_makeClosure code captured) fun _ => mirrors_put target _
  | field target object name =>
    apply Mirrors.bind (mirrors_eval object)
    intro object
    exact .bind (mirrors_onStore _) fun _ => mirrors_put target _
  | method target object name args =>
    apply Mirrors.bind (mirrors_eval object)
    intro object
    apply Mirrors.bind (mirrors_evalAll args)
    intro args
    exact .bind (mirrors_onStore _) fun _ => mirrors_put target _
  | setGlobal target name value =>
    apply Mirrors.bind (mirrors_eval value)
    intro value
    exact .bind (mirrors_onStore _) fun _ => mirrors_put target value
  | setField target object name value =>
    apply Mirrors.bind (mirrors_eval value)
    intro value
    apply Mirrors.bind (mirrors_eval object)
    intro object
    exact .bind (mirrors_onStore _) fun _ => mirrors_put target value
  | pushHandler block => exact mirrors_onState fun _ _ h => h.pushHandler block
  | popHandler block => exact mirrors_onState fun _ _ h => h.popHandler block
  | takeException target =>
    apply Mirrors.reading
    intro f g h
    rw [h.process.state.exception]
    exact .bind (mirrors_put target _) fun _ => mirrors_onState fun _ _ h => h.setSlot 5 _
  | endFinally exception =>
    apply Mirrors.bind (mirrors_eval exception)
    intro value
    split
    . exact .pure _
    . exact .throw _
  | save source slot =>
    apply Mirrors.reading
    intro f g h
    rw [h.registers]
    exact mirrors_onState fun _ _ h => h.setSlot slot _

theorem mirrors_ops (call : Caller) (list : List Op)
    : Mirrors Frame.Twins (ops call list) (ops call list) := by
  induction list with
  | nil => exact .pure _
  | cons o list ih => exact .bind (mirrors_op call o) fun _ => ih

theorem mirrors_load {loads : List (ValueId × Nat)} (h : ∀ load ∈ loads, 1 ≤ load.2)
    : Mirrors Frame.Twins (load loads) (load loads) := by
  induction loads with
  | nil => exact .pure _
  | cons first loads ih =>
    rw [List.forall_mem_cons] at h
    apply Mirrors.reading
    intro f g hfg
    rw [hfg.process.state.slot _ h.1]
    exact .bind (mirrors_put _ _) fun _ => ih h.2

theorem mirrors_exit (e : Exit) : Mirrors Frame.Twins (exit e) (exit e) := by
  have hgo : ∀ block : BlockId, Mirrors Frame.Twins (onState (·.resumeAt block))
      (onState (·.resumeAt block)) :=
    fun block => mirrors_onState fun _ _ h => h.setSlot 1 _
  cases e with
  | jump value target =>
    cases value with
    | none => exact .bind (hgo target) fun _ => .pure _
    | some value =>
      apply Mirrors.bind (mirrors_eval value)
      intro value
      exact .bind (mirrors_onState fun _ _ h => (h.setSlot 2 _).setSlot 1 _) fun _ => .pure _
  | finish value =>
    apply Mirrors.bind (mirrors_eval value)
    intro value
    exact .bind (mirrors_onState fun _ _ h => h.finish value) fun _ => .pure _
  | branch test yes no =>
    apply Mirrors.bind (mirrors_eval test)
    intro test
    exact .bind (hgo _) fun _ => .pure _
  | case value tests clauses fallback =>
    apply Mirrors.bind (mirrors_eval value)
    intro value
    split
    . exact .bind (hgo _) fun _ => .pure _
    . exact .bind (mirrors_onStore _) fun _ => .throw _
  | dispatch clauses =>
    apply Mirrors.reading
    intro f g h
    rw [h.process.state.exception]
    apply Mirrors.bind (mirrors_onStore _)
    intro heap
    split
    . exact .bind (mirrors_onState fun _ _ h => ((h.setSlot 2 _).setSlot 5 _).setSlot 1 _)
        fun _ => .pure _
    . exact .throw _
  | suspend handler resume args => exact .bind (mirrors_evalAll args) fun _ => .pure _

theorem mirrors_block (call : Caller) {code : BlockProgram} (h : code.IgnoresSelf)
    : Mirrors Frame.Twins (block call code) (block call code) := by
  apply Mirrors.bind (mirrors_load h)
  intro _
  exact .bind (mirrors_ops call code.ops) fun _ => mirrors_exit code.exit

end Exec

end Resumable
