import Resumable.Proofs.Handlers.Body
import Resumable.Proofs.Handlers.Run
import Resumable.Proofs.Lowering.Closed
import Resumable.Proofs.Lowering.Sorted

/-!
This module contains what holds in front of every instruction because faults carry values other than
`nil`: something is in flight where only faults lead to, and a `finally` clause that is entered by
faults only never comes to what would follow it.
-/

namespace Resumable

theorem Effect.exception_onState {e : Effect} (h : e ≠ .takeException) (s : State)
    : (e.onState s).exception = s.exception := by
  have hset : ∀ blocks, (s.setHandlers blocks).exception = s.exception :=
    fun blocks => State.slot_setSlot_ne s (by decide) _
  cases e with
  | pushHandler block => exact hset _
  | popHandler block =>
    simp only [Effect.onState, State.popHandler]
    split
    . rfl
    . split
      . exact hset _
      . rfl
  | takeException => exact absurd rfl h
  | _ => rfl

theorem Effect.block_onState (e : Effect) (s : State) : (e.onState s).slot 1 = s.slot 1 := by
  have hset : ∀ blocks, (s.setHandlers blocks).slot 1 = s.slot 1 :=
    fun blocks => State.slot_setSlot_ne s (by decide) _
  cases e with
  | pushHandler block => exact hset _
  | popHandler block =>
    simp only [Effect.onState, State.popHandler]
    split
    . rfl
    . split
      . exact hset _
      . rfl
  | takeException => exact State.slot_setSlot_ne s (by decide) _
  | _ => rfl

namespace Plan

def Laden (plan : Plan) (F : BlockId) (values : ValueId → Value) : Prop :=
  plan.Fallen F → ∀ x, plan.Takes F x → (values x).isNil = false

def Braced (plan : Plan) (s : State) (values : ValueId → Value) : Prop :=
  ∃ handlers, s.Stacked handlers ∧ ∀ h ∈ handlers, plan.Filled h ∧
    ∀ F ∈ (plan.label h).inside, F ≠ h → plan.Laden F values

structure Poised (plan : Plan) (b : BlockId) (i : Nat) (s : State) (values : ValueId → Value) :
    Prop where
  block : s.slot 1 = State.ofBlock b
  flight : (plan.label b).role = .dispatch ∨
    (plan.label b).role = .cleanup ∧ plan.Fallen b ∧ i < 2 → s.exception.isNil = false
  laden : ∀ F ∈ (plan.label b).inside, (F = b → 2 ≤ i) → plan.Laden F values
  braced : plan.Braced s values
  past : ∀ {j : Nat} {before : Instruction} {x : ValueId}, i = j + 1 →
    (plan.code b)[j]? = some before → before.command = .effect (.endFinally (.result x)) →
      (values x).isNil = true

variable {plan : Plan} {b : BlockId} {i : Nat} {s s' : State} {values : ValueId → Value}

theorem Braced.setSlot (h : plan.Braced s values) {k : Nat} (hk : k ≠ 4) (value : Value)
    : plan.Braced (s.setSlot k value) values := by
  obtain ⟨handlers, hstacked, hall⟩ := h
  exact ⟨handlers, hstacked.setSlot hk value, hall⟩

theorem Braced.room (h : plan.Braced s values) : headerSize ≤ s.slots.size := by
  obtain ⟨_, hstacked, _⟩ := h
  exact hstacked.room

theorem Poised.congr (h : plan.Poised b i s values)
    (hslot : ∀ k < headerSize, k ≠ 2 → s'.slot k = s.slot k) (hroom : headerSize ≤ s'.slots.size)
    : plan.Poised b i s' values where
  block := (hslot 1 (by decide) (by decide)).trans h.block
  flight hrole := by
    rw [State.exception, hslot 5 (by decide) (by decide)]
    exact h.flight hrole
  laden := h.laden
  braced := by
    obtain ⟨handlers, hstacked, hall⟩ := h.braced
    exact ⟨handlers, ⟨(hslot 4 (by decide) (by decide)).trans hstacked.slot, hstacked.small, hroom⟩,
      hall⟩
  past := h.past

theorem Poised.alike (h : plan.Poised b i s values) (halike : s'.Alike s)
    : plan.Poised b i s' values := by
  obtain ⟨_, hstacked, _⟩ := h.braced
  exact h.congr (fun _ hk _ => halike.slot hk) (hstacked.alike halike).room

theorem Braced.routed (h : plan.Braced s values) {v : Value} (hv : v.isNil = false)
    {rest : List BlockId} (hhandlers : s.handlers = b :: rest)
    : plan.Filled b ∧ plan.Poised b 0 ((s.setException v).resumeAt b) values := by
  have hbraced : plan.Braced ((s.setException v).resumeAt b) values :=
    (h.setSlot (by decide) v).setSlot (by decide) _
  have hroom := h.room
  obtain ⟨handlers, hstacked, hall⟩ := h
  rw [hstacked.handlers] at hhandlers
  subst hhandlers
  obtain ⟨hfilled, hladen⟩ := hall b (List.mem_cons_self ..)
  have hexception := (hstacked.setException v)
  refine ⟨hfilled, ?_, ?_, ?_, hbraced, by simp⟩
  . exact State.slot_setSlot (hexception.lt_size (by decide)) _
  . intro _
    have hslot : ((s.setException v).resumeAt b).exception = v :=
      (State.slot_setSlot_ne _ (by decide) _).trans (State.slot_setSlot (hstacked.lt_size (by decide)) v)
    rwa [hslot]
  . intro F hF hown
    exact hladen F hF fun heq => absurd (hown heq) (by decide)

end Plan

namespace Graph.Coded

open Plan

variable {options : CompileOptions} {source : Form} {graph : Graph} {plan : Plan} {b : BlockId}
  {i : Nat} {ins : Instruction} {call : Caller} {p p' : Plain}

theorem taken (h : graph.Coded options source plan) {F : BlockId} {x : ValueId}
    (hx : plan.Takes F x) (hi : (plan.code b)[i]? = some ins) {e : Effect}
    (he : ins.command = .effect e) (hok : Plain.effect call ins.id e p = .ok () p')
    : p'.values x = p.values x ∨ b = F ∧ i = 1 ∧ p'.values x = p.state.exception := by
  by_cases hmem : x ∈ e.writes ins.id
  . right
    have hwrites : ins.writes = e.writes ins.id := by simp only [Instruction.writes, he]
    obtain ⟨rfl, rfl⟩ := h.write_of_takes hx hi (hwrites ▸ hmem)
    obtain ⟨_, htake⟩ := hx
    rw [hi] at htake
    cases htake
    cases he
    cases hok
    exact ⟨rfl, rfl, by simp [update]⟩
  . left
    rcases Plain.changes_effect call ins.id e p with ⟨_, _, hstop⟩ | ⟨_, _, heq, hother⟩
    . rw [hstop] at hok
      cases hok
    . rw [heq] at hok
      cases hok
      exact hother x hmem

theorem not_take (h : graph.Coded options source plan) (hi : (plan.code b)[i]? = some ins)
    {e : Effect} (he : ins.command = .effect e) (hrole : (plan.label b).role ≠ .cleanup ∨ i ≠ 1)
    : e ≠ .takeException := by
  intro htake
  have hfits := h.fits hi
  rw [he, htake] at hfits
  cases hfits with
  | plain hplain => cases hplain
  | take hcleanup hone => exact hrole.elim (· hcleanup) (· hone)

end Graph.Coded

end Resumable
