import Resumable.Proofs.Slots.Linked

/-!
This module contains how a state keeps its handlers: they are read back as they were set, and the
rest of the header does not get in their way.
-/

namespace Resumable

namespace State

abbrev blockLimit : Nat := 0x100000000

theorem blockOf?_ofBlock {b : BlockId} (h : b < blockLimit) : blockOf? (ofBlock b) = some b := by
  have hword : (Int64.ofNat b).toInt = b := Int64.toInt_ofNat_of_lt (by lia)
  simp only [blockOf?, ofBlock, hword]
  rw [if_pos (by lia)]
  simp

theorem status?_of_block {s : State} {b : BlockId} (hblock : s.slot 1 = ofBlock b)
    (hsmall : b < blockLimit)
    : s.status? = some (.running b) := by
  unfold status?
  rw [hblock]
  change Option.map Status.running (blockOf? (ofBlock b)) = _
  rw [blockOf?_ofBlock hsmall]
  rfl

structure Stacked (s : State) (handlers : List BlockId) : Prop where
  slot : s.slot 4 = .list (handlers.map ofBlock)
  small : ∀ h ∈ handlers, h < blockLimit
  room : headerSize ≤ s.slots.size

theorem filterMap_blockOf? {blocks : List BlockId} (h : ∀ b ∈ blocks, b < blockLimit)
    : (blocks.map ofBlock).filterMap blockOf? = blocks := by
  induction blocks with
  | nil => rfl
  | cons b blocks ih =>
    rw [List.forall_mem_cons] at h
    simp [blockOf?_ofBlock h.1, ih h.2]

theorem Stacked.handlers {s : State} {handlers : List BlockId} (h : s.Stacked handlers)
    : s.handlers = handlers := by
  unfold State.handlers
  rw [h.slot]
  exact filterMap_blockOf? h.small

theorem Stacked.lt_size {s : State} {handlers : List BlockId} (h : s.Stacked handlers) {i : Nat}
    (hi : i < headerSize)
    : i < s.slots.size :=
  Nat.lt_of_lt_of_le hi h.room

theorem Alike.room {s t : State} (h : s.Alike t) (hroom : headerSize ≤ t.slots.size)
    : headerSize ≤ s.slots.size := by
  apply Nat.lt_of_not_le
  intro hle
  have hlast := h 5 (by decide)
  rw [Array.getElem?_eq_none hle, Array.getElem?_eq_getElem hroom] at hlast
  cases hlast

theorem Stacked.alike {s t : State} {handlers : List BlockId} (h : t.Stacked handlers)
    (halike : s.Alike t)
    : s.Stacked handlers where
  slot := (halike.slot (by decide)).trans h.slot
  small := h.small
  room := halike.room h.room

theorem slot_setSlot_ne (s : State) {i j : Nat} (h : i ≠ j) (value : Value)
    : (s.setSlot i value).slot j = s.slot j := by
  simp [slot_eq, setSlot, Array.getElem?_setIfInBounds_ne h]

theorem handlers_setException (s : State) (value : Value)
    : (s.setException value).handlers = s.handlers := by
  unfold handlers setException
  rw [slot_setSlot_ne s (by decide)]

theorem slot_setSlot {s : State} {i : Nat} (h : i < s.slots.size) (value : Value)
    : (s.setSlot i value).slot i = value := by
  simp [slot, setSlot, h]

theorem Stacked.setSlot {s : State} {handlers : List BlockId} (h : s.Stacked handlers) {i : Nat}
    (hi : i ≠ 4) (value : Value)
    : (s.setSlot i value).Stacked handlers where
  slot := by rw [slot_setSlot_ne s hi, h.slot]
  small := h.small
  room := by
    rw [State.setSlot, Array.size_setIfInBounds]
    exact h.room

theorem Stacked.setPending {s : State} {handlers : List BlockId} (h : s.Stacked handlers)
    (value : Value)
    : (s.setPending value).Stacked handlers :=
  h.setSlot (by decide) value

theorem Stacked.setException {s : State} {handlers : List BlockId} (h : s.Stacked handlers)
    (value : Value)
    : (s.setException value).Stacked handlers :=
  h.setSlot (by decide) value

theorem Stacked.setHandlers {s : State} {handlers blocks : List BlockId} (h : s.Stacked handlers)
    (hsmall : ∀ b ∈ blocks, b < blockLimit)
    : (s.setHandlers blocks).Stacked blocks where
  slot := slot_setSlot (h.lt_size (by decide)) _
  small := hsmall
  room := by
    rw [State.setHandlers, State.setSlot, Array.size_setIfInBounds]
    exact h.room

theorem Stacked.pushHandler {s : State} {handlers : List BlockId} (h : s.Stacked handlers)
    {b : BlockId} (hb : b < blockLimit)
    : (s.pushHandler b).Stacked (b :: handlers) := by
  unfold State.pushHandler
  rw [h.handlers]
  apply h.setHandlers
  rw [List.forall_mem_cons]
  exact ⟨hb, h.small⟩

theorem Stacked.popHandler {s : State} {handlers : List BlockId} (h : s.Stacked handlers)
    (b : BlockId)
    : (s.popHandler b).Stacked (if handlers.head? = some b then handlers.tail else handlers) := by
  unfold State.popHandler
  rw [h.handlers]
  cases handlers with
  | nil => exact h
  | cons top rest =>
    simp only [List.head?_cons, Option.some.injEq, List.tail_cons]
    split
    . apply h.setHandlers
      exact (List.forall_mem_cons.1 h.small).2
    . exact h

end State

end Resumable
