import Resumable.Proofs.Slots.Plain

/-!
This module contains the relation between a frame with registers and slots on the one side, and a
process that keeps every result on the other. Steps that are the same on both sides preserve it.
-/

namespace Resumable

namespace State

def Alike (s t : State) : Prop :=
  ∀ i < headerSize, s.slots[i]? = t.slots[i]?

structure OnHeader (g : State → State) : Prop where
  alike : ∀ {s t : State}, s.Alike t → (g s).Alike (g t)
  size : ∀ s, (g s).slots.size = s.slots.size
  slot : ∀ s {i : Nat}, headerSize ≤ i → (g s).slot i = s.slot i

theorem slot_eq (s : State) (i : Nat) : s.slot i = s.slots[i]?.getD .nil := by
  simp [slot]

theorem Alike.slot {s t : State} (h : s.Alike t) {i : Nat} (hi : i < headerSize)
    : s.slot i = t.slot i := by
  rw [slot_eq, slot_eq, h i hi]

theorem Alike.handlers {s t : State} (h : s.Alike t) : s.handlers = t.handlers := by
  unfold State.handlers
  rw [h.slot (by decide)]

theorem OnHeader.setSlot {i : Nat} (hi : i < headerSize) (value : Value)
    : OnHeader (·.setSlot i value) where
  alike := by
    intro s t h k hk
    have hsize : i < s.slots.size ↔ i < t.slots.size := by
      have hnone : s.slots[i]? = none ↔ t.slots[i]? = none := by rw [h i hi]
      rw [Array.getElem?_eq_none_iff, Array.getElem?_eq_none_iff] at hnone
      omega
    simp only [State.setSlot, Array.getElem?_setIfInBounds, h k hk, hsize]
  size s := Array.size_setIfInBounds
  slot s j hj := by
    simp only [slot_eq, State.setSlot]
    rw [Array.getElem?_setIfInBounds_ne (by omega)]

theorem OnHeader.comp {g k : State → State} (hg : OnHeader g) (hk : OnHeader k)
    : OnHeader fun s => g (k s) where
  alike h := hg.alike (hk.alike h)
  size s := (hg.size _).trans (hk.size s)
  slot s _ hi := (hg.slot _ hi).trans (hk.slot s hi)

theorem OnHeader.setPending (value : Value) : OnHeader (·.setPending value) :=
  .setSlot (by decide) value

theorem OnHeader.resumeAt (block : BlockId) : OnHeader (·.resumeAt block) :=
  .setSlot (by decide) _

theorem OnHeader.clearException : OnHeader (·.clearException) :=
  .setSlot (by decide) _

theorem OnHeader.finish (value : Value) : OnHeader (·.finish value) :=
  .comp (.setPending value) (.setSlot (by decide) _)

theorem OnHeader.pushHandler (block : BlockId) : OnHeader (·.pushHandler block) where
  alike {s t} h := by
    unfold State.pushHandler setHandlers
    rw [h.handlers]
    exact (OnHeader.setSlot (by decide) _).alike h
  size s := (OnHeader.setSlot (by decide) _).size s
  slot s _ hi := (OnHeader.setSlot (by decide) _).slot s hi

theorem OnHeader.popHandler (block : BlockId) : OnHeader (·.popHandler block) where
  alike {s t} h := by
    unfold State.popHandler setHandlers
    rw [h.handlers]
    split
    . exact h
    . split
      . exact (OnHeader.setSlot (by decide) _).alike h
      . exact h
  size s := by
    unfold State.popHandler
    split
    . rfl
    . split
      . exact (OnHeader.setSlot (by decide) _).size s
      . rfl
  slot s _ hi := by
    unfold State.popHandler
    split
    . rfl
    . split
      . exact (OnHeader.setSlot (by decide) _).slot s hi
      . rfl

end State

namespace Layout

def Agrees (layout : Layout) (values : ValueId → Value) (state : State) : Prop :=
  ∀ id slot, layout.slots.get? id = some slot → state.slots[slot]? = some (values id)

structure Apart (layout : Layout) : Prop where
  header : ∀ {id : ValueId} {slot : Nat}, layout.slots.get? id = some slot → headerSize ≤ slot
  inj : ∀ {id id' : ValueId} {slot : Nat}, layout.slots.get? id = some slot →
    layout.slots.get? id' = some slot → id = id'

end Layout

structure Linked (layout : Layout) (unsaved : List ValueId) (live : ValueId → Prop) (f : Frame)
    (p : Plain) : Prop where
  store : f.store = p.store
  header : f.state.Alike p.state
  room : ∀ {id : ValueId} {slot : Nat}, layout.slots.get? id = some slot →
    slot < f.state.slots.size
  saved : ∀ {id : ValueId} {slot : Nat}, layout.slots.get? id = some slot → id ∉ unsaved →
    f.state.slot slot = p.values id
  registers : ∀ {id : ValueId}, live id → f.registers.get (.result id) = p.values id

namespace Linked

variable {layout : Layout} {unsaved : List ValueId} {live : ValueId → Prop} {f : Frame} {p : Plain}

theorem agrees (h : Linked layout [] live f p) : layout.Agrees p.values f.state := by
  intro id slot hslot
  have hroom := h.room hslot
  have hsaved := h.saved hslot List.not_mem_nil
  rw [State.slot_eq] at hsaved
  rw [← hsaved]
  simp [hroom]

theorem ofAgrees {process : Process} {values : ValueId → Value}
    (h : layout.Agrees values process.state)
    : Linked layout [] (fun _ => False) { toProcess := process } { toProcess := process, values }
    where
  store := rfl
  header _ _ := rfl
  room hslot := by
    have := h _ _ hslot
    exact (Array.getElem?_eq_some_iff.1 this).1
  saved hslot _ := by
    rw [State.slot_eq, h _ _ hslot]
    rfl
  registers := False.elim

theorem mono {unsaved' : List ValueId} {live' : ValueId → Prop} (h : Linked layout unsaved live f p)
    (hunsaved : ∀ id ∈ unsaved, id ∈ unsaved') (hlive : ∀ id, live' id → live id)
    : Linked layout unsaved' live' f p where
  store := h.store
  header := h.header
  room := h.room
  saved hslot hid := h.saved hslot fun hmem => hid (hunsaved _ hmem)
  registers hid := h.registers (hlive _ hid)

theorem forget (h : Linked layout unsaved live f p) : Linked layout unsaved (fun _ => False) f p :=
  h.mono (fun _ => id) fun _ => False.elim

theorem onState (h : Linked layout unsaved live f p) {g : State → State} (hg : State.OnHeader g)
    (apart : layout.Apart)
    : Linked layout unsaved live { f with state := g f.state } { p with state := g p.state } where
  store := h.store
  header := hg.alike h.header
  room hslot := by
    rw [hg.size]
    exact h.room hslot
  saved hslot hid := by
    rw [hg.slot _ (apart.header hslot)]
    exact h.saved hslot hid
  registers := h.registers

theorem onStore (h : Linked layout unsaved live f p) (store : Store)
    : Linked layout unsaved live { f with store } { p with store } :=
  { h with store := rfl }

end Linked

namespace Registers

theorem get_set (rs : Registers) (r : Register) (value : Value)
    : (rs.set r value).get = update rs.get r value := by
  funext q
  simp only [update, eq_comm]
  rfl

end Registers

theorem Exec.load_ok (loads : List (ValueId × Nat)) (f : Frame)
    : ∃ registers, load loads f = .ok () { f with registers } := by
  induction loads generalizing f with
  | nil => exact ⟨f.registers, rfl⟩
  | cons pair loads ih =>
    exact ih { f with registers := f.registers.set (.result pair.1) (f.state.slot pair.2) }

namespace Linked

variable {layout : Layout} {unsaved : List ValueId} {live : ValueId → Prop} {f : Frame} {p : Plain}

theorem write (h : Linked layout unsaved live f p) (id : ValueId) (value : Value)
    : Linked layout (id :: unsaved) (fun i => i = id ∨ live i)
        { f with registers := f.registers.set (.result id) value }
        { p with values := update p.values id value } where
  store := h.store
  header := h.header
  room := h.room
  saved hslot hid := by
    rw [List.mem_cons, not_or] at hid
    simp only [update, if_neg hid.1]
    exact h.saved hslot hid.2
  registers {i} hi := by
    simp only [Registers.get_set, Register.result.injEq, update]
    split
    . rfl
    . next hne => exact h.registers (hi.resolve_left hne)

theorem save {id : ValueId} (h : Linked layout (id :: unsaved) live f p) (apart : layout.Apart)
    (hid : live id) {slot : Nat} (hslot : layout.slots.get? id = some slot)
    : Linked layout unsaved live
        { f with state := f.state.setSlot slot (f.registers.get (.result id)) } p where
  store := h.store
  header := by
    intro i hi
    have := apart.header hslot
    rw [← h.header i hi]
    simp only [State.setSlot]
    rw [Array.getElem?_setIfInBounds_ne (by omega)]
  room hslot' := by
    simp only [State.setSlot, Array.size_setIfInBounds]
    exact h.room hslot'
  saved {id' slot'} hslot' hid' := by
    have hroom := h.room hslot
    by_cases heq : id' = id
    . subst heq
      rw [hslot] at hslot'
      cases hslot'
      simp [State.slot, State.setSlot, h.registers hid, hroom]
    . have hne : slot ≠ slot' := by
        intro hsame
        subst hsame
        exact heq (apart.inj hslot' hslot)
      have := h.saved hslot' (by simp [heq, hid'])
      simpa [State.slot_eq, State.setSlot, Array.getElem?_setIfInBounds_ne hne] using this
  registers := h.registers

theorem unsaved_of_no_slot {id : ValueId} (h : Linked layout (id :: unsaved) live f p)
    (hslot : layout.slots.get? id = none)
    : Linked layout unsaved live f p :=
  { h with
    saved := by
      intro id' slot' hslot' hid'
      apply h.saved hslot'
      rw [List.mem_cons, not_or]
      refine ⟨?_, hid'⟩
      intro heq
      rw [heq, hslot] at hslot'
      contradiction }

end Linked

end Resumable
