import Resumable.Proofs.Slots.Linked

/-!
This module contains the simulation of single instructions: the operations of an instruction do to a
frame what the instruction does to a process that keeps every result.
-/

namespace Resumable

inductive Sim (layout : Layout) {α β : Type} (post : α → β → Frame → Plain → Prop) :
    EStateM.Result Stop Frame α → EStateM.Result Stop Plain β → Prop where
  | ok {a : α} {b : β} {f : Frame} {p : Plain} :
    post a b f p → Sim layout post (.ok a f) (.ok b p)
  | error {stop : Stop} {f : Frame} {p : Plain} :
    Linked layout [] (fun _ => False) f p → Sim layout post (.error stop f) (.error stop p)

namespace Sim

variable {layout : Layout} {α β γ δ : Type}

theorem bind {post : α → β → Frame → Plain → Prop} {post' : γ → δ → Frame → Plain → Prop}
    {x : Exec α} {y : PlainExec β} {k : α → Exec γ} {l : β → PlainExec δ} {f : Frame} {p : Plain}
    (h : Sim layout post (x f) (y p))
    (hk : ∀ a b f p, post a b f p → Sim layout post' (k a f) (l b p))
    : Sim layout post' ((x >>= k) f) ((y >>= l) p) := by
  simp only [Bind.bind, EStateM.bind]
  generalize x f = result at h
  generalize y p = result' at h
  cases h with
  | ok h => exact hk _ _ _ _ h
  | error h => exact .error h

theorem andThen {post : α → β → Frame → Plain → Prop} {post' : γ → β → Frame → Plain → Prop}
    {x : Exec α} {k : α → Exec γ} {f : Frame} {r : EStateM.Result Stop Plain β}
    (h : Sim layout post (x f) r)
    (hk : ∀ a b f p, post a b f p → ∃ c f', k a f = .ok c f' ∧ post' c b f' p)
    : Sim layout post' ((x >>= k) f) r := by
  simp only [Bind.bind, EStateM.bind]
  generalize x f = result at h
  cases h with
  | ok h =>
    obtain ⟨c, f', heq, hpost⟩ := hk _ _ _ _ h
    simp only [heq]
    exact .ok hpost
  | error h => exact .error h

theorem mono {post post' : α → β → Frame → Plain → Prop} {r : EStateM.Result Stop Frame α}
    {r' : EStateM.Result Stop Plain β} (h : Sim layout post r r')
    (hpost : ∀ a b f p, post a b f p → post' a b f p)
    : Sim layout post' r r' := by
  cases h with
  | ok h => exact .ok (hpost _ _ _ _ h)
  | error h => exact .error h

variable {post : α → β → Frame → Plain → Prop}

theorem ok_left {a : α} {f : Frame} {r : EStateM.Result Stop Plain β}
    (h : Sim layout post (.ok a f) r)
    : ∃ b p, r = .ok b p ∧ post a b f p := by
  cases h with
  | ok h => exact ⟨_, _, rfl, h⟩

theorem ok_right {r : EStateM.Result Stop Frame α} {b : β} {p : Plain}
    (h : Sim layout post r (.ok b p))
    : ∃ a f, r = .ok a f ∧ post a b f p := by
  cases h with
  | ok h => exact ⟨_, _, rfl, h⟩

theorem error_right {r : EStateM.Result Stop Frame α} {stop : Stop} {p : Plain}
    (h : Sim layout post r (.error stop p))
    : ∃ f, r = .error stop f ∧ Linked layout [] (fun _ => False) f p := by
  cases h with
  | error h => exact ⟨_, rfl, h⟩

end Sim

def Linked.Post (layout : Layout) (live : ValueId → Prop) {α : Type} (a b : α) (f : Frame)
    (p : Plain) : Prop :=
  a = b ∧ Linked layout [] live f p

def Linked.After (layout : Layout) (unsaved : List ValueId) (live : ValueId → Prop) (_ _ : Unit)
    (f : Frame) (p : Plain) : Prop :=
  Linked layout unsaved live f p

namespace Linked

variable {layout : Layout} {unsaved : List ValueId} {live : ValueId → Prop} {f : Frame} {p : Plain}

theorem sim_onStore {α : Type} (h : Linked layout [] live f p) (action : Action α)
    : Sim layout (Post layout live) (Exec.onStore action f) (Plain.onStore action p) := by
  unfold Exec.onStore Plain.onStore
  rw [h.store]
  cases action p.store with
  | ok a store => exact .ok ⟨rfl, h.onStore store⟩
  | error stop store => exact .error (h.onStore store).forget

theorem sim_read (h : Linked layout [] live f p) {operand : Operand}
    (hlive : ∀ id, operand = .result id → live id)
    : Sim layout (Post layout live) (Exec.eval operand.source f) (Plain.read operand p) := by
  cases operand with
  | result id => exact .ok ⟨h.registers (hlive id rfl), h⟩
  | literal value => exact .ok ⟨rfl, h⟩
  | global name => exact h.sim_onStore _
  | pending => exact .ok ⟨h.header.slot (by decide), h⟩

theorem sim_readAll (h : Linked layout [] live f p) {operands : List Operand}
    (hlive : ∀ id, .result id ∈ operands → live id)
    : Sim layout (Post layout live) (Exec.evalAll (operands.map Operand.source) f)
        (Plain.readAll operands p) := by
  induction operands generalizing f p with
  | nil => exact .ok ⟨rfl, h⟩
  | cons operand operands ih =>
    refine (h.sim_read (fun id hid => hlive id (by simp [hid]))).bind ?_
    intro a b f p ⟨hab, h⟩
    refine (ih h (fun id hid => hlive id (List.mem_cons_of_mem _ hid))).bind ?_
    intro as bs f p ⟨habs, h⟩
    exact .ok ⟨by rw [hab, habs], h⟩

theorem sim_onState (h : Linked layout unsaved live f p) {g : State → State}
    (hg : State.OnHeader g) (apart : layout.Apart)
    : Sim layout (After layout unsaved live) (Exec.onState g f) (Plain.onState g p) :=
  .ok (h.onState hg apart)

theorem sim_write (h : Linked layout unsaved live f p) (id : ValueId) (value : Value)
    : Sim layout (After layout (id :: unsaved) fun i => i = id ∨ live i)
        (Exec.put (.result id) value f) (Plain.write id value p) :=
  .ok (h.write id value)

end Linked

namespace Exec

theorem ops_cons (call : Caller) (o : Op) (rest : List Op)
    : ops call (o :: rest) = (op call o >>= fun _ => ops call rest) := rfl

theorem ops_append (call : Caller) (xs ys : List Op)
    : ops call (xs ++ ys) = (ops call xs >>= fun _ => ops call ys) := by
  induction xs with
  | nil => rfl
  | cons o xs ih => rw [List.cons_append, ops_cons, ops_cons, ih, bind_assoc]

theorem ops_singleton (call : Caller) (o : Op) : ops call [o] = op call o := by
  rw [ops_cons]
  exact bind_pure_unit

end Exec

namespace Linked

variable {layout : Layout} {live : ValueId → Prop} {f : Frame} {p : Plain} {call : Caller}

theorem saves {ids : List ValueId} (h : Linked layout ids live f p) (apart : layout.Apart)
    (hlive : ∀ id ∈ ids, live id)
    : ∃ f', Exec.ops call (Emit.saves layout ids) f = .ok () f' ∧ Linked layout [] live f' p := by
  induction ids generalizing f with
  | nil => exact ⟨f, rfl, h⟩
  | cons id ids ih =>
    rw [List.forall_mem_cons] at hlive
    simp only [Emit.saves, List.filterMap_cons]
    cases hslot : layout.slots.get? id with
    | none => exact ih (h.unsaved_of_no_slot hslot) hlive.2
    | some slot => exact ih (h.save apart hlive.1 hslot) hlive.2

end Linked

end Resumable
