import Resumable.Proofs.Closures.Places

/-!
This module contains how a machine gets from one place in its blocks to another one with nothing
happening in between: results are copied and handed over, and values decide where it goes on.
-/

namespace Resumable

def Operand.Means (operand : Operand) (q : Plain) (value : Value) : Prop :=
  Plain.read operand q = .ok value q

def Operand.Decides (operand : Operand) (holds : Bool) (q : Plain) (value : Value) : Prop :=
  operand.Means q value ∧ value.isTruthy = holds

structure Plain.Keeps (bound : ValueId) (q q' : Plain) : Prop where
  store : q'.store = q.store
  values : ∀ id < bound, q'.values id = q.values id
  header : ∀ i < headerSize, i ≠ 1 → i ≠ 2 → q'.state.slot i = q.state.slot i

namespace Plain.Keeps

variable {bound bound' : ValueId} {q q' q'' : Plain}

theorem refl (bound : ValueId) (q : Plain) : q.Keeps bound q where
  store := rfl
  values _ _ := rfl
  header _ _ _ _ := rfl

theorem trans (h : q.Keeps bound q') (h' : q'.Keeps bound' q'') (hle : bound ≤ bound')
    : q.Keeps bound q'' where
  store := h'.store.trans h.store
  values id hid := (h'.values id (Nat.lt_of_lt_of_le hid hle)).trans (h.values id hid)
  header i hi hblock hpending :=
    (h'.header i hi hblock hpending).trans (h.header i hi hblock hpending)

end Plain.Keeps

structure Plan.Connects (plan : Plan) (layout : Layout) (program : Program) (s : Spot)
    (P : Plain → Value → Prop) (t : Spot) (Q : Plain → Value → Prop) : Prop where
  value_le : s.value ≤ t.value
  runs : ∃ blocks, ∀ (machines : Machines) (fuel : Nat) (p : Process) (q : Plain)
    (value : Value),
    plan.Comes layout (Run.call machines (Program.run machines (fuel + blocks))) p s q →
      headerSize ≤ q.state.slots.size → P q value →
        ∃ p' q', plan.Comes layout (Run.call machines (Program.run machines fuel)) p' t q' ∧
          headerSize ≤ q'.state.slots.size ∧ Q q' value ∧ q.Keeps s.value q' ∧
          Program.run machines (fuel + blocks + 1) program p
            = Program.run machines (fuel + 1) program p'

namespace Plan.Connects

variable {plan : Plan} {layout : Layout} {program : Program} {s t u : Spot}
  {P P' Q Q' : Plain → Value → Prop}

theorem refl (h : ∀ q value, P q value → Q q value) : plan.Connects layout program s P s Q where
  value_le := Nat.le_refl _
  runs :=
    ⟨0, fun _ _ p q _ hcomes hroom hP => ⟨p, q, hcomes, hroom, h _ _ hP, .refl s.value q, rfl⟩⟩

theorem trans (h : plan.Connects layout program s P t Q)
    (h' : plan.Connects layout program t Q u Q')
    : plan.Connects layout program s P u Q' where
  value_le := Nat.le_trans h.value_le h'.value_le
  runs := by
    obtain ⟨hle, n, h⟩ := h
    obtain ⟨_, m, h'⟩ := h'
    refine ⟨m + n, fun machines fuel p q value hcomes hroom hP => ?_⟩
    rw [← Nat.add_assoc] at hcomes ⊢
    obtain ⟨p', q', hcomes', hroom', hQ, hkeeps, hrun⟩ :=
      h machines (fuel + m) p q value hcomes hroom hP
    obtain ⟨p'', q'', hcomes'', hroom'', hQ', hkeeps', hrun'⟩ :=
      h' machines fuel p' q' value hcomes' hroom' hQ
    exact ⟨p'', q'', hcomes'', hroom'', hQ', hkeeps.trans hkeeps' hle, hrun.trans hrun'⟩

theorem weaken (h : plan.Connects layout program s P t Q) (hQ : ∀ q value, Q q value → Q' q value)
    : plan.Connects layout program s P t Q' :=
  h.trans (refl hQ)

theorem and (h : plan.Connects layout program s P t Q) (C : Value → Prop)
    : plan.Connects layout program s (fun q value => P q value ∧ C value) t
        (fun q value => Q q value ∧ C value) where
  value_le := h.value_le
  runs := by
    obtain ⟨_, n, h⟩ := h
    refine ⟨n, fun machines fuel p q value hcomes hroom hP => ?_⟩
    obtain ⟨p', q', hcomes', hroom', hQ, hkeeps, hrun⟩ :=
      h machines fuel p q value hcomes hroom hP.1
    exact ⟨p', q', hcomes', hroom', ⟨hQ, hP.2⟩, hkeeps, hrun⟩

theorem «at» (h : plan.Connects layout program s P t Q) (value : Value)
    : plan.Connects layout program s (fun q _ => P q value) t (fun q _ => Q q value) where
  value_le := h.value_le
  runs := by
    obtain ⟨_, n, h⟩ := h
    exact ⟨n, fun machines fuel p q _ hcomes hroom hP => h machines fuel p q value hcomes hroom hP⟩

end Plan.Connects

namespace Graph.Coded

variable {options : CompileOptions} {source : Form} {graph : Graph} {plan : Plan}
  {table : Table String Handler} {name : String} {program : Program} {s t : Spot}
  {operand : Operand}

theorem connects_copy (h : plan.Holds s [.effect (.const operand)])
    : plan.Connects graph.layout program s operand.Means (s.skip 1)
        (Operand.result s.value).Means where
  value_le := Nat.le_succ _
  runs := by
    refine ⟨0, fun machines fuel p q value hcomes hroom hvalue => ?_⟩
    have heffect : Plain.effect (Run.call machines (Program.run machines fuel)) s.value
        (.const operand) q = .ok () { q with values := update q.values s.value value } := bind_of_ok hvalue
    refine ⟨p, _, hcomes.step h heffect, hroom, ?_, ⟨rfl, ?_, fun _ _ _ _ => rfl⟩, rfl⟩
    . have hat : update q.values s.value value s.value = value := if_pos rfl
      exact congrArg (EStateM.Result.ok · _) hat
    . exact fun id hid => if_neg (Nat.ne_of_lt hid)

section

variable (h : graph.Coded options source plan) (hsmall : graph.IsSmall)
  (hprogram : Program.ofGraph graph table name = .ok program)

include h hsmall hprogram

theorem comes_next {transfer : Transfer} {rest : List Command}
    (hholds : plan.Holds s (.transfer transfer :: rest)) (hstart : t.index = 0)
    (htarget : t.block ∈ transfer.references) {machines : Machines} {fuel : Nat} {p : Process}
    {q q' : Plain}
    (hcomes : plan.Comes graph.layout (Run.call machines (Program.run machines (fuel + 1))) p s q)
    (htransfer : Plain.transfer transfer q = .ok .next q')
    (hblock : q'.state.slot 1 = State.ofBlock t.block)
    : ∃ state, state.Alike q'.state ∧
        plan.Comes graph.layout (Run.call machines (Program.run machines fuel)) ⟨state, q'.store⟩ t
          ⟨⟨state, q'.store⟩, q'.values⟩ ∧
        Program.run machines (fuel + 1 + 1) program p
          = Program.run machines (fuel + 1) program ⟨state, q'.store⟩ := by
  obtain ⟨state, hagrees, halike, hrun⟩ := h.run_next hprogram hcomes hholds htransfer
  obtain ⟨⟨span, hspan⟩, _⟩ := hholds
  have hstatus : state.status? = some (.running t.block) :=
    State.status?_of_block ((halike.slot (by decide)).trans hblock)
      (h.small_references hsmall hspan t.block htarget)
  refine ⟨state, halike, ⟨hstatus, q'.values, hagrees, ?_⟩, hrun⟩
  rw [hstart, List.take_zero]
  rfl

theorem connects_handOver (hholds : plan.Holds s [.handOver operand t.block])
    (hstart : t.index = 0) (hreceive : plan.Holds t [.receive]) (hle : s.value ≤ t.value)
    : plan.Connects graph.layout program s operand.Means (t.skip 1)
        (Operand.result t.value).Means where
  value_le := Nat.le_succ_of_le hle
  runs := by
    refine ⟨1, fun machines fuel p q value hcomes hroom hvalue => ?_⟩
    have htransfer : Plain.transfer (.jump (some operand) t.block) q
        = .ok .next { q with state := (q.state.setPending value).resumeAt t.block } :=
      bind_of_ok hvalue
    -- Slots are only overwritten, so there is still room for the header behind the transfer.
    have hsize : ((q.state.setPending value).resumeAt t.block).slots.size = q.state.slots.size := by
      simp [State.resumeAt, State.setPending, State.setSlot]
    obtain ⟨state, halike, hcomes', hrun⟩ := h.comes_next hsmall hprogram hholds hstart
      (List.mem_singleton.2 rfl) hcomes htransfer (State.slot_setSlot
        (by simpa [State.setPending, State.setSlot] using Nat.lt_of_lt_of_le (by decide) hroom) _)
    have hpending : state.pending = value := by
      unfold State.pending
      rw [halike.slot (by decide)]
      exact (State.slot_setSlot_ne _ (by decide) _).trans
        (State.slot_setSlot (Nat.lt_of_lt_of_le (by decide) hroom) _)
    refine ⟨_, _, hcomes'.step hreceive rfl, halike.room (hsize ▸ hroom), ?_, ⟨rfl, ?_, ?_⟩, hrun⟩
    . have hat : update q.values t.value state.pending t.value = value :=
        (if_pos rfl).trans hpending
      exact congrArg (EStateM.Result.ok · _) hat
    . exact fun id hid => if_neg (Nat.ne_of_lt (Nat.lt_of_lt_of_le hid hle))
    . intro i hi hone htwo
      exact (halike.slot hi).trans ((State.slot_setSlot_ne _ hone.symm _).trans
        (State.slot_setSlot_ne _ htwo.symm _))

theorem connects_branch {yes no : BlockId}
    (hholds : plan.Holds s [.transfer (.branch operand yes no)])
    {holds : Bool} (hblock : t.block = if holds then yes else no) (hstart : t.index = 0)
    (hle : s.value ≤ t.value)
    : plan.Connects graph.layout program s (operand.Decides holds) t
        (fun q value => ∀ id, operand = .result id → (Operand.result id).Means q value) where
  value_le := hle
  runs := by
    refine ⟨1, fun machines fuel p q value hcomes hroom hvalue => ?_⟩
    obtain ⟨hvalue, hholdsAs⟩ := hvalue
    have htransfer : Plain.transfer (.branch operand yes no) q
        = .ok .next { q with state := q.state.resumeAt t.block } := by
      rw [hblock, ← hholdsAs]
      exact bind_of_ok hvalue
    have htarget : t.block ∈ (Transfer.branch operand yes no).references := by
      rw [hblock]
      cases holds <;> simp [Transfer.references]
    have hsize : (q.state.resumeAt t.block).slots.size = q.state.slots.size := by
      simp [State.resumeAt, State.setSlot]
    obtain ⟨state, halike, hcomes', hrun⟩ := h.comes_next hsmall hprogram hholds hstart htarget
      hcomes htransfer (State.slot_setSlot (Nat.lt_of_lt_of_le (by decide) hroom) _)
    refine ⟨_, _, hcomes', halike.room (hsize ▸ hroom), ?_, ⟨rfl, fun _ _ => rfl, ?_⟩, hrun⟩
    . rintro id rfl
      cases hvalue
      rfl
    . intro i hi hone _
      exact (halike.slot hi).trans (State.slot_setSlot_ne _ hone.symm _)

end

end Graph.Coded

end Resumable
