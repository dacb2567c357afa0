import Resumable.Proofs.Lowering.Later
import Resumable.Proofs.Running.Turns

/-!
This module contains what a machine has done when it is at a block that the operands behind another
one have opened: a turn of it has got past that operand, and since then nothing but the code of the
operands behind it has been at work, unless a fault was handed back.
-/

namespace Resumable

theorem exists_of_mem_slice {α : Type} {xs : List α} {x : α} {i j : Nat}
    (h : x ∈ (xs.take j).drop i)
    : ∃ k, i ≤ k ∧ k < j ∧ xs[k]? = some x := by
  obtain ⟨k, hk⟩ := List.mem_iff_getElem?.1 h
  rw [List.getElem?_drop, List.getElem?_take] at hk
  split at hk
  . next hlt => exact ⟨i + k, Nat.le_add_right i k, hlt, hk⟩
  . cases hk

theorem Orderly.id_le {code : BlockId → List Instruction} (h : Orderly code) {b : BlockId}
    {i j : Nat} {ins ins' : Instruction} (hins : (code b)[i]? = some ins)
    (hins' : (code b)[j]? = some ins') (hle : i ≤ j)
    : ins.id ≤ ins'.id := by
  rcases Nat.eq_or_lt_of_le hle with rfl | hlt
  . cases hins.symm.trans hins'
    exact Nat.le_refl _
  . exact Nat.le_of_lt (h.ordered hins hins' hlt)

namespace Plan

variable {options : CompileOptions} {plan : Plan} {b : BlockId} {i : Nat} {s : State}

theorem MayHold.subset {stack : List BlockId} (h : plan.MayHold b i stack)
    (hblock : plan.BlockFits options b) {target : BlockId} (hmem : target ∈ stack)
    : target ∈ plan.stackAt b i := by
  rcases h with rfl | ⟨hrole, hlt, rfl⟩
  . exact hmem
  obtain ⟨value, ⟨_, hreceive⟩, ⟨_, htake⟩, _⟩ := hblock.cleanup_code hrole
  have hzero : target ∈ plan.stackAt b 0 := by
    rw [stackAt_zero, Label.enter, hrole]
    exact List.mem_cons_of_mem _ hmem
  have hone : target ∈ plan.stackAt b 1 := by
    rw [stackAt_succ hreceive]
    exact hzero
  have htwo : target ∈ plan.stackAt b 2 := by
    simp only [Spot.skip] at htake
    rw [stackAt_succ htake]
    exact hone
  have hcases : i = 0 ∨ i = 1 ∨ i = 2 := by lia
  rcases hcases with rfl | rfl | rfl <;> assumption

theorem Slack.mem_stackAt (h : plan.Slack b i s) (hblock : plan.BlockFits options b)
    {target : BlockId} (hmem : target ∈ s.handlers)
    : target ∈ plan.stackAt b i := by
  obtain ⟨handlers, stack, hstacked, hsub, _, hholds⟩ := h
  rw [hstacked.handlers] at hmem
  exact hholds.subset hblock (hsub.subset hmem)

end Plan

/--
What has happened to a machine since a turn of it was at an instruction of its block: the operations
of whole turns, the instructions that were begun from there on, the faults that were handed back, and
what was done to the store from outside.
-/
inductive Program.Since (machines : Machines) (program : Program) (graph : Graph) (fuel : Nat)
    (p : Process) (i : Nat) :
    List Op → List Begun → List Value → List (Store × Store) → Process → Prop where
  | leave {handed : List Value} {q : Process} :
    program.Moves machines fuel p handed q →
      Since machines program graph fuel p i (program.carried machines fuel p)
        ((program.begun machines graph fuel p).drop i) handed [] q
  | move {ops : List Op} {done : List Begun} {handed new : List Value}
      {worlds : List (Store × Store)} {fuel' : Nat} {q r : Process} :
    Since machines program graph fuel p i ops done handed worlds q →
      program.Moves machines fuel' q new r →
        Since machines program graph fuel p i (ops ++ program.carried machines fuel' q)
          (done ++ program.begun machines graph fuel' q) (handed ++ new) worlds r
  | touch {ops : List Op} {done : List Begun} {handed new : List Value}
      {worlds : List (Store × Store)} {q r : Process} :
    Since machines program graph fuel p i ops done handed worlds q → q.Touched new r →
      Since machines program graph fuel p i ops done (handed ++ new)
        (worlds ++ [(q.store, r.store)]) r

theorem Process.Touched.slot {p q : Process} {new : List Value} (h : p.Touched new q) {slot : Nat}
    (hslot : headerSize ≤ slot)
    : q.state.slot slot = p.state.slot slot := by
  have hother : ∀ (s : State) {k : Nat} (value : Value), k < headerSize →
      (s.setSlot k value).slot slot = s.slot slot := fun s k value hk =>
    State.slot_setSlot_ne s (by lia) value
  cases h with
  | store => rfl
  | pending | fault => exact hother p.state _ (by decide)
  | finish => exact (hother _ _ (by decide)).trans (hother p.state _ (by decide))

theorem Process.Touched.running {p q : Process} {new : List Value} {b : BlockId}
    (h : p.Touched new q) (hrunning : q.state.status? = some (.running b))
    : p.state.status? = some (.running b) := by
  have hsame : ∀ {k : Nat} {value : Value}, k ≠ 1 →
      (p.state.setSlot k value).status? = p.state.status? := fun hk =>
    State.status?_of_slot (State.slot_setSlot_ne p.state hk _)
  cases h with
  | store => exact hrunning
  | pending | fault => exact (hsame (by decide)).symm.trans hrunning
  | finish => exact absurd hrunning State.not_running_finish

/--
Whether a machine has got past an operand in a run, and has been at the code of the operands behind
it since.
-/
def Program.Passed (machines : Machines) (program : Program) (graph : Graph) (plan : Plan)
    (u w : Spot) (past : List Op) (faults : List Value) (p : Process) : Prop :=
  ∃ past₀ faults₀ p₀ fuel g ops done handed worlds, program.Ran machines past₀ faults₀ p₀ ∧
    past = past₀ ++ ops ∧ faults = faults₀ ++ handed ∧
    program.Reaches machines graph fuel p₀ u.block u.index g ∧
    program.Since machines graph fuel p₀ u.index ops done handed worlds p ∧
    graph.Kept done worlds g.toProcess p ∧
    (∀ step ∈ done, ∃ b i, (plan.code b)[i]? = some step.ins ∧ u.Covers w b i) ∧
    (handed = [] → ∀ step ∈ done, step.ins.id < w.value)

namespace Program.Passed

variable {machines : Machines} {program : Program} {graph : Graph} {plan : Plan} {u w : Spot}
  {fuel : Nat} {p q : Process} {past : List Op} {faults new : List Value}

theorem move (h : program.Passed machines graph plan u w past faults p)
    (hmoves : program.Moves machines fuel p new q)
    (hkept : graph.Kept (program.begun machines graph fuel p) [] p q)
    (hcovers : ∀ step ∈ program.begun machines graph fuel p,
      ∃ b i, (plan.code b)[i]? = some step.ins ∧ u.Covers w b i)
    (hhigh : new = [] → ∀ step ∈ program.begun machines graph fuel p, step.ins.id < w.value)
    : program.Passed machines graph plan u w (past ++ program.carried machines fuel p)
        (faults ++ new) q := by
  obtain ⟨past₀, faults₀, p₀, fuel₀, g, ops, done, handed, worlds, hran, rfl, rfl, hreaches, hsince,
    hkept₀, hcovers₀, hhigh₀⟩ := h
  have hkept' := hkept₀.trans hkept
  rw [List.append_nil] at hkept'
  refine ⟨past₀, faults₀, p₀, fuel₀, g, _, _, _, worlds, hran, List.append_assoc ..,
    List.append_assoc .., hreaches, hsince.move hmoves, hkept',
    List.forall_mem_append.2 ⟨hcovers₀, hcovers⟩, fun hnone => ?_⟩
  obtain ⟨hhanded, hnew⟩ := List.append_eq_nil_iff.1 hnone
  exact List.forall_mem_append.2 ⟨hhigh₀ hhanded, hhigh hnew⟩

theorem touch (h : program.Passed machines graph plan u w past faults p)
    (htouched : p.Touched new q)
    : program.Passed machines graph plan u w past (faults ++ new) q := by
  obtain ⟨past₀, faults₀, p₀, fuel₀, g, ops, done, handed, worlds, hran, hpast, rfl, hreaches, hsince,
    hkept, hcovers, hhigh⟩ := h
  refine ⟨past₀, faults₀, p₀, fuel₀, g, ops, done, _, _, hran, hpast, List.append_assoc .., hreaches,
    hsince.touch htouched, ?_, hcovers, fun hnone => hhigh (List.append_eq_nil_iff.1 hnone).1⟩
  have hkept' : graph.Kept [] [(p.store, q.store)] p q := {
    slot := fun id slot hslot _ => htouched.slot (graph.layout_apart.header hslot)
    global := fun name _ hworlds => hworlds _ (List.mem_singleton.2 rfl) }
  have hboth := hkept.trans hkept'
  rwa [List.append_nil] at hboth

end Program.Passed

namespace Program.Reaches

variable {machines : Machines} {program : Program} {graph : Graph} {fuel : Nat} {p q : Process}
  {b : BlockId} {i j : Nat} {step : Begun} {f g : Frame}

theorem process (h : program.Reaches machines graph fuel p b 0 f) : f.toProcess = p := by
  obtain ⟨code, hcode, _⟩ := h.arrives
  obtain ⟨f', hstart, hprocess⟩ := @start machines program graph fuel p b code h.status hcode
  rw [h.unique hstart, hprocess]

theorem begun_onwards (hg : program.Reaches machines graph fuel p b j g)
    (h : program.Reaches machines graph fuel p b i f) (hle : j ≤ i)
    (hins : (graph.blocks.code b)[i]? = some step.ins)
    (hlast : (program.begun machines graph fuel p).drop i = [step])
    (hkept : graph.Kept [step] [] f.toProcess q)
    : graph.Kept ((program.begun machines graph fuel p).drop j) [] g.toProcess q ∧
        ∀ step' ∈ (program.begun machines graph fuel p).drop j,
          ∃ k, j ≤ k ∧ k ≤ i ∧ (graph.blocks.code b)[k]? = some step'.ins := by
  obtain ⟨hi, _⟩ := List.getElem?_eq_some_iff.1 hins
  obtain ⟨hmap, hslice⟩ := slice_begun hg h hle (Nat.le_of_lt hi)
  have hlength : i ≤ (program.begun machines graph fuel p).length := by
    have := congrArg List.length hlast
    rw [List.length_drop, List.length_singleton] at this
    lia
  have hparts : (program.begun machines graph fuel p).drop j
      = ((program.begun machines graph fuel p).take i).drop j ++ [step] := by
    conv => lhs; rw [← List.take_append_drop i (program.begun machines graph fuel p)]
    rw [hlast, List.drop_append_of_le_length (by rwa [List.length_take_of_le hlength])]
  rw [hparts]
  refine ⟨hslice.trans hkept, List.forall_mem_append.2 ⟨fun step' hstep => ?_, ?_⟩⟩
  . have hmem := List.mem_map_of_mem (f := (·.ins)) hstep
    rw [hmap] at hmem
    obtain ⟨k, hjk, hki, hget⟩ := exists_of_mem_slice hmem
    exact ⟨k, hjk, Nat.le_of_lt hki, hget⟩
  . exact List.forall_mem_singleton.2 ⟨i, hle, Nat.le_refl i, hins⟩

end Program.Reaches

namespace Graph.Coded

open Plan

variable {options : CompileOptions} {source : Form} {graph : Graph} {plan : Plan}
  {table : Table String Handler} {name : String} {program : Program} {machines : Machines}
  {fuel : Nat} {p q : Process} {past : List Op} {faults new : List Value} {b b' : BlockId}
  {i j : Nat} {step : Begun} {f g : Frame} {scope : Scope} {operands : List Operand} {u w : Spot}

theorem begun_behind (h : graph.Coded options source plan)
    (hins : (plan.code b)[i]? = some step.ins)
    (hreaches : program.Reaches machines graph fuel p b i f)
    (hlast : (program.begun machines graph fuel p).drop i = [step])
    (hkept : graph.Kept [step] [] f.toProcess q)
    (hg : program.Reaches machines graph fuel p b j g) (hle : j ≤ i)
    : graph.Kept ((program.begun machines graph fuel p).drop j) [] g.toProcess q ∧
        ∀ step' ∈ (program.begun machines graph fuel p).drop j, step'.ins.id ≤ step.ins.id ∧
          ∃ k, j ≤ k ∧ (plan.code b)[k]? = some step'.ins := by
  have hcode := hins
  rw [← h.code] at hcode
  obtain ⟨hkept', heach⟩ := hg.begun_onwards hreaches hle hcode hlast hkept
  refine ⟨hkept', fun step' hstep => ?_⟩
  obtain ⟨k, hjk, hki, hget⟩ := heach step' hstep
  rw [h.code] at hget
  exact ⟨h.toOrderly.id_le hget hins hki, k, hjk, hget⟩

theorem passed_inside (h : graph.Coded options source plan)
    (hins : (plan.code b)[i]? = some step.ins)
    (hreaches : program.Reaches machines graph fuel p b i f)
    (hlast : (program.begun machines graph fuel p).drop i = [step])
    (hkept : graph.Kept [step] [] f.toProcess q) (hmoves : program.Moves machines fuel p new q)
    (hopens : u.Opens w b) (hpassed : program.Passed machines graph plan u w past faults p)
    (hhigh : new = [] → step.ins.id < w.value)
    : program.Passed machines graph plan u w (past ++ program.carried machines fuel p)
        (faults ++ new) q := by
  obtain ⟨code, hget, _⟩ := hreaches.arrives
  obtain ⟨f₀, hstart, hprocess⟩ :=
    @Program.Reaches.start machines program graph fuel p b code hreaches.status hget
  obtain ⟨hkept', heach⟩ := h.begun_behind hins hreaches hlast hkept hstart (Nat.zero_le i)
  rw [hprocess, List.drop_zero] at hkept'
  rw [List.drop_zero] at heach
  refine hpassed.move hmoves hkept' ?_ ?_
  . intro step' hstep
    obtain ⟨_, k, _, hget⟩ := heach step' hstep
    exact ⟨b, k, hget, .inl hopens⟩
  . exact fun hnew step' hstep => Nat.lt_of_le_of_lt (heach step' hstep).1 (hhigh hnew)

theorem passed_behind (h : graph.Coded options source plan)
    (hins : (plan.code u.block)[i]? = some step.ins)
    (hreaches : program.Reaches machines graph fuel p u.block i f)
    (hlast : (program.begun machines graph fuel p).drop i = [step])
    (hkept : graph.Kept [step] [] f.toProcess q) (hmoves : program.Moves machines fuel p new q)
    (hran : program.Ran machines past faults p) (hle : u.index ≤ i) (hhigh : step.ins.id < w.value)
    : program.Passed machines graph plan u w (past ++ program.carried machines fuel p)
        (faults ++ new) q := by
  obtain ⟨g, hg, _⟩ := hreaches.before hle
  obtain ⟨hkept', heach⟩ := h.begun_behind hins hreaches hlast hkept hg hle
  refine ⟨past, faults, p, fuel, g, _, _, _, [], hran, rfl, rfl, hg, .leave hmoves, hkept', ?_,
    fun _ step' hstep => Nat.lt_of_le_of_lt (heach step' hstep).1 hhigh⟩
  intro step' hstep
  obtain ⟨_, k, hk, hget⟩ := heach step' hstep
  exact ⟨u.block, k, hget, .inr ⟨rfl, hk⟩⟩

theorem passed_moves (h : graph.Coded options source plan) (hsmall : graph.IsSmall)
    (hprogram : Program.ofGraph graph table name = .ok program)
    (hencloses : plan.Encloses scope operands u w) (hran : program.Ran machines past faults p)
    (hgoes : plan.Goes graph.layout faults p.state)
    (hpassed : ∀ b, p.state.status? = some (.running b) → u.Opens w b →
      program.Passed machines graph plan u w past faults p)
    (hmoves : program.Moves machines fuel p new q)
    (harrives : graph.Arrives plan machines program fuel p new q b') (hopens : u.Opens w b')
    : program.Passed machines graph plan u w (past ++ program.carried machines fuel p)
        (faults ++ new) q := by
  cases harrives with
  | @missing b hstatus hbegun hkept hnext =>
    have hopens' : u.Opens w b := by
      rcases hnext with hmem | rfl
      . have hslack := (hgoes.running hstatus).slack
        exact hencloses.entered b b' (hslack.mem_stackAt (h.blockFits b) hmem) hopens
      . exact hopens
    refine (hpassed b hstatus hopens').move hmoves ?_ ?_ ?_
    all_goals rw [hbegun]
    . exact hkept
    . exact fun _ hmem => absurd hmem List.not_mem_nil
    . exact fun _ _ hmem => absurd hmem List.not_mem_nil
  | @behind b i step f hins hreaches hbegun hkept hnext =>
    -- Whatever names a block of the operands behind is code of theirs, and so is what runs under a
    -- handler there. A fault that is handed back leaves the machine where it is.
    have hwithin : Within u w b i step.ins ∨ u.Opens w b ∧ new ≠ [] := by
      rcases hnext with htarget | hhandler | ⟨rfl, hnew⟩
      . exact .inl (hencloses.leads hins b' htarget hopens)
      . have hi := (List.getElem?_eq_some_iff.1 hins).1
        have hslack := (h.reaches_slack hsmall hprogram hgoes hreaches hi).1
        exact .inl (hencloses.stack hins b' (hslack.mem_stackAt (h.blockFits b) hhandler) hopens)
      . exact .inr ⟨hopens, hnew⟩
    rcases hwithin with hwithin | ⟨hopens', hnew⟩
    . rcases hwithin.covers with hopens' | ⟨rfl, hle⟩
      . exact h.passed_inside hins hreaches hbegun hkept hmoves hopens'
          (hpassed b hreaches.status hopens') fun _ => hwithin.high
      . exact h.passed_behind hins hreaches hbegun hkept hmoves hran hle hwithin.high
    . exact h.passed_inside hins hreaches hbegun hkept hmoves hopens'
        (hpassed b hreaches.status hopens') fun hnil => absurd hnil hnew

theorem ran_passed (h : graph.Coded options source plan) (hsmall : graph.IsSmall)
    (hprogram : Program.ofGraph graph table name = .ok program)
    (hhandlers : program.Supports machines table (4 ≤ ·)) (hfails : table.FailsInPlace)
    (hencloses : plan.Encloses scope operands u w) (hran : program.Ran machines past faults p)
    (hrunning : p.state.status? = some (.running b)) (hopens : u.Opens w b)
    : program.Passed machines graph plan u w past faults p := by
  -- A run starts outside of the operands behind, and a turn gets in from the operand only.
  induction hran generalizing b with
  | create hcreate =>
    obtain ⟨hblock, _⟩ := h.create_fresh hprogram hcreate
    obtain rfl := State.running_of_block (by decide) hblock hrunning
    exact absurd hopens hencloses.start
  | move hran hmoves ih =>
    have hgoes := h.ran_goes hsmall hprogram hhandlers (by decide) (by decide) hfails hran
    have harrives := h.moves_arrives hsmall hprogram hhandlers hfails hgoes hmoves hrunning
    exact h.passed_moves hsmall hprogram hencloses hran hgoes (fun _ => ih) hmoves harrives hopens
  | touch hran htouched ih =>
    exact (ih (htouched.running hrunning) hopens).touch htouched

end Graph.Coded

end Resumable
