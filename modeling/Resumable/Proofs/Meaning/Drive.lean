import Resumable.Proofs.Handlers.Run
import Resumable.Proofs.Meaning.Moves
import Resumable.Proofs.Running.Fuel

/-!
This module contains the driving of a machine, which is resumed with a value whenever it gives one
out, and the proof that the machine follows the moves through the code of its plan.
-/

namespace Resumable

open Direct (World Report)

def Program.drive (machines : Machines) (program : Program) (fuel first : Nat) :
    List Value → List Value → Process → Option Report
  | inputs, outputs, p =>
    match Program.run machines first program p with
    | .ok (.done value) q => some ⟨.done value, ⟨q.store, inputs, outputs⟩⟩
    | .ok .suspended q =>
      match inputs with
      | [] => some ⟨.waiting, ⟨q.store, [], outputs ++ [q.state.pending]⟩⟩
      | input :: rest =>
        Program.drive machines program fuel fuel rest (outputs ++ [q.state.pending])
          ⟨q.state.setPending input, q.store⟩
    | .error (.thrown value) q => some ⟨.fault value, ⟨q.store, inputs, outputs⟩⟩
    | .error .outOfFuel _ => none

inductive Reports (w : World) : Outcome → Report → Prop where
  | done {value : Value} {q : Process} :
    q.store = w.store → Reports w (.ok (.done value) q) ⟨.done value, w⟩
  | waiting {q : Process} :
    q.store = w.store → w.inputs = [] →
      Reports w (.ok .suspended q) ⟨.waiting, { w with outputs := w.outputs ++ [q.state.pending] }⟩
  | fault {value : Value} {q : Process} :
    Reports w (.error (.thrown value) q) ⟨.fault value, { w with store := q.store }⟩

namespace Program

variable {machines : Machines} {program : Program} {fuel first : Nat} {p p' q : Process}
  {b : BlockId} {inputs outputs : List Value}

theorem drive_zero : program.drive machines fuel 0 inputs outputs p = none := by
  unfold Program.drive
  rfl

theorem drive_congr {first' : Nat}
    (h : Program.run machines first program p = Program.run machines first' program p')
    : program.drive machines fuel first inputs outputs p
        = program.drive machines fuel first' inputs outputs p' := by
  unfold Program.drive
  simp only [h]

theorem drive_resume {input : Value}
    (h : Program.run machines first program p = .ok .suspended q)
    : program.drive machines fuel first (input :: inputs) outputs p
        = program.drive machines fuel fuel inputs (outputs ++ [q.state.pending])
          ⟨q.state.setPending input, q.store⟩ := by
  rw [Program.drive]
  simp only [h]

theorem drive_reports {w : World} {outcome : Outcome} {report : Report}
    (hrun : Program.run machines first program p = outcome) (h : Reports w outcome report)
    : program.drive machines fuel first w.inputs w.outputs p = some report := by
  obtain ⟨store, inputs, outputs⟩ := w
  unfold Program.drive
  cases h with
  | done hstore =>
    cases hstore
    simp only [hrun]
  | waiting hstore hinputs =>
    cases hstore
    cases hinputs
    simp only [hrun]
  | fault => simp only [hrun]

end Program

namespace Plain

def ofConfig (s : State) (c : Config) : Plain :=
  ⟨⟨s, c.world.store⟩, c.values⟩

variable {s : State} {c : Config} {operand : Operand} {value : Value}

theorem read_ofConfig (hs : s.pending = c.pending) (h : c.Reads operand value)
    : read operand (ofConfig s c) = .ok value (ofConfig s c) := by
  cases operand with
  | result id | literal value =>
    cases h
    rfl
  | pending =>
    cases hs.trans h
    rfl
  | global name =>
    have hglobal : (ofConfig s c).store.globals.get? name = some value := h
    simp only [read, onStore, Action.global_ok hglobal]

theorem readAll_ofConfig {operands : List Operand} {values : List Value}
    (hs : s.pending = c.pending) (h : List.Forall₂ c.Reads operands values)
    : readAll operands (ofConfig s c) = .ok values (ofConfig s c) := by
  induction h with
  | nil => rfl
  | cons hread _ ih =>
    simp only [readAll]
    rw [bind_of_ok (read_ofConfig hs hread), bind_of_ok ih]
    rfl

end Plain

namespace Plan

variable {machines : Machines} {plan : Plan} {host : HostFunctions} {c c' : Config}

theorem Does.plain (h : plan.Does machines.functions c c')
    : c'.block = c.block ∧ c'.index = c.index + 1 ∧ c'.pending = c.pending ∧
        ∃ id e, c.Finds plan id (.effect e) ∧ ∀ run s, s.pending = c.pending →
          Plain.effect (Run.call machines run) id e (.ofConfig s c) = .ok () (.ofConfig s c') := by
  cases h with
  | const hfinds hread =>
    refine ⟨rfl, rfl, rfl, _, _, hfinds, fun run s hs => ?_⟩
    simp only [Plain.effect]
    rw [bind_of_ok (Plain.read_ofConfig hs hread)]
    rfl
  | call hfinds hcallee hargs hnative hcall =>
    refine ⟨rfl, rfl, rfl, _, _, hfinds, fun run s hs => ?_⟩
    simp only [Plain.effect]
    rw [bind_of_ok (Plain.read_ofConfig hs hcallee), bind_of_ok (Plain.readAll_ofConfig hs hargs),
      Run.call_eq machines run hnative]
    simp only [Plain.onStore, Plain.ofConfig, Bind.bind, EStateM.bind, hcall]
    rfl
  | recur hfinds hargs =>
    refine ⟨rfl, rfl, rfl, _, _, hfinds, fun run s hs => ?_⟩
    simp only [Plain.effect]
    rw [bind_of_ok (Plain.readAll_ofConfig hs hargs), Plain.writeAll_eq]
    rfl

theorem Does.world (h : plan.Does host c c')
    : c'.world.inputs = c.world.inputs ∧ c'.world.outputs = c.world.outputs := by
  cases h <;> exact ⟨rfl, rfl⟩

theorem Jumps.world (h : plan.Jumps c c')
    : c'.world.inputs = c.world.inputs ∧ c'.world.outputs = c.world.outputs := by
  cases h <;> exact ⟨rfl, rfl⟩

structure Settled (s : State) (c : Config) : Prop where
  block : s.slot 1 = State.ofBlock c.block
  stacked : s.Stacked []
  pending : s.pending = c.pending

theorem Settled.resumeAt {s : State} {b : BlockId} {world : World} {values : ValueId → Value}
    (hstacked : s.Stacked []) (hpending : s.pending = c.pending)
    : Settled (s.resumeAt b) ⟨b, 0, values, c.pending, world⟩ where
  block := State.slot_setSlot (hstacked.lt_size (by decide)) _
  stacked := hstacked.setSlot (by decide) _
  pending := (State.slot_setSlot_ne s (by decide) _).trans hpending

theorem Settled.setPending {s : State} (h : Settled s c) (value : Value) {index : Nat}
    {world : World} {values : ValueId → Value}
    : Settled (s.setPending value) ⟨c.block, index, values, value, world⟩ where
  block := (State.slot_setSlot_ne s (by decide) _).trans h.block
  stacked := h.stacked.setPending value
  pending := State.slot_setSlot (h.stacked.lt_size (by decide)) _

theorem pending_setPending {s : State} (h : s.Stacked []) (value : Value)
    : (s.setPending value).pending = value :=
  State.slot_setSlot (h.lt_size (by decide)) _

theorem Jumps.plain (h : plan.Jumps c c') {s : State} (hs : Settled s c)
    : ∃ id t s', c.Finds plan id (.transfer t) ∧ c'.block ∈ t.references ∧
        Plain.transfer t (.ofConfig s c) = .ok .next (.ofConfig s' c') ∧ Settled s' c' ∧
        c'.index = 0 := by
  cases h with
  | @jump id target hfinds =>
    exact ⟨id, _, s.resumeAt target, hfinds, by simp [Transfer.references, Config.enter], rfl,
      .resumeAt hs.stacked hs.pending, rfl⟩
  | @handOver id operand target value hfinds hread =>
    refine ⟨id, _, (s.setPending value).resumeAt target, hfinds,
      by simp [Transfer.references, Config.enterWith, Config.enter], ?_,
      @Settled.resumeAt { c with pending := value } _ _ _ _ (hs.stacked.setPending value)
        (pending_setPending hs.stacked value), rfl⟩
    simp only [Plain.transfer]
    rw [bind_of_ok (Plain.read_ofConfig hs.pending hread)]
    rfl
  | @branch id operand yes no value hfinds hread =>
    refine ⟨id, _, s.resumeAt (if value.isTruthy then yes else no), hfinds, ?_, ?_,
      .resumeAt hs.stacked hs.pending, rfl⟩
    . by_cases hvalue : value.isTruthy = true <;>
        simp [hvalue, Transfer.references, Config.enter]
    . simp only [Plain.transfer]
      rw [bind_of_ok (Plain.read_ofConfig hs.pending hread)]
      rfl
  | @case id operand tests clauses fallback target value hfinds hread htarget =>
    refine ⟨id, _, s.resumeAt target, hfinds, ?_, ?_, .resumeAt hs.stacked hs.pending, rfl⟩
    . simp only [Transfer.references, List.mem_append, Option.mem_toList, Config.enter]
      rcases Option.or_eq_some_iff.1 htarget with hfound | ⟨_, hfallback⟩
      . exact .inl (Plain.mem_of_findClause hfound)
      . exact .inr hfallback
    . simp only [Plain.transfer]
      rw [bind_of_ok (Plain.read_ofConfig hs.pending hread)]
      simp only [htarget]
      rfl

end Plan

def Handler.onlyYield : Table String Handler :=
  .ofList [("yield", Handler.yield)]

structure Config.Begun (machines : Machines) (layout : Layout) (plan : Plan) (p : Process)
    (c : Config) : Prop where
  settled : Plan.Settled p.state c
  small : c.block < State.blockLimit
  begun : ∃ values, layout.Agrees values p.state ∧ ∀ run,
    Plain.effects (Run.call machines run) ((plan.code c.block).take c.index) ⟨p, values⟩
      = .ok () (.ofConfig p.state c)
  effects : ∀ ins ∈ (plan.code c.block).take c.index, ∃ e, ins.command = .effect e

namespace Config.Begun

variable {machines : Machines} {layout : Layout} {plan : Plan} {p : Process} {c c' : Config}

theorem atStart {s : State} {store : Store} (hsettled : Plan.Settled s c)
    (hsmall : c.block < State.blockLimit) (hindex : c.index = 0)
    (hagrees : layout.Agrees c.values s) (hstore : store = c.world.store)
    : c.Begun machines layout plan ⟨s, store⟩ where
  settled := hsettled
  small := hsmall
  begun := by
    subst hstore
    rw [hindex]
    exact ⟨c.values, hagrees, fun _ => rfl⟩
  effects := by simp [hindex]

theorem does (h : c.Begun machines layout plan p) (hdoes : plan.Does machines.functions c c')
    : c'.Begun machines layout plan p := by
  obtain ⟨hblock, hindex, hpending, id, e, ⟨span, hspan⟩, heffect⟩ := hdoes.plain
  have htake : (plan.code c'.block).take c'.index
      = (plan.code c.block).take c.index ++ [⟨id, .effect e, span⟩] := by
    rw [hblock, hindex, List.take_add_one, hspan]
    rfl
  refine ⟨⟨hblock ▸ h.settled.block, h.settled.stacked, hpending ▸ h.settled.pending⟩,
    hblock ▸ h.small, ?_, ?_⟩
  . obtain ⟨values, hagrees, hbegun⟩ := h.begun
    refine ⟨values, hagrees, fun run => ?_⟩
    rw [htake, Plain.effects_append, bind_of_ok (hbegun run)]
    simp only [Plain.effects]
    rw [bind_of_ok (heffect run _ h.settled.pending)]
    rfl
  . rw [htake, List.forall_mem_append]
    exact ⟨h.effects, by simp⟩

theorem status (h : c.Begun machines layout plan p) : p.state.status? = some (.running c.block) :=
  State.status?_of_block h.settled.block h.small

theorem code (h : c.Begun machines layout plan p) {id : ValueId} {command : Command}
    (hfinds : c.Finds plan id command)
    : ∃ values ins rest, layout.Agrees values p.state ∧ ins.id = id ∧ ins.command = command ∧
        ∀ run, Plain.code (Run.call machines run) (plan.code c.block) ⟨p, values⟩
          = Plain.code (Run.call machines run) (ins :: rest) (.ofConfig p.state c) := by
  obtain ⟨span, hspan⟩ := hfinds
  obtain ⟨values, hagrees, hbegun⟩ := h.begun
  refine ⟨values, ⟨id, command, span⟩, (plan.code c.block).drop (c.index + 1), hagrees, rfl, rfl,
    ?_⟩
  have hsplit : (plan.code c.block).take c.index ++
      ⟨id, command, span⟩ :: (plan.code c.block).drop (c.index + 1) = plan.code c.block := by
    obtain ⟨hlt, hins⟩ := List.getElem?_eq_some_iff.1 hspan
    rw [← hins, ← List.drop_eq_getElem_cons hlt, List.take_append_drop]
  intro run
  calc
    _ = Plain.code (Run.call machines run) ((plan.code c.block).take c.index ++
          ⟨id, command, span⟩ :: (plan.code c.block).drop (c.index + 1)) ⟨p, values⟩ := by
      rw [hsplit]
    _ = _ := by rw [Plain.code_append _ h.effects, bind_of_ok (hbegun run)]

end Config.Begun

namespace Graph.Coded

variable {options : CompileOptions} {source : Form} {graph : Graph} {plan : Plan}
  {name : String} {program : Program} {machines : Machines} {p : Process} {c c' : Config}

theorem sim_begun (h : graph.Coded options source plan)
    (hprogram : Program.ofGraph graph Handler.onlyYield name = .ok program)
    (hbegun : c.Begun machines graph.layout plan p) {id : ValueId} {command : Command}
    (hfinds : c.Finds plan id command)
    : ∃ code ins rest, program.blocks.get? c.block = some code ∧ ins.id = id ∧
        ins.command = command ∧ ∀ run,
          Sim graph.layout (Linked.Leaves graph.layout Handler.onlyYield)
            (Exec.block (Run.call machines run) code { toProcess := p })
            (Plain.code (Run.call machines run) (ins :: rest) (.ofConfig p.state c)) := by
  obtain ⟨values, ins, rest, hagrees, hid, hcommand, hcode⟩ := hbegun.code hfinds
  rcases h.get?_program hprogram c.block with ⟨hnone, _⟩ | ⟨code, hsome, hemit⟩
  . obtain ⟨span, hspan⟩ := hfinds
    simp [hnone] at hspan
  . refine ⟨code, ins, rest, hsome, hid, hcommand, fun run => ?_⟩
    rw [← hcode run]
    exact h.sim_block hemit (Run.call machines run) hagrees

theorem turn_jumps (h : graph.Coded options source plan) (hsmall : graph.IsSmall)
    (hprogram : Program.ofGraph graph Handler.onlyYield name = .ok program)
    (hbegun : c.Begun machines graph.layout plan p) (hjumps : plan.Jumps c c') (run : Run.Runner)
    : ∃ p', Run.turn machines run program c.block p = .again p' ∧
        c'.Begun machines graph.layout plan p' := by
  obtain ⟨id, t, s', hfinds, htarget, htransfer, hsettled, hindex⟩ := hjumps.plain hbegun.settled
  obtain ⟨code, ins, rest, hcode, hid, hcommand, hsim⟩ := h.sim_begun hprogram hbegun hfinds
  have hrun := hsim run
  simp only [Plain.code, hcommand] at hrun
  rw [htransfer] at hrun
  generalize hexec : Exec.block (Run.call machines run) code { toProcess := p } = r at hrun
  cases hrun with
  | @ok flow _ f _ hleaves =>
    obtain ⟨hflow, hlinked⟩ := hleaves
    cases hflow
    refine ⟨f.toProcess, by simp only [Run.turn, hcode, hexec], .atStart ?_ ?_ hindex
      hlinked.agrees hlinked.store⟩
    . exact ⟨(hlinked.header.slot (by decide)).trans hsettled.block,
        hsettled.stacked.alike hlinked.header,
        (hlinked.header.slot (by decide)).trans hsettled.pending⟩
    . obtain ⟨span, hspan⟩ := hfinds
      exact h.small_references hsmall hspan _ htarget

theorem turn_yields (h : graph.Coded options source plan) (hsmall : graph.IsSmall)
    (hprogram : Program.ofGraph graph Handler.onlyYield name = .ok program)
    (hbegun : c.Begun machines graph.layout plan p) (hyields : plan.Yields c c') (run : Run.Runner)
    : ∃ q input, Run.turn machines run program c.block p = .ended (.ok .suspended q) ∧
        c.world.inputs = input :: c'.world.inputs ∧
        c'.world.outputs = c.world.outputs ++ [q.state.pending] ∧
        c'.Begun machines graph.layout plan ⟨q.state.setPending input, q.store⟩ := by
  cases hyields with
  | @yield id resume args values rest input hfinds hargs hinputs =>
    obtain ⟨code, ins, rest', hcode, hid, hcommand, hsim⟩ := h.sim_begun hprogram hbegun hfinds
    have hrun := hsim run
    simp only [Plain.code, hcommand, Plain.transfer] at hrun
    rw [bind_of_ok (Plain.readAll_ofConfig hbegun.settled.pending hargs)] at hrun
    generalize hexec : Exec.block (Run.call machines run) code { toProcess := p } = r at hrun
    cases hrun with
    | @ok flow _ f _ hleaves =>
      obtain ⟨hflow, hlinked⟩ := hleaves
      cases hflow
      have hstacked : f.state.Stacked [] := hbegun.settled.stacked.alike hlinked.header
      have hresume : resume < State.blockLimit := by
        obtain ⟨span, hspan⟩ := hfinds
        refine h.small_references hsmall hspan resume ?_
        simp [Instruction.references, Transfer.references]
      have hgiven := Plan.pending_setPending hstacked (values.headD .nil)
      have hagrees : graph.layout.Agrees c.values (f.state.setPending (values.headD .nil)) :=
        hlinked.agrees.onHeader graph.layout_apart (.setPending _)
      have hresumed : graph.layout.Agrees c.values
          ((f.state.setPending (values.headD .nil)).resumeAt resume) :=
        hagrees.onHeader graph.layout_apart (.resumeAt resume)
      have hsettled : Plan.Settled ((f.state.setPending (values.headD .nil)).resumeAt resume)
          ⟨resume, 0, c.values, values.headD .nil, c.world⟩ :=
        @Plan.Settled.resumeAt { c with pending := values.headD .nil } _ _ _ _
          (hstacked.setPending _) hgiven
      refine ⟨⟨(f.state.setPending (values.headD .nil)).resumeAt resume, f.store⟩, input,
        by simp only [Run.turn, hcode, hexec]; rfl, hinputs, ?_, ?_⟩
      . exact congrArg (c.world.outputs ++ [·]) hsettled.pending.symm
      . refine .atStart (hsettled.setPending input) ?_ rfl ?_ hlinked.store
        . exact hresume
        . simpa only [Config.exchange] using
            hresumed.onHeader graph.layout_apart (State.OnHeader.setPending input)

theorem turn_ends (h : graph.Coded options source plan)
    (hprogram : Program.ofGraph graph Handler.onlyYield name = .ok program)
    (hbegun : c.Begun machines graph.layout plan p) {report : Report}
    (hends : plan.Ends machines.functions c report) (run : Run.Runner)
    : ∃ outcome, Run.turn machines run program c.block p = .ended outcome ∧
        Reports c.world outcome report := by
  have hpending := hbegun.settled.pending
  -- A fault finds no handler.
  have hfault : ∀ {f : Frame} {q : Plain} (thrown : Value),
      Linked graph.layout [] (fun _ => False) f q → q.state = p.state →
        Run.route thrown f.toProcess
          = .ended (.error (.thrown thrown) ⟨f.state.setException thrown, q.store⟩) := by
    intro f q thrown hlinked hstate
    have hstacked := (hstate ▸ hbegun.settled.stacked).alike hlinked.header
    simp only [Run.route, (hstacked.setException thrown).handlers, hlinked.store]
  cases hends with
  | @done id operand value hfinds hread =>
    obtain ⟨code, ins, rest, hcode, hid, hcommand, hsim⟩ := h.sim_begun hprogram hbegun hfinds
    have hrun := hsim run
    simp only [Plain.code, hcommand, Plain.transfer] at hrun
    rw [bind_of_ok (Plain.read_ofConfig hpending hread)] at hrun
    generalize hexec : Exec.block (Run.call machines run) code { toProcess := p } = r at hrun
    cases hrun with
    | @ok flow _ f _ hleaves =>
      obtain ⟨hflow, hlinked⟩ := hleaves
      cases hflow
      exact ⟨_, by simp only [Run.turn, hcode, hexec], .done hlinked.store⟩
  | @waiting id resume args values hfinds hargs hinputs =>
    obtain ⟨code, ins, rest, hcode, hid, hcommand, hsim⟩ := h.sim_begun hprogram hbegun hfinds
    have hrun := hsim run
    simp only [Plain.code, hcommand, Plain.transfer] at hrun
    rw [bind_of_ok (Plain.readAll_ofConfig hpending hargs)] at hrun
    generalize hexec : Exec.block (Run.call machines run) code { toProcess := p } = r at hrun
    cases hrun with
    | @ok flow _ f _ hleaves =>
      obtain ⟨hflow, hlinked⟩ := hleaves
      cases hflow
      have hstacked : f.state.Stacked [] := hbegun.settled.stacked.alike hlinked.header
      have hgiven : ((f.state.setPending (values.headD .nil)).resumeAt resume).pending
          = values.headD .nil :=
        (State.slot_setSlot_ne _ (by decide) _).trans (Plan.pending_setPending hstacked _)
      rw [← hgiven]
      exact ⟨_, by simp only [Run.turn, hcode, hexec]; rfl,
        @Reports.waiting _ ⟨_, f.store⟩ hlinked.store hinputs⟩
  | @case id operand tests clauses fallback value hfinds hread hnone =>
    obtain ⟨code, ins, rest, hcode, hid, hcommand, hsim⟩ := h.sim_begun hprogram hbegun hfinds
    have hrun := hsim run
    simp only [Plain.code, hcommand, Plain.transfer] at hrun
    rw [bind_of_ok (Plain.read_ofConfig hpending hread)] at hrun
    simp only [hnone] at hrun
    generalize hexec : Exec.block (Run.call machines run) code { toProcess := p } = r at hrun
    cases hrun with
    | @error _ f _ hlinked =>
      refine ⟨_, by simp only [Run.turn, hcode, hexec]; exact hfault _ hlinked rfl, ?_⟩
      exact .fault
  | @call id callee args f thrown values store hfinds hcallee hargs hnative hcall =>
    obtain ⟨code, ins, rest, hcode, hid, hcommand, hsim⟩ := h.sim_begun hprogram hbegun hfinds
    have hrun := hsim run
    have hstop : Plain.effect (Run.call machines run) ins.id (.call callee args)
        (.ofConfig p.state c) = .error (.thrown thrown) ⟨⟨p.state, store⟩, c.values⟩ := by
      simp only [Plain.effect]
      rw [bind_of_ok (Plain.read_ofConfig hpending hcallee),
        bind_of_ok (Plain.readAll_ofConfig hpending hargs), Run.call_eq machines run hnative]
      simp only [Plain.onStore, Plain.ofConfig, Bind.bind, EStateM.bind, hcall]
    simp only [Plain.code, hcommand] at hrun
    rw [bind_of_error hstop] at hrun
    generalize hexec : Exec.block (Run.call machines run) code { toProcess := p } = r at hrun
    cases hrun with
    | @error _ f _ hlinked =>
      refine ⟨_, by simp only [Run.turn, hcode, hexec]; exact hfault _ hlinked rfl, ?_⟩
      exact .fault

theorem drive_moves (h : graph.Coded options source plan) (hsmall : graph.IsSmall)
    (hprogram : Program.ofGraph graph Handler.onlyYield name = .ok program) {m fuel : Nat}
    (hmoves : plan.Moves machines.functions c m c') {first : Nat} (hfirst : first ≤ fuel)
    (hbegun : c.Begun machines graph.layout plan p)
    : (program.drive machines fuel first c.world.inputs c.world.outputs p = none ∧ first ≤ m) ∨
        ∃ p' first', c'.Begun machines graph.layout plan p' ∧ first' ≤ fuel ∧ first ≤ first' + m ∧
          c'.world.inputs.length ≤ c.world.inputs.length ∧
          first' + m ≤ first + fuel * (c.world.inputs.length - c'.world.inputs.length) ∧
          program.drive machines fuel first c.world.inputs c.world.outputs p
            = program.drive machines fuel first' c'.world.inputs c'.world.outputs p' := by
  induction hmoves generalizing first p with
  | refl => exact .inr ⟨p, first, hbegun, hfirst, by lia, by lia, by lia, rfl⟩
  | does hdoes _ ih =>
    obtain ⟨hinputs, houtputs⟩ := hdoes.world
    have hrest := ih hfirst (hbegun.does hdoes)
    rwa [hinputs, houtputs] at hrest
  | @jumps c c₁ c' m hjumps _ ih =>
    obtain ⟨hinputs, houtputs⟩ := hjumps.world
    cases first with
    | zero => exact .inl ⟨Program.drive_zero, Nat.zero_le _⟩
    | succ first =>
      obtain ⟨p₁, hturn, hbegun₁⟩ := h.turn_jumps hsmall hprogram hbegun hjumps
        (Program.run machines first)
      rw [Program.drive_congr (Program.run_again hbegun.status hturn), ← hinputs, ← houtputs]
      rcases ih (Nat.le_of_succ_le hfirst) hbegun₁ with ⟨hnone, hle⟩ |
        ⟨p', first', hbegun', hfirst', hle, hless, hcount, hdrive⟩
      . exact .inl ⟨hnone, Nat.succ_le_succ hle⟩
      . exact .inr ⟨p', first', hbegun', hfirst', by lia, hless, by lia, hdrive⟩
  | @yields c c₁ c' m hyields _ ih =>
    cases first with
    | zero => exact .inl ⟨Program.drive_zero, Nat.zero_le _⟩
    | succ first =>
      obtain ⟨q, input, hturn, hinputs, houtputs, hbegun₁⟩ := h.turn_yields hsmall hprogram hbegun
        hyields (Program.run machines first)
      rw [hinputs, Program.drive_resume (Program.run_ended hbegun.status hturn), ← houtputs]
      rcases ih (Nat.le_refl _) hbegun₁ with ⟨hnone, hle⟩ |
        ⟨p', first', hbegun', hfirst', hle, hless, hcount, hdrive⟩
      . exact .inl ⟨hnone, by lia⟩
      . refine .inr ⟨p', first', hbegun', hfirst', by lia, ?_, ?_, hdrive⟩
        . rw [List.length_cons]
          lia
        . rw [List.length_cons, Nat.succ_sub hless, Nat.mul_succ]
          lia

theorem drive_ends (h : graph.Coded options source plan) (hsmall : graph.IsSmall)
    (hprogram : Program.ofGraph graph Handler.onlyYield name = .ok program) {m : Nat}
    (hmoves : plan.Moves machines.functions c m c') {report : Report}
    (hends : plan.Ends machines.functions c' report)
    (hbegun : c.Begun machines graph.layout plan p) (fuel : Nat)
    : (program.drive machines fuel fuel c.world.inputs c.world.outputs p = none ∧ fuel ≤ m) ∨
        program.drive machines fuel fuel c.world.inputs c.world.outputs p = some report := by
  rcases h.drive_moves hsmall hprogram hmoves (Nat.le_refl fuel) hbegun with hnone |
    ⟨p', first, hbegun', _, hle, _, _, hdrive⟩
  . exact .inl hnone
  . cases first with
    | zero => exact .inl ⟨hdrive.trans Program.drive_zero, by lia⟩
    | succ first =>
      obtain ⟨outcome, hturn, hreports⟩ := h.turn_ends hprogram hbegun' hends
        (Program.run machines first)
      exact .inr (hdrive.trans
        (Program.drive_reports (Program.run_ended hbegun'.status hturn) hreports))

theorem drive_endless (h : graph.Coded options source plan) (hsmall : graph.IsSmall)
    (hprogram : Program.ofGraph graph Handler.onlyYield name = .ok program)
    (hlong : ∀ n, plan.Long machines.functions c n) (hbegun : c.Begun machines graph.layout plan p)
    (fuel : Nat)
    : program.drive machines fuel fuel c.world.inputs c.world.outputs p = none := by
  obtain ⟨c', m, hle, hmoves⟩ := hlong (fuel + fuel * c.world.inputs.length + 1)
  rcases h.drive_moves hsmall hprogram hmoves (Nat.le_refl fuel) hbegun with ⟨hnone, _⟩ |
    ⟨p', first, _, _, _, _, hcount, _⟩
  . exact hnone
  . have hused : fuel * (c.world.inputs.length - c'.world.inputs.length)
        ≤ fuel * c.world.inputs.length :=
      Nat.mul_le_mul_left _ (Nat.sub_le _ _)
    lia

end Graph.Coded

end Resumable
