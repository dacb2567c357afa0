import Resumable.Proofs.Handlers.Run
import Resumable.Proofs.Lowering.Rerouted
import Resumable.Proofs.Running.Fuel
import Resumable.Proofs.Running.Twins

/-!
This module contains the proof that suspending a machine and resuming it at once is the same as
going on inline: a machine whose call sites give their first argument out, driven to its end without
a change to its state, ends like the machine whose call sites go on with that argument by
themselves.
-/

namespace Resumable

def Exit.answeredBy (handler : Handler) : Exit → Exit
  | .suspend _ resume args => .suspend handler resume args
  | e => e

def BlockProgram.answeredBy (handler : Handler) (code : BlockProgram) : BlockProgram :=
  { code with exit := code.exit.answeredBy handler }

def Program.answeredBy (handler : Handler) (program : Program) : Program :=
  { program with blocks := program.blocks.map (·.answeredBy handler) }

def Program.IgnoresSelf (program : Program) : Prop :=
  ∀ block code, program.blocks.get? block = some code → code.IgnoresSelf

def Flow.answeredBy (handler : Handler) : Flow → Flow
  | .suspend _ resume args => .suspend handler resume args
  | flow => flow

def Run.request? (machines : Machines) (run : Run.Runner) (program : Program) (block : BlockId)
    (p : Process) : Option (List Value) :=
  match program.blocks.get? block with
  | none => none
  | some code =>
    match Exec.block (Run.call machines run) code { toProcess := p } with
    | .ok (.suspend _ _ args) _ => some args
    | _ => none

def Program.requests (machines : Machines) : Nat → Program → Process → List (List Value)
  | 0, _, _ => []
  | fuel + 1, program, p =>
    match p.state.status? with
    | some (.running block) =>
      (Run.request? machines (Program.run machines fuel) program block p).toList ++
        match Run.turn machines (Program.run machines fuel) program block p with
        | .again p => Program.requests machines fuel program p
        | .ended _ => []
    | _ => []

def Program.exhaust (machines : Machines) (program : Program) (fuel : Nat) :
    Nat → Process → Option (List Value × Outcome)
  | 0, _ => none
  | steps + 1, p =>
    match Program.run machines fuel program p with
    | .ok (.done value) q => some ([], .ok (.done value) q)
    | .ok .suspended q =>
      (Program.exhaust machines program fuel steps q).map fun report =>
        (q.state.pending :: report.1, report.2)
    | .error (.thrown value) q => some ([], .error (.thrown value) q)
    | .error .outOfFuel _ => none

def Program.outputs (machines : Machines) (program : Program) (fuel : Nat) :
    Nat → Process → List Value
  | 0, _ => []
  | steps + 1, p =>
    match Program.run machines fuel program p with
    | .ok .suspended q => q.state.pending :: Program.outputs machines program fuel steps q
    | _ => []

inductive Outcome.Twins : Outcome → Outcome → Prop where
  | done {value : Value} {p q : Process} :
    p.Twins q → Outcome.Twins (.ok (.done value) p) (.ok (.done value) q)
  | error {stop : Stop} {p q : Process} :
    p.Twins q → Outcome.Twins (.error stop p) (.error stop q)

structure Program.Inlines (machines : Machines) (driven inline : Program) (p q : Process) :
    Prop where
  ends : (∃ fuel steps report, driven.exhaust machines fuel steps p = some report) ↔
    ∃ fuel, inline.Ends machines fuel q
  same : ∀ {fuel steps fuel' : Nat} {outputs : List Value} {outcome : Outcome},
    driven.exhaust machines fuel steps p = some (outputs, outcome) →
    inline.Ends machines fuel' q →
      outcome.Twins (Program.run machines fuel' inline q) ∧
        outputs = (inline.requests machines fuel' q).map (·.headD .nil)
  outputs : ∀ fuel steps, ∃ fuel', driven.outputs machines fuel steps p <+:
    (inline.requests machines fuel' q).map (·.headD .nil)
  requests : ∀ fuel', ∃ fuel steps, (inline.requests machines fuel' q).map (·.headD .nil) <+:
    driven.outputs machines fuel steps p

namespace Exec

variable {call : Caller} (handler : Handler)

theorem exit_answeredBy (e : Exit)
    : exit (e.answeredBy handler) = (do
        let flow ← exit e
        return flow.answeredBy handler) := by
  cases e with
  | jump value target => cases value <;> simp [exit, Exit.answeredBy, Flow.answeredBy]
  | finish value | branch test yes no | suspend other resume args =>
    simp [exit, Exit.answeredBy, Flow.answeredBy]
  | case value tests clauses fallback =>
    simp only [exit, Exit.answeredBy, bind_assoc]
    congr
    funext value
    split
    . simp [Flow.answeredBy]
    . simp only [bind_assoc]
      rfl
  | dispatch clauses =>
    simp only [exit, Exit.answeredBy, bind_assoc]
    congr
    funext frame
    congr
    funext heap
    split
    . simp [Flow.answeredBy]
    . rfl

theorem block_answeredBy (code : BlockProgram)
    : block call (code.answeredBy handler) = (do
        let flow ← block call code
        return flow.answeredBy handler) := by
  simp only [block, BlockProgram.answeredBy, exit_answeredBy, bind_assoc]

end Exec

theorem Program.get?_answeredBy (handler : Handler) (program : Program) (block : BlockId)
    : (program.answeredBy handler).blocks.get? block
        = (program.blocks.get? block).map (·.answeredBy handler) :=
  Table.get?_map _ _ _

namespace Run

inductive Turn.Inlined : Option (List Value) → Turn → Turn → Prop where
  | again {p q : Process} : p.Twins q → Turn.Inlined none (.again p) (.again q)
  | ended {outcome outcome' : Outcome} :
    outcome.Twins outcome' → Turn.Inlined none (.ended outcome) (.ended outcome')
  | request {args : List Value} {p q : Process} :
    p.Twins q → p.state.pending = args.headD .nil →
      Turn.Inlined (some args) (.ended (.ok .suspended p)) (.again q)

variable {machines : Machines} {run more : Runner} {program : Program} {block : BlockId}
  {p q : Process}

theorem inlined_route (h : p.Twins q) (thrown : Value)
    : Turn.Inlined none (route thrown p) (route thrown q) := by
  have hstate := h.state.setSlot 5 thrown
  unfold route State.setException
  simp only [hstate.handlers]
  split
  . exact .again ⟨hstate.setSlot 1 _, h.store⟩
  . exact .ended (.error ⟨hstate, h.store⟩)

theorem inlined_turn (machines : Machines) (run : Runner) (block : BlockId)
    (hself : program.IgnoresSelf) (h : p.Twins q)
    : Turn.Inlined (request? machines run (program.answeredBy .identity) block q)
        (turn machines run (program.answeredBy .yield) block p)
        (turn machines run (program.answeredBy .identity) block q) := by
  unfold turn request?
  simp only [Program.get?_answeredBy]
  cases hcode : program.blocks.get? block with
  | none => exact inlined_route h _
  | some code =>
    have hmirror := Exec.mirrors_block (call machines run) (hself block code hcode)
    have hframe : Frame.Twins { toProcess := p } { toProcess := q } := ⟨h, rfl⟩
    simp only [Option.map_some, Exec.block_answeredBy]
    cases hblock : Exec.block (call machines run) code { toProcess := p } with
    | error stop f =>
      obtain ⟨g, hblock', hfg⟩ := hmirror.error hframe hblock
      rw [bind_of_error hblock, bind_of_error hblock']
      cases stop with
      | thrown value => exact inlined_route hfg.process value
      | outOfFuel => exact .ended (.error hfg.process)
    | ok flow f =>
      obtain ⟨g, hblock', hfg⟩ := hmirror.ok hframe hblock
      rw [bind_of_ok hblock, bind_of_ok hblock']
      cases flow with
      | next => exact .again hfg.process
      | done value => exact .ended (.done hfg.process)
      | suspend handler resume args =>
        have hstate := hfg.process.state
        have hroom : 2 < f.state.slots.size := Nat.lt_of_lt_of_le (by decide) hstate.room
        refine .request ⟨(hstate.setSlot 2 _).setSlot 1 _, hfg.process.store⟩ ?_
        exact (State.slot_setSlot_ne _ (by decide) _).trans (State.slot_setSlot hroom _)

theorem turn_eq (happrox : run.Approximates more)
    (hends : ∀ r, turn machines run program block p ≠ .ended (.error .outOfFuel r))
    : turn machines more program block p = turn machines run program block p ∧
        request? machines more program block p = request? machines run program block p := by
  constructor
  . rcases approximates_turn happrox machines program block p with ⟨r, hout⟩ | heq
    . exact absurd hout (hends r)
    . exact heq.symm
  . unfold turn at hends
    unfold request?
    cases hcode : program.blocks.get? block with
    | none => rfl
    | some code =>
      rcases Exec.approximates_block (approximates_call happrox machines) code { toProcess := p }
        with ⟨f, hout⟩ | heq
      . simp only [hcode, hout] at hends
        exact absurd rfl (hends f.toProcess)
      . simp only [heq]

theorem request?_isPrefix (happrox : run.Approximates more)
    : (request? machines run program block p).toList <+:
        (request? machines more program block p).toList := by
  unfold request?
  cases program.blocks.get? block with
  | none => exact List.nil_prefix
  | some code =>
    rcases Exec.approximates_block (approximates_call happrox machines) code { toProcess := p }
      with ⟨f, hout⟩ | heq
    . simp only [hout]
      exact List.nil_prefix
    . simp only [heq]
      exact List.prefix_refl _

end Run

namespace Program

variable {machines : Machines} {program : Program} {fuel more n steps : Nat} {p q : Process}
  {b : BlockId} {outputs : List Value} {outcome : Outcome} {report : List Value × Outcome}

theorem ends_turn (hstatus : p.state.status? = some (.running b))
    (hends : program.Ends machines (fuel + 1) p)
    : ∀ r, Run.turn machines (Program.run machines fuel) program b p
        ≠ .ended (.error .outOfFuel r) := by
  intro r hturn
  exact hends r (run_ended hstatus hturn)

theorem requests_running (hstatus : p.state.status? = some (.running b))
    : program.requests machines (fuel + 1) p
        = (Run.request? machines (Program.run machines fuel) program b p).toList ++
          match Run.turn machines (Program.run machines fuel) program b p with
          | .again p => program.requests machines fuel p
          | .ended _ => [] := by
  rw [requests, hstatus]

theorem run_requests_again (hstatus : p.state.status? = some (.running b))
    (hturn : Run.turn machines (Program.run machines n) program b p = .again q) (m : Nat)
    : Program.run machines (m + (n + 1)) program p = Program.run machines (m + n) program q ∧
        program.requests machines (m + (n + 1)) p
          = (Run.request? machines (Program.run machines n) program b p).toList ++
            program.requests machines (m + n) q := by
  have hends : ∀ r, Run.turn machines (Program.run machines n) program b p
      ≠ .ended (.error .outOfFuel r) := by
    intro r hout
    cases hturn.symm.trans hout
  obtain ⟨hturn', hrequest⟩ := Run.turn_eq (run_mono (Nat.le_add_left n m)) hends
  rw [hturn] at hturn'
  refine ⟨run_again hstatus hturn', ?_⟩
  rw [← Nat.add_assoc, requests_running hstatus, hturn', hrequest]

theorem requests_eq_of_le (hle : fuel ≤ more) (hends : program.Ends machines fuel p)
    : program.requests machines more p = program.requests machines fuel p := by
  induction fuel generalizing more p with
  | zero => exact absurd rfl (hends p)
  | succ fuel ih =>
    obtain ⟨more, rfl⟩ : ∃ n, more = n + 1 := ⟨more - 1, by omega⟩
    have hle : fuel ≤ more := by omega
    cases hstatus : p.state.status? with
    | none => simp only [requests, hstatus]
    | some status =>
      cases status with
      | finished => simp only [requests, hstatus]
      | running b =>
        obtain ⟨hturn, hrequest⟩ := Run.turn_eq (run_mono hle) (ends_turn hstatus hends)
        rw [requests_running hstatus, requests_running hstatus, hturn, hrequest]
        split
        . next p' hagain =>
          rw [ih hle]
          intro r hout
          exact hends r ((run_again hstatus hagain).trans hout)
        . rfl

theorem requests_isPrefix_of_le (hle : fuel ≤ more)
    : program.requests machines fuel p <+: program.requests machines more p := by
  induction fuel generalizing more p with
  | zero => exact List.nil_prefix
  | succ fuel ih =>
    obtain ⟨more, rfl⟩ : ∃ n, more = n + 1 := ⟨more - 1, by omega⟩
    have hle : fuel ≤ more := by omega
    cases hstatus : p.state.status? with
    | none => simp only [requests, hstatus, List.prefix_refl]
    | some status =>
      cases status with
      | finished => simp only [requests, hstatus, List.prefix_refl]
      | running b =>
        rw [requests_running hstatus, requests_running hstatus]
        cases hturn : Run.turn machines (Program.run machines fuel) program b p with
        | again q =>
          have hends : ∀ r, Run.turn machines (Program.run machines fuel) program b p
              ≠ .ended (.error .outOfFuel r) := by simp [hturn]
          obtain ⟨hturn', hrequest⟩ := Run.turn_eq (run_mono hle) hends
          rw [hturn', hrequest, hturn]
          exact (List.prefix_append_right_inj _).2 (ih hle)
        | ended outcome =>
          rw [List.append_nil]
          exact (Run.request?_isPrefix (run_mono hle)).trans (List.prefix_append _ _)

theorem outputs_isPrefix_of_le (hle : fuel ≤ more)
    : program.outputs machines fuel steps p <+: program.outputs machines more steps p := by
  induction steps generalizing p with
  | zero => exact List.nil_prefix
  | succ steps ih =>
    rw [outputs, outputs]
    split
    . next q hrun =>
      rw [run_eq_of_le hle (by simp [Ends, hrun]), hrun]
      exact List.cons_prefix_cons.2 ⟨rfl, ih⟩
    . exact List.nil_prefix

theorem outputs_suspended (hrun : Program.run machines fuel program p = .ok .suspended q)
    : program.outputs machines fuel (steps + 1) p
        = q.state.pending :: program.outputs machines fuel steps q := by
  rw [outputs, hrun]

theorem outputs_again (hstatus : p.state.status? = some (.running b))
    (hturn : Run.turn machines (Program.run machines fuel) program b p = .again q)
    : program.outputs machines fuel steps q <+: program.outputs machines (fuel + 1) steps p := by
  cases steps with
  | zero => exact List.nil_prefix
  | succ steps =>
    rw [outputs, outputs, run_again hstatus hturn]
    split
    . exact List.cons_prefix_cons.2 ⟨rfl, outputs_isPrefix_of_le (Nat.le_succ fuel)⟩
    . exact List.nil_prefix

theorem exhaust_ends (h : program.exhaust machines fuel steps p = some report)
    : program.Ends machines fuel p := by
  intro r hout
  cases steps with
  | zero => cases h
  | succ steps =>
    simp only [exhaust, hout] at h
    cases h

theorem exhaust_eq_of_le (hle : fuel ≤ more)
    (h : program.exhaust machines fuel steps p = some report)
    : program.exhaust machines more steps p = some report := by
  induction steps generalizing p report with
  | zero => cases h
  | succ steps ih =>
    rw [exhaust, run_eq_of_le hle (exhaust_ends h)]
    rw [exhaust] at h
    split at h
    . exact h
    . obtain ⟨rest, hrest, rfl⟩ := Option.map_eq_some_iff.1 h
      rw [ih hrest]
      rfl
    . exact h
    . cases h

theorem exhaust_again (hstatus : p.state.status? = some (.running b))
    (hturn : Run.turn machines (Program.run machines fuel) program b p = .again q)
    (h : program.exhaust machines fuel steps q = some report)
    : program.exhaust machines (fuel + 1) steps p = some report := by
  cases steps with
  | zero => cases h
  | succ steps =>
    rw [exhaust] at h ⊢
    rw [run_again hstatus hturn]
    split at h
    . exact h
    . obtain ⟨rest, hrest, rfl⟩ := Option.map_eq_some_iff.1 h
      rw [exhaust_eq_of_le (Nat.le_succ fuel) hrest]
      rfl
    . exact h
    . cases h

theorem exhaust_done {value : Value}
    (hrun : Program.run machines fuel program p = .ok (.done value) q)
    : program.exhaust machines fuel 1 p = some ([], .ok (.done value) q) := by
  rw [exhaust, hrun]

theorem exhaust_fault {value : Value}
    (hrun : Program.run machines fuel program p = .error (.thrown value) q)
    : program.exhaust machines fuel 1 p = some ([], .error (.thrown value) q) := by
  rw [exhaust, hrun]

theorem exhaust_suspended (hrun : Program.run machines fuel program p = .ok .suspended q)
    (h : program.exhaust machines fuel steps q = some (outputs, outcome))
    : program.exhaust machines fuel (steps + 1) p = some (q.state.pending :: outputs, outcome) := by
  rw [exhaust, hrun]
  simp only [h]
  rfl

theorem inlined_run (hself : program.IgnoresSelf) (h : p.Twins q)
    (hends : (program.answeredBy .yield).Ends machines n p)
    : (∃ p' q' k args,
        Program.run machines n (program.answeredBy .yield) p = .ok .suspended p' ∧
        p'.Twins q' ∧ p'.state.pending = args.headD .nil ∧ ∀ m,
          Program.run machines (m + n) (program.answeredBy .identity) q
            = Program.run machines (m + k) (program.answeredBy .identity) q' ∧
          (program.answeredBy .identity).requests machines (m + n) q
            = args :: (program.answeredBy .identity).requests machines (m + k) q') ∨
      ((Program.run machines n (program.answeredBy .yield) p).Twins
          (Program.run machines n (program.answeredBy .identity) q) ∧
        (program.answeredBy .identity).requests machines n q = []) := by
  induction n generalizing p q with
  | zero => exact absurd rfl (hends p)
  | succ n ih =>
    cases hstatus : p.state.status? with
    | none =>
      have hstatus' := h.state.status?.trans hstatus
      refine .inr ⟨?_, by simp only [requests, hstatus']⟩
      simp only [Program.run, hstatus, hstatus']
      exact .error h
    | some status =>
      have hstatus' := h.state.status?.trans hstatus
      cases status with
      | finished =>
        refine .inr ⟨?_, by simp only [requests, hstatus']⟩
        simp only [Program.run, hstatus, hstatus', h.state.pending]
        exact .done h
      | running b =>
        have hturns := Run.inlined_turn machines (Program.run machines n) b hself h
        generalize hrequest : Run.request? machines (Program.run machines n)
          (program.answeredBy .identity) b q = request at hturns
        generalize hturn : Run.turn machines (Program.run machines n) (program.answeredBy .yield)
          b p = turn at hturns
        generalize hturn' : Run.turn machines (Program.run machines n)
          (program.answeredBy .identity) b q = turn' at hturns
        cases hturns with
        | again htwins =>
          have hrun := run_again hstatus hturn
          have hrest := run_requests_again hstatus' hturn'
          simp only [hrequest, Option.toList_none, List.nil_append] at hrest
          rw [Ends, hrun] at hends
          rcases ih htwins hends
            with ⟨p', q', k, args, hgives, hpair, hpending, hgoes⟩ | ⟨hsame, hnone⟩
          . refine .inl ⟨p', q', k, args, hrun.trans hgives, hpair, hpending, fun m => ?_⟩
            rw [(hrest m).1, (hrest m).2]
            exact hgoes m
          . have hrest := hrest 0
            simp only [Nat.zero_add] at hrest
            rw [hrun, hrest.1, hrest.2]
            exact .inr ⟨hsame, hnone⟩
        | ended htwins =>
          rw [run_ended hstatus hturn, run_ended hstatus' hturn', requests_running hstatus',
            hrequest, hturn']
          exact .inr ⟨htwins, rfl⟩
        -- One machine suspends here, and the other one goes on in the same run.
        | @request args p' q' htwins hpending =>
          refine .inl ⟨p', q', n, args, run_ended hstatus hturn, htwins, hpending, fun m => ?_⟩
          have hrest := run_requests_again hstatus' hturn' m
          rw [hrequest] at hrest
          exact hrest

theorem inlined_exhaust (hself : program.IgnoresSelf) (h : p.Twins q)
    (hdriven : (program.answeredBy .yield).exhaust machines fuel steps p = some (outputs, outcome))
    : ∃ m, (program.answeredBy .identity).Ends machines m q ∧
        outcome.Twins (Program.run machines m (program.answeredBy .identity) q) ∧
        outputs = ((program.answeredBy .identity).requests machines m q).map (·.headD .nil) := by
  induction steps generalizing p q outputs with
  | zero => cases hdriven
  | succ steps ih =>
    rcases inlined_run hself h (exhaust_ends hdriven)
      with ⟨p', q', k, args, hgives, hpair, hpending, hgoes⟩ | ⟨hsame, hnone⟩
    . rw [exhaust, hgives] at hdriven
      obtain ⟨⟨rest, end'⟩, hrest, heq⟩ := Option.map_eq_some_iff.1 hdriven
      cases heq
      obtain ⟨m, hends, hsame, hrequests⟩ := ih hpair hrest
      have hrun := run_eq_of_le (Nat.le_add_right m k) hends
      obtain ⟨hgoes, hcalls⟩ := hgoes m
      refine ⟨m + fuel, ?_, ?_, ?_⟩
      . rw [Ends, hgoes, hrun]
        exact hends
      . rw [hgoes, hrun]
        exact hsame
      . rw [hcalls, requests_eq_of_le (Nat.le_add_right m k) hends, List.map_cons, ← hrequests,
          hpending]
    . have hended : outputs = [] ∧
          Program.run machines fuel (program.answeredBy .yield) p = outcome ∧
          ∀ r, outcome ≠ .error .outOfFuel r := by
        rw [exhaust] at hdriven
        split at hdriven
        . next hrun =>
          cases hdriven
          exact ⟨rfl, hrun, by simp⟩
        . next hrun =>
          rw [hrun] at hsame
          cases hsame
        . next hrun =>
          cases hdriven
          exact ⟨rfl, hrun, by simp⟩
        . cases hdriven
      obtain ⟨rfl, hrun, hends⟩ := hended
      rw [hrun] at hsame
      refine ⟨fuel, ?_, hsame, by rw [hnone]; rfl⟩
      intro r hout
      rw [hout] at hsame
      cases hsame
      exact hends _ rfl

theorem exhaust_of_ends (hself : program.IgnoresSelf) (h : p.Twins q)
    (hends : (program.answeredBy .identity).Ends machines n q)
    : ∃ fuel steps report,
        (program.answeredBy .yield).exhaust machines fuel steps p = some report := by
  induction n generalizing p q with
  | zero => exact absurd rfl (hends q)
  | succ n ih =>
    cases hstatus : p.state.status? with
    | none => exact ⟨1, 1, _, exhaust_fault (by rw [Program.run, hstatus])⟩
    | some status =>
      cases status with
      | finished => exact ⟨1, 1, _, exhaust_done (by rw [Program.run, hstatus])⟩
      | running b =>
        have hstatus' := h.state.status?.trans hstatus
        have hturns := Run.inlined_turn machines (Program.run machines n) b hself h
        generalize Run.request? machines (Program.run machines n) (program.answeredBy .identity) b q
          = request at hturns
        generalize hturn : Run.turn machines (Program.run machines n) (program.answeredBy .yield)
          b p = turn at hturns
        generalize hturn' : Run.turn machines (Program.run machines n)
          (program.answeredBy .identity) b q = turn' at hturns
        cases hturns with
        | again htwins =>
          rw [Ends, run_again hstatus' hturn'] at hends
          obtain ⟨fuel, steps, report, hrest⟩ := ih htwins hends
          have hlift := (Run.turn_eq (run_mono (Nat.le_max_left n fuel))
            (by simp [hturn])).1.trans hturn
          exact ⟨_, steps, report, exhaust_again hstatus hlift
            (exhaust_eq_of_le (Nat.le_max_right n fuel) hrest)⟩
        | ended htwins =>
          have hrun := run_ended hstatus hturn
          have hrun' := run_ended hstatus' hturn'
          cases htwins with
          | done => exact ⟨n + 1, 1, _, exhaust_done hrun⟩
          | @error stop =>
            cases stop with
            | thrown value => exact ⟨n + 1, 1, _, exhaust_fault hrun⟩
            | outOfFuel => exact absurd hrun' (hends _)
        | @request args p' q' htwins hpending =>
          rw [Ends, run_again hstatus' hturn'] at hends
          obtain ⟨fuel, steps, ⟨outputs, outcome⟩, hrest⟩ := ih htwins hends
          have hrun := run_ended hstatus hturn
          have hlift := (run_eq_of_le (Nat.le_max_left (n + 1) fuel) (by simp [Ends, hrun])).trans
            hrun
          exact ⟨_, steps + 1, _, exhaust_suspended hlift
            (exhaust_eq_of_le (Nat.le_max_right (n + 1) fuel) hrest)⟩

theorem inlined_outputs (hself : program.IgnoresSelf) (h : p.Twins q)
    : ∃ m, (program.answeredBy .yield).outputs machines fuel steps p <+:
        ((program.answeredBy .identity).requests machines m q).map (·.headD .nil) := by
  induction steps generalizing p q with
  | zero => exact ⟨0, List.nil_prefix⟩
  | succ steps ih =>
    rw [outputs]
    split
    . next p₁ hrun =>
      have hends : (program.answeredBy .yield).Ends machines fuel p := by simp [Ends, hrun]
      rcases inlined_run hself h hends
        with ⟨p', q', k, args, hgives, hpair, hpending, hgoes⟩ | ⟨hsame, _⟩
      . rw [hrun] at hgives
        cases hgives
        obtain ⟨m, hrest⟩ := ih hpair
        refine ⟨m + fuel, ?_⟩
        rw [(hgoes m).2, List.map_cons, hpending]
        exact List.cons_prefix_cons.2
          ⟨rfl, hrest.trans ((requests_isPrefix_of_le (Nat.le_add_right m k)).map _)⟩
      . rw [hrun] at hsame
        cases hsame
    . exact ⟨0, List.nil_prefix⟩

theorem inlined_requests (hself : program.IgnoresSelf) (h : p.Twins q)
    : ∃ fuel steps, ((program.answeredBy .identity).requests machines n q).map (·.headD .nil) <+:
        (program.answeredBy .yield).outputs machines fuel steps p := by
  induction n generalizing p q with
  | zero => exact ⟨0, 0, List.nil_prefix⟩
  | succ n ih =>
    cases hstatus : p.state.status? with
    | none =>
      have hstatus' := h.state.status?.trans hstatus
      exact ⟨0, 0, by simp only [requests, hstatus', List.map_nil, List.nil_prefix]⟩
    | some status =>
      have hstatus' := h.state.status?.trans hstatus
      cases status with
      | finished => exact ⟨0, 0, by simp only [requests, hstatus', List.map_nil, List.nil_prefix]⟩
      | running b =>
        have hturns := Run.inlined_turn machines (Program.run machines n) b hself h
        rw [requests_running hstatus']
        generalize hrequest : Run.request? machines (Program.run machines n)
          (program.answeredBy .identity) b q = request at hturns
        generalize hturn : Run.turn machines (Program.run machines n) (program.answeredBy .yield)
          b p = turn at hturns
        generalize hturn' : Run.turn machines (Program.run machines n)
          (program.answeredBy .identity) b q = turn' at hturns
        cases hturns with
        | again htwins =>
          obtain ⟨fuel, steps, hrest⟩ := ih htwins
          have hlift := (Run.turn_eq (run_mono (Nat.le_max_left n fuel))
            (by simp [hturn])).1.trans hturn
          exact ⟨_, steps, (hrest.trans (outputs_isPrefix_of_le (Nat.le_max_right n fuel))).trans
            (outputs_again hstatus hlift)⟩
        | ended htwins => exact ⟨0, 0, List.nil_prefix⟩
        | @request args p' q' htwins hpending =>
          obtain ⟨fuel, steps, hrest⟩ := ih htwins
          have hrun := run_ended hstatus hturn
          have hlift := (run_eq_of_le (Nat.le_max_left (n + 1) fuel) (by simp [Ends, hrun])).trans
            hrun
          refine ⟨max (n + 1) fuel, steps + 1, ?_⟩
          rw [outputs_suspended hlift, hpending]
          exact List.cons_prefix_cons.2
            ⟨rfl, hrest.trans (outputs_isPrefix_of_le (Nat.le_max_right (n + 1) fuel))⟩

theorem inlines (machines : Machines) (hself : program.IgnoresSelf) (h : p.Twins q)
    : Inlines machines (program.answeredBy .yield) (program.answeredBy .identity) p q where
  ends := by
    constructor
    . rintro ⟨fuel, steps, report, hdriven⟩
      obtain ⟨m, hends, _⟩ := inlined_exhaust hself h hdriven
      exact ⟨m, hends⟩
    . rintro ⟨fuel, hends⟩
      exact exhaust_of_ends hself h hends
  same := by
    intro fuel steps fuel' outputs outcome hdriven hends'
    obtain ⟨m, hends, hsame, hrequests⟩ := inlined_exhaust hself h hdriven
    have hrun := run_eq_of_le (Nat.le_max_left m fuel') hends
    have hrun' := run_eq_of_le (Nat.le_max_right m fuel') hends'
    have hcalls := requests_eq_of_le (Nat.le_max_left m fuel') hends
    have hcalls' := requests_eq_of_le (Nat.le_max_right m fuel') hends'
    rw [← hrun'.symm.trans hrun] at hsame
    rw [← hcalls'.symm.trans hcalls] at hrequests
    exact ⟨hsame, hrequests⟩
  outputs := fun _ _ => inlined_outputs hself h
  requests := fun _ => inlined_requests hself h

end Program

namespace Emit

variable {handlers : Table String Handler} {name name' : String} {handler handler' : Handler}

theorem instruction_reroute (layout : Layout) (name : String) (i : Instruction)
    : instruction layout (i.reroute name) = instruction layout i := by
  obtain ⟨id, command, span⟩ := i
  cases command <;> rfl

theorem readFirst_reroute (name : String) (known : List ValueId) (code : List Instruction)
    : readFirst known (code.map (·.reroute name)) = readFirst known code := by
  induction code generalizing known with
  | nil => rfl
  | cons i code ih =>
    simp only [List.map_cons, readFirst, i.reads_reroute, i.writes_reroute, ih]

theorem loads_reroute (layout : Layout) (name : String) (code : List Instruction)
    : loads layout (code.map (·.reroute name)) = loads layout code := by
  unfold loads
  rw [readFirst_reroute]

theorem exit_reroute (h : handlers.get? name = some handler)
    (h' : handlers.get? name' = some handler') (t : Transfer)
    : exit handlers (t.reroute name')
        = (exit handlers (t.reroute name)).map (·.answeredBy handler') := by
  cases t <;> simp [exit, Transfer.reroute, Exit.answeredBy, Except.map, h, h']

theorem block_reroute (h : handlers.get? name = some handler)
    (h' : handlers.get? name' = some handler') (layout : Layout) (id : BlockId)
    (code : List Instruction)
    : block layout handlers id (code.map (·.reroute name'))
        = (block layout handlers id (code.map (·.reroute name))).map (·.answeredBy handler') := by
  have hops : ∀ name, (code.map (·.reroute name)).dropLast.flatMap (instruction layout)
      = code.dropLast.flatMap (instruction layout) := by
    intro name
    simp only [← List.map_dropLast, List.flatMap_map, instruction_reroute]
  simp only [block, hops, loads_reroute, List.getLast?_map]
  cases code.getLast? with
  | none => rfl
  | some i =>
    obtain ⟨id, command, span⟩ := i
    cases command with
    | effect e => rfl
    | transfer t =>
      simp only [Option.map_some, Instruction.reroute, Command.reroute]
      rw [exit_reroute h h' t]
      cases exit handlers (t.reroute name) <;> rfl

theorem blocks_reroute (h : handlers.get? name = some handler)
    (h' : handlers.get? name' = some handler') (layout : Layout)
    (entries : List (BlockId × Block))
    : blocks layout handlers (entries.map fun entry => (entry.1, entry.2.reroute name'))
        = (blocks layout handlers (entries.map fun entry => (entry.1, entry.2.reroute name))).map
          (·.map fun entry => (entry.1, entry.2.answeredBy handler')) := by
  induction entries with
  | nil => rfl
  | cons entry entries ih =>
    simp only [List.map_cons, blocks, Block.reroute] at ih ⊢
    rw [block_reroute h h', ih]
    cases block layout handlers entry.1 (entry.2.code.map (·.reroute name)) with
    | error e => rfl
    | ok program =>
      cases blocks layout handlers (entries.map fun entry =>
        (entry.1, { entry.2 with code := entry.2.code.map (·.reroute name) })) <;> rfl

end Emit

theorem Graph.layout_reroute (name : String) (graph : Graph)
    : (graph.reroute name).layout = graph.layout := by
  have haccesses : (graph.reroute name).accesses = graph.accesses := by
    simp only [accesses, Graph.reroute, Table.map, Block.reroute, List.flatMap_map,
      Instruction.accesses, Instruction.reads_reroute, Instruction.writes_reroute]
  unfold layout
  rw [haccesses]
  rfl

namespace Program

variable {handlers : Table String Handler} {name name' : String} {handler handler' : Handler}

theorem ofGraph_reroute (h : handlers.get? name = some handler)
    (h' : handlers.get? name' = some handler') (graph : Graph) (title : String)
    : Program.ofGraph (graph.reroute name') handlers title
        = (Program.ofGraph (graph.reroute name) handlers title).map (·.answeredBy handler') := by
  simp only [Program.ofGraph, Graph.layout_reroute]
  have hblocks := Emit.blocks_reroute h h' graph.layout graph.blocks.entries
  simp only [Graph.reroute, Table.map]
  rw [hblocks]
  cases Emit.blocks graph.layout handlers
    (graph.blocks.entries.map fun entry => (entry.1, entry.2.reroute name)) <;> rfl

theorem rerouted_site (options : CompileOptions) (site name name' : String)
    : CompileOptions.Rerouted { options with terminators := .ofList [(site, name)] } name'
        { options with terminators := .ofList [(site, name')] } where
  params := rfl
  aliases := rfl
  expander := rfl
  handler? := by
    intro other
    simp only [Terminators.handler?, Terminators.ofList, Table.get?_ofList]
    simp only [List.reverse_cons, List.reverse_nil, List.nil_append, Table.get?.go]
    split <;> rfl

theorem compile_reroute (h : handlers.get? name = some handler)
    (h' : handlers.get? name' = some handler') (options : CompileOptions) (site : String)
    (source : Form)
    : Program.compile handlers { options with terminators := .ofList [(site, name')] } source
        = (Program.compile handlers { options with terminators := .ofList [(site, name)] }
            source).map (·.answeredBy handler') := by
  have hsame := Graph.ofForm_reroute (rerouted_site options site name name) source
  have hother := Graph.ofForm_reroute (rerouted_site options site name name') source
  unfold Program.compile
  rw [hother]
  cases hgraph : Graph.ofForm { options with terminators := .ofList [(site, name)] } source with
  | error e => rfl
  | ok graph =>
    rw [hgraph] at hsame
    have hown : graph = graph.reroute name := Except.ok.inj hsame
    change Program.ofGraph (graph.reroute name') handlers options.name
      = (Program.ofGraph graph handlers options.name).map (·.answeredBy handler')
    rw [ofGraph_reroute h h' graph, ← hown]

theorem ignoresSelf_ofGraph {graph : Graph} {program : Program} {title : String}
    (h : Program.ofGraph graph handlers title = .ok program)
    : program.IgnoresSelf := by
  obtain ⟨blocks, hblocks, rfl⟩ := ofGraph_ok h
  intro b code hcode
  rcases Emit.get?_blocks hblocks b with ⟨_, hnone⟩ | ⟨block, code', _, hsome, hemit⟩
  . cases hnone.symm.trans hcode
  . cases hsome.symm.trans hcode
    obtain ⟨_, _, _, _, _, _, hloads, _⟩ := Emit.block_ok hemit
    intro load hload
    rw [hloads] at hload
    obtain ⟨id, _, hid⟩ := List.mem_filterMap.1 hload
    obtain ⟨slot, hslot, rfl⟩ := Option.map_eq_some_iff.1 hid
    exact Nat.le_trans (by decide) (graph.layout_apart.header hslot)

theorem create_answeredBy (program : Program) (handler : Handler) (self self' : Value)
    (args : List Value)
    : (∃ fault, program.create self args = .error fault ∧
        (program.answeredBy handler).create self' args = .error fault) ∨
      ∃ state state', program.create self args = .ok state ∧
        (program.answeredBy handler).create self' args = .ok state' ∧ state.Twins state' := by
  simp only [Program.create, Program.answeredBy]
  cases (Arity.exactly program.params.length).check program.name args.length with
  | error fault => exact .inl ⟨fault, rfl, rfl⟩
  | ok => exact .inr ⟨_, _, rfl, rfl, .initial self self' _ args _⟩

/--
Suspending and resuming is the same as going on inline. A form that is compiled with one call site
that gives its argument out, and with the same site going on with its argument at once, fails to
compile in the same way, or gives two machines that take the same arguments; and driving the one to
its end without touching its pending value is the same as running the other once.
-/
theorem inlines_of_compile {yielding continuing : String}
    (hyield : handlers.get? yielding = some .yield)
    (hidentity : handlers.get? continuing = some .identity) (options : CompileOptions)
    (site : String) (source : Form)
    : (∃ e,
        Program.compile handlers { options with terminators := .ofList [(site, yielding)] } source
          = .error e ∧
        Program.compile handlers { options with terminators := .ofList [(site, continuing)] } source
          = .error e) ∨
      ∃ driven inline,
        Program.compile handlers { options with terminators := .ofList [(site, yielding)] } source
          = .ok driven ∧
        Program.compile handlers { options with terminators := .ofList [(site, continuing)] } source
          = .ok inline ∧
        ∀ self self' args,
          (∃ fault, driven.create self args = .error fault ∧
            inline.create self' args = .error fault) ∨
          ∃ state state', driven.create self args = .ok state ∧
            inline.create self' args = .ok state' ∧ ∀ machines store,
              Program.Inlines machines driven inline ⟨state, store⟩ ⟨state', store⟩ := by
  have hsame := compile_reroute hyield hyield options site source
  have hother := compile_reroute hyield hidentity options site source
  rw [hother]
  cases hdriven : Program.compile handlers
    { options with terminators := .ofList [(site, yielding)] } source with
  | error e => exact .inl ⟨e, rfl, rfl⟩
  | ok driven =>
    rw [hdriven] at hsame
    have hown : driven = driven.answeredBy .yield := Except.ok.inj hsame
    refine .inr ⟨driven, driven.answeredBy .identity, rfl, rfl, fun self self' args => ?_⟩
    obtain ⟨graph, _, hprogram⟩ := compile_ok hdriven
    have hself := ignoresSelf_ofGraph hprogram
    rcases driven.create_answeredBy .identity self self' args
      with hfault | ⟨state, state', hstate, hstate', htwins⟩
    . exact .inl hfault
    . refine .inr ⟨state, state', hstate, hstate', fun machines store => ?_⟩
      have hinlines := inlines (p := ⟨state, store⟩) (q := ⟨state', store⟩) machines hself
        ⟨htwins, rfl⟩
      rwa [← hown] at hinlines

def yieldsOneTwo (program : Program) (state : State) : Bool :=
  match program.exhaust {} 9 3 ⟨state, {}⟩ with
  | some ([.int n, .int m], _) => n == 1 && m == 2
  | _ => false

theorem inlines_of_compile_tryAcrossYield
    : ∃ driven inline state state' outcome,
        Program.compile (.ofList [("go-on", Handler.identity), ("yield", Handler.yield)])
          { CompileOptions.yielding with terminators := .ofList [("yield", "yield")] }
          .tryAcrossYield = .ok driven ∧
        Program.compile (.ofList [("go-on", Handler.identity), ("yield", Handler.yield)])
          { CompileOptions.yielding with terminators := .ofList [("yield", "go-on")] }
          .tryAcrossYield = .ok inline ∧
        driven.create .nil [] = .ok state ∧ inline.create (.int 7) [] = .ok state' ∧
        driven.exhaust {} 9 3 ⟨state, {}⟩ = some ([.int 1, .int 2], outcome) ∧
        ∃ fuel, outcome.Twins (Program.run {} fuel inline ⟨state', {}⟩) ∧
          [.int 1, .int 2] = (inline.requests {} fuel ⟨state', {}⟩).map (·.headD .nil) := by
  let table : Table String Handler :=
    .ofList [("go-on", Handler.identity), ("yield", Handler.yield)]
  have hyield : table.get? "yield" = some .yield := rfl
  have hidentity : table.get? "go-on" = some .identity := rfl
  obtain ⟨graph, program, hgraph, hprogram, hcheck⟩ := Graph.exists_of_check
    { CompileOptions.yielding with terminators := .ofList [("yield", "yield")] } .tryAcrossYield
    table CompileOptions.yielding.name
    (fun _ program => (program.create .nil []).toOption.any program.yieldsOneTwo)
    (by decide +kernel)
  have hcompile : Program.compile table
      { CompileOptions.yielding with terminators := .ofList [("yield", "yield")] } .tryAcrossYield
      = .ok program := by
    unfold Program.compile
    rw [hgraph]
    exact hprogram
  rcases Program.inlines_of_compile hyield hidentity .yielding "yield" .tryAcrossYield
    with ⟨e, herror, _⟩ | ⟨driven, inline, hdriven, hinline, hcreate⟩
  . cases hcompile.symm.trans herror
  . cases hcompile.symm.trans hdriven
    rcases hcreate .nil (.int 7) []
      with ⟨fault, hfault, _⟩ | ⟨state, state', hstate, hstate', hinlines⟩
    . simp [hfault, Except.toOption] at hcheck
    . simp only [hstate, Except.toOption, Option.any_some, yieldsOneTwo] at hcheck
      split at hcheck
      . next n m outcome hdriven =>
        obtain ⟨fuel, hends⟩ := (hinlines {} {}).ends.1 ⟨9, 3, _, hdriven⟩
        rw [Bool.and_eq_true, beq_iff_eq, beq_iff_eq] at hcheck
        obtain ⟨rfl, rfl⟩ := hcheck
        exact ⟨program, inline, state, state', outcome, hcompile, hinline, hstate, hstate',
          hdriven, fuel, (hinlines {} {}).same hdriven hends⟩
      . cases hcheck

end Program

end Resumable
