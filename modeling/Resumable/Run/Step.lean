import Resumable.Run.Exec

/-!
This module contains the running of machines: block after block, until there is a result, a handler
suspends the machine, or a fault finds no handler.
-/

namespace Resumable

/--
How a run ends, and what it leaves behind.
-/
abbrev Outcome := EStateM.Result Stop Process Step

/--
A state about to run a program with arguments, of which there have to be as many as parameters.
-/
def Program.create (program : Program) (self : Value) (args : List Value) :
    Except Fault State := do
  (Arity.exactly program.params.length).check program.name args.length
  return .initial self program.start args program.size

abbrev HostFunctions := Nat → List Value → Action Value

/--
What machines are run with: the programs of the machines of a host, by their numbers, and the
functions that the host brings along.
-/
structure Machines where
  programs : Array Program := #[]
  functions : HostFunctions := fun _ _ => return .nil

def HostFunction.call (machines : Machines) (args : List Value) : HostFunction → Action Value
  | .builtIn primitive => primitive.call args
  | .foreign name arity number => do
    .ofExcept (arity.check name args.length)
    machines.functions number args

namespace Run

abbrev Runner := Program → Process → Outcome

def callClosure (run : Runner) (self : Value) (code : Lambda) (captured args : List Value) :
    Action Value := do
  .ofExcept ((Arity.exactly code.params.length).check code.label args.length)
  match code.compile with
  | .error e => .raise (.uncompilable e.message)
  | .ok program =>
    let own := if code.name.isSome then [self] else []
    let state ← .ofExcept (program.create self (captured ++ own ++ args))
    fun store =>
      match run program { state := state, store := store } with
      | .ok (.done value) p => .ok value p.store
      | .ok .suspended p => .error (.thrown (Fault.suspended code.label).toValue) p.store
      | .error stop p => .error stop p.store

def call (machines : Machines) (run : Runner) : Caller := fun callee args => do
  match callee, args with
  | .native _ function, args => function.call machines args
  | .closure _ code captured, args => callClosure run callee code captured args
  | .keyword _, [collection] => return (← Action.heap).get collection callee
  | .keyword name, args => .raise (.arity (":" ++ name) (.exactly 1) args.length)
  | .map _, [key] => return (← Action.heap).get callee key
  | .map _, args => .raise (.arity "map" (.exactly 1) args.length)
  | other, _ => .raise (.wrongType s!"{other.typeName} is not callable")

inductive Turn where
  | again (process : Process)
  | ended (outcome : Outcome)

/--
Record a fault, and go on at the innermost handler if there is one.
-/
def route (thrown : Value) (p : Process) : Turn :=
  let state := p.state.setException thrown
  match state.handlers with
  | block :: _ => .again { p with state := state.resumeAt block }
  | [] => .ended (.error (.thrown thrown) { p with state := state })

def obey (decision : Control) (p : Process) : Turn :=
  match decision with
  | .suspend => .ended (.ok .suspended p)
  | .continue => .again p
  | .complete value => .ended (.ok (.done value) { p with state := p.state.finish value })

def machine? (machines : Machines) (state : State) : Option Program :=
  match state.slot 0 with
  | .machine ref _ => machines.programs[ref]?
  | _ => none

def answer (machines : Machines) (run : Runner) (reply : Reply) (store : Store) : Turn :=
  match reply with
  | .control decision state => obey decision { state := state, store := store }
  | .fault thrown state => route thrown { state := state, store := store }
  | .drive state decide =>
    match machine? machines state with
    | none => route Fault.noMachine.toValue { state := state, store := store }
    | some program =>
      match run program { state := state, store := store } with
      | .ok step p => obey (decide step) p
      | .error (.thrown value) p => route value p
      | .error .outOfFuel p => .ended (.error .outOfFuel p)

/--
Run the block that the machine is at, and deal with how it was left.
-/
def turn (machines : Machines) (run : Runner) (program : Program) (block : BlockId)
    (p : Process) : Turn :=
  match program.blocks.get? block with
  | none => route (Fault.noBlock program.name block).toValue p
  | some code =>
    match Exec.block (call machines run) code { toProcess := p } with
    | .ok .next frame => .again frame.toProcess
    | .ok (.done value) frame => .ended (.ok (.done value) frame.toProcess)
    | .ok (.suspend handler resume args) frame =>
      answer machines run (handler frame.state resume args) frame.store
    | .error (.thrown value) frame => route value frame.toProcess
    | .error .outOfFuel frame => .ended (.error .outOfFuel frame.toProcess)

end Run

/--
Run a machine, at most as many turns as said, and as deep.
-/
def Program.run (machines : Machines) : Nat → Program → Process → Outcome
  | 0, _, p => .error .outOfFuel p
  | fuel + 1, program, p =>
    match p.state.status? with
    | none => .error (.thrown Fault.corruptState.toValue) p
    | some .finished => .ok (.done p.state.pending) p
    | some (.running block) =>
      match Run.turn machines (Program.run machines fuel) program block p with
      | .again p => Program.run machines fuel program p
      | .ended outcome => outcome

end Resumable
