import Resumable.Run.Step

/-!
This module contains hosts. A host holds what the machines compiled for it share: global variables
and records, the handlers that suspensions go to, and the machines themselves.
-/

namespace Resumable

/--
What machines run in.
-/
structure Host where
  store : Store := {}
  handlers : Table String Handler := {}
  machines : Machines := {}
  deriving Inhabited

namespace Host

def define (host : Host) (name : String) (value : Value) : Host :=
  { host with store := { host.store with globals := host.store.globals.insert name value } }

def lookup? (host : Host) (name : String) : Option Value :=
  host.store.globals.get? name

def addHandler (host : Host) (name : String) (handler : Handler) : Host :=
  { host with handlers := host.handlers.insert name handler }

def act {α : Type} (host : Host) (action : Action α) : Except Stop α × Host :=
  match action host.store with
  | .ok a store => (.ok a, { host with store := store })
  | .error stop store => (.error stop, { host with store := store })

def newNative (host : Host) (primitive : Primitive) : Value × Host :=
  let tag := host.store.tags
  (.native tag (.builtIn primitive), { host with store := { host.store with tags := tag + 1 } })

def definePrimitive (host : Host) (name : String) (primitive : Primitive) : Host :=
  let (value, host) := host.newNative primitive
  host.define name value

def standard : Host :=
  let names := Primitive.all.flatMap fun p => p.names.map fun name => (name, p)
  let host : Host := names.foldl (fun host (name, p) => host.definePrimitive name p) {}
  host.addHandler "yield" Handler.yield

def fuel : Nat := 1000000000000000000

def runner (host : Host) : Run.Runner :=
  Program.run host.machines fuel

def addMachine (host : Host) (program : Program) : Value × Host :=
  let programs := host.machines.programs
  (.machine programs.size program.name,
    { host with machines := { host.machines with programs := programs.push program } })

def program? (host : Host) : Value → Option Program
  | .machine ref _ => host.machines.programs[ref]?
  | _ => none

def compile (host : Host) (options : CompileOptions) (form : Form) :
    Except CompileError (Value × Host) := do
  return host.addMachine (← Program.compile host.handlers options form)

def create (host : Host) (machine : Value) (args : List Value) : Except Fault State :=
  match host.program? machine with
  | none => .error .noMachine
  | some program => program.create machine args

/--
Run a machine until it is done, suspended, or ended by a fault.
-/
def step (host : Host) (state : State) : Except Stop Step × State × Host :=
  match Run.machine? host.machines state with
  | none => (.error (.thrown Fault.noMachine.toValue), state, host)
  | some program =>
    match host.runner program { state := state, store := host.store } with
    | .ok step p => (.ok step, p.state, { host with store := p.store })
    | .error stop p => (.error stop, p.state, { host with store := p.store })

def call (host : Host) (callee : Value) (args : List Value) : Except Stop Value × Host :=
  host.act (Run.call host.machines host.runner callee args)

end Host

end Resumable
