import Resumable.Primitive.Call
import Resumable.Program.Compile

/-!
This module contains the running of a single block. What a call does is a parameter.
-/

namespace Resumable

structure Registers where
  cells : List (Register × Value) := []

namespace Registers

def get (rs : Registers) (r : Register) : Value :=
  go rs.cells
where
  go : List (Register × Value) → Value
    | [] => .nil
    | (q, value) :: rest => if q = r then value else go rest

def set (rs : Registers) (r : Register) (value : Value) : Registers :=
  { cells := (r, value) :: rs.cells }

end Registers

/--
A machine in the world: its state, and what all machines share.
-/
structure Process where
  state : State
  store : Store

structure Frame extends Process where
  registers : Registers := {}

abbrev Exec := EStateM Stop Frame

abbrev Caller := Value → List Value → Action Value

inductive Flow where
  | next
  | done (value : Value)
  | suspend (handler : Handler) (resume : BlockId) (args : List Value)

namespace Exec

def onStore {α : Type} (action : Action α) : Exec α := fun frame =>
  match action frame.store with
  | .ok a store => .ok a { frame with store := store }
  | .error stop store => .error stop { frame with store := store }

def onState (f : State → State) : Exec Unit :=
  modify fun frame => { frame with state := f frame.state }

def put (r : Register) (value : Value) : Exec Unit :=
  modify fun frame => { frame with registers := frame.registers.set r value }

def raise {α : Type} (fault : Fault) : Exec α :=
  throw (.thrown fault.toValue)

def eval (source : Source) : Exec Value := do
  match source with
  | .register r => return (← get).registers.get r
  | .value v => return v
  | .global name => onStore (.global name)
  | .pending => return (← get).state.pending

def evalAll : List Source → Exec (List Value)
  | [] => return []
  | source :: rest => do
    let value ← eval source
    return value :: (← evalAll rest)

def readField (object : Value) (name : String) : Action Value := do
  match object with
  | .record ref => return (((← Action.heap).record ref).field? name).getD .nil
  | .map _ => return (← Action.heap).get object (.keyword name)
  | other => .raise (.wrongType s!".-{name}: expected record, got {other.typeName}")

def callMethod (call : Caller) (object : Value) (name : String) (args : List Value) :
    Action Value := do
  match object with
  | .record ref =>
    let record := (← Action.heap).record ref
    match record.field? name with
    | some callee => call callee (object :: args)
    | none => .raise (.noMethod record.typeName name)
  | other => .raise (.wrongType s!".{name}: expected record, got {other.typeName}")

def writeField (object : Value) (name : String) (value : Value) : Action Unit := do
  match object with
  | .record ref => .setField ref name value
  | other => .raise (.wrongType s!"set! .-{name}: expected record, got {other.typeName}")

def makeClosure (code : Lambda) (captured : Exec (List Value)) : Exec Value := do
  match code.compile with
  | .error e => raise (.uncompilable e.message)
  | .ok _ =>
    let values ← captured
    return .closure (← onStore .freshTag) code values

def op (call : Caller) : Op → Exec Unit
  | .move target source => do put target (← eval source)
  | .call target callee args => do
    let callee ← eval callee
    let args ← evalAll args
    put target (← onStore (call callee args))
  | .closure target code captured => do put target (← makeClosure code (evalAll captured))
  | .field target object name => do
    let object ← eval object
    put target (← onStore (readField object name))
  | .method target object name args => do
    let object ← eval object
    let args ← evalAll args
    put target (← onStore (callMethod call object name args))
  | .setGlobal target name value => do
    let value ← eval value
    onStore (.assignGlobal name value)
    put target value
  | .setField target object name value => do
    let value ← eval value
    let object ← eval object
    onStore (writeField object name value)
    put target value
  | .pushHandler block => onState (·.pushHandler block)
  | .popHandler block => onState (·.popHandler block)
  | .takeException target => do
    put target (← get).state.exception
    onState (·.clearException)
  | .endFinally exception => do
    let value ← eval exception
    if value.isNil then return () else throw (.thrown value)
  | .save source slot => do
    let value := (← get).registers.get source
    onState (·.setSlot slot value)

def ops (call : Caller) : List Op → Exec Unit
  | [] => return ()
  | o :: rest => do
    op call o
    ops call rest

def findClause (value : Value) : List (List Value) → List BlockId → Option BlockId
  | test :: tests, clauses =>
    if Value.isMember test value then clauses.head? else findClause value tests clauses.tail
  | [], _ => none

def catches (heap : Heap) (value : Value) : CatchType → Bool
  | .any => true
  | .named type => heap.isInstance value type

def exit : Exit → Exec Flow
  | .jump none target => do
    onState (·.resumeAt target)
    return .next
  | .jump (some value) target => do
    let value ← eval value
    onState fun s => (s.setPending value).resumeAt target
    return .next
  | .finish value => do
    let value ← eval value
    onState (·.finish value)
    return .done value
  | .branch test yes no => do
    let test ← eval test
    onState (·.resumeAt (if test.isTruthy then yes else no))
    return .next
  | .case value tests clauses fallback => do
    let value ← eval value
    match (findClause value tests clauses).or fallback with
    | some block =>
      onState (·.resumeAt block)
      return .next
    | none => raise (.noClause ((← onStore Action.heap).write value))
  | .dispatch clauses => do
    let thrown := (← get).state.exception
    let heap ← onStore Action.heap
    match clauses.find? (catches heap thrown ·.2) with
    | some (block, _) =>
      onState fun s => ((s.setPending thrown).clearException).resumeAt block
      return .next
    | none => throw (.thrown thrown)
  | .suspend handler resume args => do
    let args ← evalAll args
    return .suspend handler resume args

def load : List (ValueId × Nat) → Exec Unit
  | [] => return ()
  | (id, slot) :: rest => do
    put (.result id) ((← get).state.slot slot)
    load rest

/--
Run a block from its start to its exit.
-/
def block (call : Caller) (program : BlockProgram) : Exec Flow := do
  load program.loads
  ops call program.ops
  exit program.exit

end Exec

end Resumable
