import Resumable.Run.Exec

/-!
This module contains the plain meaning of instructions. Every result is at hand from the moment it
is written on, whichever block needs it, so there are no registers, and no slots besides the header.
-/

namespace Resumable

def update {κ α : Type} [DecidableEq κ] (g : κ → α) (key : κ) (a : α) : κ → α :=
  fun k => if k = key then a else g k

structure Plain extends Process where
  values : ValueId → Value

abbrev PlainExec := EStateM Stop Plain

namespace Plain

inductive Ending where
  | next
  | done (value : Value)
  | suspend (handler : String) (resume : BlockId) (args : List Value)

def Ending.flow? (handlers : Table String Handler) : Ending → Option Flow
  | .next => some .next
  | .done value => some (.done value)
  | .suspend handler resume args => (handlers.get? handler).map (.suspend · resume args)

def onStore {α : Type} (action : Action α) : PlainExec α := fun p =>
  match action p.store with
  | .ok a store => .ok a { p with store := store }
  | .error stop store => .error stop { p with store := store }

def onState (f : State → State) : PlainExec Unit :=
  modify fun p => { p with state := f p.state }

def write (id : ValueId) (value : Value) : PlainExec Unit :=
  modify fun p => { p with values := update p.values id value }

def writeAll : List (ValueId × Value) → PlainExec Unit
  | [] => return ()
  | (id, value) :: rest => do
    write id value
    writeAll rest

def read (operand : Operand) : PlainExec Value := do
  match operand with
  | .result id => return (← get).values id
  | .literal value => return value
  | .global name => onStore (.global name)
  | .pending => return (← get).state.pending

def readAll : List Operand → PlainExec (List Value)
  | [] => return []
  | operand :: rest => do
    let value ← read operand
    return value :: (← readAll rest)

def effect (call : Caller) (id : ValueId) : Effect → PlainExec Unit
  | .const value => do write id (← read value)
  | .call callee args => do
    let callee ← read callee
    let args ← readAll args
    write id (← onStore (call callee args))
  | .recur targets args => do writeAll (targets.zip (← readAll args))
  | .lambda code captured => do
    match code.compile with
    | .error e => throw (.thrown (Fault.uncompilable e.message).toValue)
    | .ok _ =>
      let values ← readAll captured
      write id (.closure (← onStore .freshTag) code values)
  | .field target name _ => do
    let object ← read target
    write id (← onStore (Exec.readField object name))
  | .method target name args => do
    let object ← read target
    let args ← readAll args
    write id (← onStore (Exec.callMethod call object name args))
  | .setLocal target value => do
    let value ← read value
    write target value
    write id value
  | .setGlobal name value => do
    let value ← read value
    onStore (.assignGlobal name value)
    write id value
  | .setField object name value => do
    let value ← read value
    let object ← read object
    onStore (Exec.writeField object name value)
    write id value
  | .pushHandler block => onState (·.pushHandler block)
  | .popHandler block => onState (·.popHandler block)
  | .takeException => do
    let thrown := (← get).state.exception
    onState (·.clearException)
    write id thrown
  | .endFinally exception => do
    let value ← read exception
    if value.isNil then return () else throw (.thrown value)

def transfer : Transfer → PlainExec Ending
  | .jump none target => do
    onState (·.resumeAt target)
    return .next
  | .jump (some value) target => do
    let value ← read value
    onState fun s => (s.setPending value).resumeAt target
    return .next
  | .finish value => do
    let value ← read value
    onState (·.finish value)
    return .done value
  | .branch test yes no => do
    let test ← read test
    onState (·.resumeAt (if test.isTruthy then yes else no))
    return .next
  | .case value tests clauses fallback => do
    let value ← read value
    match (Exec.findClause value tests clauses).or fallback with
    | some block =>
      onState (·.resumeAt block)
      return .next
    | none =>
      let heap ← onStore Action.heap
      throw (.thrown (Fault.noClause (heap.write value)).toValue)
  | .dispatch clauses => do
    let thrown := (← get).state.exception
    let heap ← onStore Action.heap
    match clauses.find? (Exec.catches heap thrown ·.2) with
    | some (block, _) =>
      onState fun s => ((s.setPending thrown).clearException).resumeAt block
      return .next
    | none => throw (.thrown thrown)
  | .suspend handler resume args => do
    let args ← readAll args
    return .suspend handler resume args

def effects (call : Caller) : List Instruction → PlainExec Unit
  | [] => return ()
  | i :: rest => do
    match i.command with
    | .effect e =>
      effect call i.id e
      effects call rest
    | .transfer _ => effects call rest

def code (call : Caller) : List Instruction → PlainExec Ending
  | [] => return .next
  | i :: rest => do
    match i.command with
    | .effect e =>
      effect call i.id e
      code call rest
    | .transfer t => transfer t

end Plain

end Resumable
