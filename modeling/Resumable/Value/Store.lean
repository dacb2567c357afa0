import Resumable.Value.Printer
import Resumable.Value.Fault
import Resumable.Table

/-!
This module contains everything that a running program can change, and the actions that change it.
-/

namespace Resumable

/--
What a running program can change: records, global variables, what has been printed, and how many
tags have been given to callables.
-/
structure Store where
  heap : Heap := {}
  globals : Table String Value := {}
  printed : String := ""
  tags : Nat := 0
  deriving Inhabited

inductive Stop where
  | thrown (value : Value)
  | outOfFuel

abbrev Action := EStateM Stop Store

namespace Action

def throwValue {α : Type} (value : Value) : Action α :=
  throw (.thrown value)

def raise {α : Type} (fault : Fault) : Action α :=
  throwValue fault.toValue

def ofExcept {α : Type} : Except Fault α → Action α
  | .ok a => pure a
  | .error fault => raise fault

def heap : Action Heap :=
  return (← get).heap

def freshTag : Action Nat :=
  modifyGet fun store => (store.tags, { store with tags := store.tags + 1 })

def global (name : String) : Action Value := do
  match (← get).globals.get? name with
  | some value => return value
  | none => raise (.undefined name)

def assignGlobal (name : String) (value : Value) : Action Unit := do
  match (← get).globals.get? name with
  | some _ => modify fun store => { store with globals := store.globals.insert name value }
  | none => raise (.unassignable name)

def newRecord (record : Record) : Action Value :=
  modifyGet fun store =>
    let (ref, heap) := store.heap.allocate record
    (.record ref, { store with heap := heap })

def setField (ref : Nat) (name : String) (value : Value) : Action Unit :=
  modify fun store => { store with heap := store.heap.setField ref name value }

def printLine (line : String) : Action Unit :=
  modify fun store => { store with printed := store.printed ++ line ++ "\n" }

end Action

def Arity.check (arity : Arity) (callee : String) (got : Nat) : Except Fault Unit :=
  if arity.accepts got then .ok () else .error (.arity callee arity got)

end Resumable
