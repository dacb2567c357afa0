import Resumable.Value.Basic

/-!
This module contains the instructions of a lowered program. An instruction either has an effect and
is followed by the next one, or it transfers control and ends its block.
-/

namespace Resumable

abbrev ValueId := Nat

abbrev BlockId := Nat

inductive Operand where
  | result (id : ValueId)
  | literal (value : Value)
  | global (name : String)
  | pending
  deriving Inhabited

def Operand.result? : Operand → Option ValueId
  | .result id => some id
  | _ => none

inductive CatchType where
  | any
  | named (type : String)
  deriving Repr, DecidableEq

inductive Effect where
  | const (value : Operand)
  | call (callee : Operand) (args : List Operand)
  | recur (targets : List ValueId) (args : List Operand)
  | lambda (code : Lambda) (captured : List Operand)
  | field (target : Operand) (name : String) (args : List Operand)
  | method (target : Operand) (name : String) (args : List Operand)
  | setLocal (target : ValueId) (value : Operand)
  | setGlobal (name : String) (value : Operand)
  | setField (object : Operand) (name : String) (value : Operand)
  | pushHandler (block : BlockId)
  | popHandler (block : BlockId)
  | takeException
  | endFinally (exception : Operand)

inductive Transfer where
  | jump (value : Option Operand) (target : BlockId)
  | finish (value : Operand)
  | branch (test : Operand) (yes no : BlockId)
  | case (value : Operand) (tests : List (List Value)) (clauses : List BlockId)
      (fallback : Option BlockId)
  | dispatch (clauses : List (BlockId × CatchType))
  | suspend (handler : String) (resume : BlockId) (args : List Operand)

inductive Command where
  | effect (e : Effect)
  | transfer (t : Transfer)

structure Instruction where
  id : ValueId
  command : Command
  span : Span

def Effect.operands : Effect → List Operand
  | .const value => [value]
  | .call callee args => callee :: args
  | .recur _ args => args
  | .lambda _ captured => captured
  | .field target _ args => target :: args
  | .method target _ args => target :: args
  | .setLocal _ value => [value]
  | .setGlobal _ value => [value]
  | .setField object _ value => [object, value]
  | .pushHandler _ => []
  | .popHandler _ => []
  | .takeException => []
  | .endFinally exception => [exception]

def Transfer.operands : Transfer → List Operand
  | .jump value _ => value.toList
  | .finish value => [value]
  | .branch test _ _ => [test]
  | .case value _ _ _ => [value]
  | .dispatch _ => []
  | .suspend _ _ args => args

def Effect.writes (id : ValueId) : Effect → List ValueId
  | .const _ => [id]
  | .call _ _ => [id]
  | .recur targets _ => targets
  | .lambda _ _ => [id]
  | .field _ _ _ => [id]
  | .method _ _ _ => [id]
  | .setLocal target _ => [target, id]
  | .setGlobal _ _ => [id]
  | .setField _ _ _ => [id]
  | .pushHandler _ => []
  | .popHandler _ => []
  | .takeException => [id]
  | .endFinally _ => []

def Effect.references : Effect → List BlockId
  | .pushHandler block => [block]
  | .popHandler block => [block]
  | _ => []

def Transfer.references : Transfer → List BlockId
  | .jump _ target => [target]
  | .finish _ => []
  | .branch _ yes no => [yes, no]
  | .case _ _ clauses fallback => clauses ++ fallback.toList
  | .dispatch clauses => clauses.map (·.1)
  | .suspend _ resume _ => [resume]

namespace Instruction

def operands (i : Instruction) : List Operand :=
  match i.command with
  | .effect e => e.operands
  | .transfer t => t.operands

def reads (i : Instruction) : List ValueId :=
  i.operands.filterMap Operand.result?

def writes (i : Instruction) : List ValueId :=
  match i.command with
  | .effect e => e.writes i.id
  | .transfer _ => []

def references (i : Instruction) : List BlockId :=
  match i.command with
  | .effect e => e.references
  | .transfer t => t.references

def isTransfer (i : Instruction) : Bool :=
  match i.command with
  | .effect _ => false
  | .transfer _ => true

end Instruction

end Resumable
