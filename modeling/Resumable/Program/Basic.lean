import Resumable.Run.Handler

/-!
This module contains runnable programs. Every block is a short row of operations on registers, with
an exit at its end. Registers hold values during one run of a block only.
-/

namespace Resumable

inductive Register where
  | result (id : ValueId)
  | staged (index : Nat)
  deriving Repr, DecidableEq

inductive Source where
  | register (r : Register)
  | value (v : Value)
  | global (name : String)
  | pending

inductive Op where
  | move (target : Register) (source : Source)
  | call (target : Register) (callee : Source) (args : List Source)
  | closure (target : Register) (code : Lambda) (captured : List Source)
  | field (target : Register) (object : Source) (name : String)
  | method (target : Register) (object : Source) (name : String) (args : List Source)
  | setGlobal (target : Register) (name : String) (value : Source)
  | setField (target : Register) (object : Source) (name : String) (value : Source)
  | pushHandler (block : BlockId)
  | popHandler (block : BlockId)
  | takeException (target : Register)
  | endFinally (exception : Source)
  | save (source : Register) (slot : Nat)

inductive Exit where
  | jump (value : Option Source) (target : BlockId)
  | finish (value : Source)
  | branch (test : Source) (yes no : BlockId)
  | case (value : Source) (tests : List (List Value)) (clauses : List BlockId)
      (fallback : Option BlockId)
  | dispatch (clauses : List (BlockId × CatchType))
  | suspend (handler : Handler) (resume : BlockId) (args : List Source)

/--
A block ready to run: the results it fetches from their slots first, its operations, and its exit.
-/
structure BlockProgram where
  loads : List (ValueId × Nat)
  ops : List Op
  exit : Exit

/--
A machine ready to run.
-/
structure Program where
  name : String
  blocks : Table BlockId BlockProgram
  start : BlockId
  size : Nat
  params : List String

end Resumable
