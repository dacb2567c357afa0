import Resumable.Graph.Layout
import Resumable.Value.Heap

/-!
This module contains the state of a running machine, a flat row of slots:

* slot 0: the machine itself
* slot 1: the block to run next, or `:finished`
* slot 2: the pending value, which one block hands over to another, and in the end the result
* slot 3: unused
* slot 4: the blocks that handle faults, innermost first
* slot 5: the value in flight, `nil` if there is none
* from slot 6 on: parameters, then the results that are kept
-/

namespace Resumable

inductive Status where
  | running (block : BlockId)
  | finished
  deriving Repr, DecidableEq

/--
The slots of a machine.
-/
structure State where
  slots : Array Value
  deriving Inhabited

namespace State

def slot (s : State) (index : Nat) : Value :=
  s.slots.getD index .nil

def setSlot (s : State) (index : Nat) (value : Value) : State :=
  { slots := s.slots.setIfInBounds index value }

def blockOf? : Value → Option BlockId
  | .int n => if 0 ≤ n.toInt ∧ n.toInt < 0x100000000 then some n.toInt.toNat else none
  | _ => none

def ofBlock (block : BlockId) : Value :=
  .int (Int64.ofNat block)

def status? (s : State) : Option Status :=
  match s.slot 1 with
  | .keyword "finished" => some .finished
  | value => (blockOf? value).map .running

def resumeAt (s : State) (block : BlockId) : State :=
  s.setSlot 1 (ofBlock block)

def pending (s : State) : Value :=
  s.slot 2

def setPending (s : State) (value : Value) : State :=
  s.setSlot 2 value

def finish (s : State) (value : Value) : State :=
  (s.setSlot 1 (.keyword "finished")).setPending value

def handlers (s : State) : List BlockId :=
  ((s.slot 4).elements?.getD []).filterMap blockOf?

def setHandlers (s : State) (blocks : List BlockId) : State :=
  s.setSlot 4 (.list (blocks.map ofBlock))

def pushHandler (s : State) (block : BlockId) : State :=
  s.setHandlers (block :: s.handlers)

/--
Remove a block from the handlers if it is the innermost one.
-/
def popHandler (s : State) (block : BlockId) : State :=
  match s.handlers with
  | [] => s
  | top :: rest => if top = block then s.setHandlers rest else s

def exception (s : State) : Value :=
  s.slot 5

def setException (s : State) (value : Value) : State :=
  s.setSlot 5 value

def clearException (s : State) : State :=
  s.setException .nil

def user (s : State) : List Value :=
  s.slots.toList.drop headerSize

def initial (self : Value) (start : BlockId) (args : List Value) (size : Nat) : State :=
  { slots :=
      ([self, ofBlock start, .nil, .nil, .list [], .nil] ++ args ++
        List.replicate (size - headerSize - args.length) Value.nil).toArray }

end State

end Resumable
