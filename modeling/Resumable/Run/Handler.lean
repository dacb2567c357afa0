import Resumable.Run.State

/-!
This module contains suspension handlers: what is done with a call that leaves its machine.
-/

namespace Resumable

inductive Step where
  | done (value : Value)
  | suspended

inductive Control where
  | suspend
  | continue
  | complete (value : Value)

/--
The answer of a handler, with the state as it has left it.
-/
inductive Reply where
  | control (decision : Control) (state : State)
  | fault (thrown : Value) (state : State)
  | drive (state : State) (decide : Step → Control)

/--
A suspension handler. It gets the state, the block where the machine goes on, and the values of the
call's arguments. Whatever it does to the state is in its answer; the store is not in its reach, and
it drives the machine on at most once, by its last act. A handler that changes globals or objects,
or steps the machine several times in one call, is not a `Handler`: statements about all handlers are
about these only.
-/
abbrev Handler := State → BlockId → List Value → Reply

namespace Handler

def yield : Handler := fun state resume args =>
  .control .suspend ((state.setPending (args.headD .nil)).resumeAt resume)

def identity : Handler := fun state resume args =>
  .control .continue ((state.setPending (args.headD .nil)).resumeAt resume)

def complete : Handler := fun state _ args =>
  .control (.complete (args.headD .nil)) state

end Handler

end Resumable
