import Resumable.Host

/-!
This module contains one-line descriptions of states, machines and hosts.
-/

namespace Resumable

def describe (title : String) (fields : List (String × String)) : String :=
  let fields := fields.map fun (name, text) => name ++ ": " ++ text
  title ++ " \x7b " ++ ", ".intercalate fields ++ " \x7d"

def describeList (texts : List String) : String :=
  "[" ++ ", ".intercalate texts ++ "]"

def describeOption : Option String → String
  | some text => "Some(" ++ text ++ ")"
  | none => "None"

def BlockId.describe (block : BlockId) : String :=
  s!"BlockId({block})"

def Status.describe : Status → String
  | .running block => "Running(" ++ BlockId.describe block ++ ")"
  | .finished => "Finished"

def State.describe (state : State) (heap : Heap) : String :=
  let exception := if state.exception.isNil then none else some (heap.write state.exception)
  Resumable.describe "State" [
    ("status", describeOption (state.status?.map Status.describe)),
    ("value", heap.write state.pending),
    ("handlers", describeList (state.handlers.map BlockId.describe)),
    ("exception", describeOption exception),
    ("user", describeList (state.user.map heap.write))]

def Program.describe (program : Program) : String :=
  Resumable.describe "StateMachine" [
    ("name", Text.quoteValue program.name),
    ("blocks", toString program.blocks.size),
    ("start", BlockId.describe program.start),
    ("size", toString program.size),
    ("params", describeList (program.params.map Text.quoteValue))]

def Host.describe (host : Host) : String :=
  Resumable.describe "Host" [
    ("globals", toString host.store.globals.size),
    ("handlers", toString host.handlers.size)]

end Resumable
