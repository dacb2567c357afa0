import Resumable.Value.Basic

/-!
This module contains the values that the run-time system throws by itself: errors of a kind, with a
message.
-/

namespace Resumable

inductive Fault where
  | wrongType (message : String)
  | arity (callee : String) (expected : Arity) (got : Nat)
  | oddArguments (message : String)
  | overflow (operation : String)
  | divisionByZero (operation : String)
  | unordered (operation : String)
  | undefined (name : String)
  | unassignable (name : String)
  | noMethod (type method : String)
  | noClause (value : String)
  | uncompilable (message : String)
  | suspended (callee : String)
  | noMachine
  | corruptState
  | noBlock (machine : String) (block : Nat)

namespace Fault

def kind : Fault → String
  | .wrongType _ => "type-error"
  | .arity _ _ _ => "arity-error"
  | .oddArguments _ => "arity-error"
  | .overflow _ => "arithmetic-error"
  | .divisionByZero _ => "division-by-zero"
  | .unordered _ => "arithmetic-error"
  | .undefined _ => "undefined-variable"
  | .unassignable _ => "undefined-variable"
  | .noMethod _ _ => "member-error"
  | .noClause _ => "no-matching-clause"
  | .uncompilable _ => "compile-error"
  | .suspended _ => "suspend-error"
  | .noMachine => "state-error"
  | .corruptState => "state-error"
  | .noBlock _ _ => "state-error"

def message : Fault → String
  | .wrongType message => message
  | .arity callee expected got =>
    s!"{callee}: expected {expected.render} arguments, got {got}"
  | .oddArguments message => message
  | .overflow operation => s!"{operation}: integer overflow"
  | .divisionByZero operation => s!"{operation}: division by zero"
  | .unordered operation => s!"{operation}: NaN is unordered"
  | .undefined name => s!"undefined variable '{name}'"
  | .unassignable name => s!"cannot set! undefined global '{name}'"
  | .noMethod type method => s!"{type} has no method '{method}'"
  | .noClause value => s!"no case clause matches {value}"
  | .uncompilable message => message
  | .suspended callee => s!"{callee}: closures cannot suspend"
  | .noMachine => "slot 0 holds no machine"
  | .corruptState => "corrupt block-id slot"
  | .noBlock machine block => s!"{machine}: no block b{block}"

def toValue (fault : Fault) : Value :=
  .error fault.kind fault.message .nil

end Fault

end Resumable
