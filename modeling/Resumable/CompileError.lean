import Resumable.Source.ReadError

/-!
This module contains the reasons for which a text or form cannot be compiled.
-/

namespace Resumable

inductive CompileError where
  | unreadable (cause : ReadError)
  | recurArity (expected got : Nat) (span : Span)
  | recurOutsideLoop (span : Span)
  | recurAcrossTry (span : Span)
  | finallyNotLast (span : Span)
  | catchAfterFinally (span : Span)
  | malformed (form message : String) (span : Span)
  | expansion (message : String) (span : Span)
  | unknownHandler (name : String)
  | unterminated (block : Nat)

def CompileError.message : CompileError → String
  | .unreadable cause => s!"read error: {cause.message}"
  | .recurArity expected got span =>
    s!"{span.render}: recur expects {expected} arguments, got {got}"
  | .recurOutsideLoop span => s!"{span.render}: recur used outside of a loop"
  | .recurAcrossTry span => s!"{span.render}: recur cannot cross a try boundary"
  | .finallyNotLast span => s!"{span.render}: finally clause must be last in try"
  | .catchAfterFinally span => s!"{span.render}: catch clause cannot follow finally"
  | .malformed form message span => s!"{span.render}: malformed {form}: {message}"
  | .expansion message span => s!"{span.render}: expansion failed: {message}"
  | .unknownHandler name => s!"no suspension handler registered under '{name}'"
  | .unterminated block => s!"block {block} has no terminator"

end Resumable
