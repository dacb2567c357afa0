import Resumable.Source.Printer

/-!
This module contains what can be wrong with a source text.
-/

namespace Resumable

inductive ReadError.Cause where
  | unterminatedString
  | unterminatedEscape
  | namelessKeyword
  | unknownHash
  | invalidNumber (text : String)
  | unexpectedEnd
  | unexpectedCloser
  | unterminatedGroup (bracket : Bracket)
  | oddMap
  | trailingForm (form : Form)

structure ReadError where
  line : Nat
  col : Nat
  cause : ReadError.Cause

namespace ReadError

def atPosition (p : Position) (cause : Cause) : ReadError :=
  { line := p.line, col := p.col, cause := cause }

def groupName : Bracket → String
  | .list => "list"
  | .vector => "vector"
  | .map => "map"
  | .set => "set"

def Cause.message : Cause → String
  | .unterminatedString => "unterminated string"
  | .unterminatedEscape => "unterminated string escape"
  | .namelessKeyword => "invalid keyword: expected name after :"
  | .unknownHash => "invalid # syntax"
  | .invalidNumber text => "invalid number: " ++ text
  | .unexpectedEnd => "unexpected end of input"
  | .unexpectedCloser => "unexpected closing delimiter"
  | .unterminatedGroup bracket => "unterminated " ++ groupName bracket
  | .oddMap => "map literal must contain an even number of forms"
  | .trailingForm form => "unexpected trailing form " ++ form.render

def message (e : ReadError) : String :=
  s!"{e.line}:{e.col}: {e.cause.message}"

end ReadError

end Resumable
