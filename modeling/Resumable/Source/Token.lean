import Resumable.Source.Form

/-!
This module contains the tokens that a text is cut into, each with its place in the text.
-/

namespace Resumable

inductive Closer where
  | round
  | square
  | curly
  deriving Repr, DecidableEq

def Bracket.closer : Bracket → Closer
  | .list => .round
  | .vector => .square
  | .map => .curly
  | .set => .curly

inductive Token where
  | opening (bracket : Bracket)
  | closing (closer : Closer)
  | quote
  | atom (value : Atom)
  deriving Inhabited

structure Lexeme where
  token : Token
  start : Position
  stop : Nat
  deriving Inhabited

def Lexeme.span (lexeme : Lexeme) : Span :=
  .between lexeme.start lexeme.stop

end Resumable
