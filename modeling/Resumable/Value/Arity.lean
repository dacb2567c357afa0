/-!
This module contains how many arguments a callable takes.
-/

namespace Resumable

inductive Arity where
  | exactly (n : Nat)
  | atLeast (n : Nat)
  | range (low high : Nat)
  deriving Repr, DecidableEq

namespace Arity

def accepts : Arity → Nat → Bool
  | .exactly n, got => got == n
  | .atLeast n, got => n ≤ got
  | .range low high, got => low ≤ got && got ≤ high

def render : Arity → String
  | .exactly n => s!"{n}"
  | .atLeast n => s!"at least {n}"
  | .range low high => s!"{low} to {high}"

end Arity

end Resumable
