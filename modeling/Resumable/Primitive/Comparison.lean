import Resumable.Primitive.Arithmetic
import Resumable.Value.Equality

/-!
This module contains the order of numbers, and tests along a row of values.
-/

namespace Resumable

def Value.order (operation : String) (a b : Value) : Except Fault Ordering :=
  match a, b with
  | .int x, .int y => .ok (compare x.toInt y.toInt)
  | a, b => do
    let x ← a.number operation
    let y ← b.number operation
    if x < y then return .lt
    else if y < x then return .gt
    else if x == y then return .eq
    else .error (.unordered operation)

def betweenNeighbours (test : Value → Value → Bool) : List Value → Bool
  | a :: b :: rest => test a b && betweenNeighbours test (b :: rest)
  | _ => true

def ordered (operation : String) (accept : Ordering → Bool) : List Value → Except Fault Bool
  | a :: b :: rest => do
    if accept (← a.order operation b) then ordered operation accept (b :: rest) else return false
  | _ => return true

end Resumable
