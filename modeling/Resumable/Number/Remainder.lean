import Resumable.Decimal.Binary

/-!
This module contains the remainder of doubles. Both operands are whole multiples of one power of
two, so the remainder of the multiples is exact.
-/

namespace Resumable.Number

def remainder (a b : Float) : Float :=
  if a.isNaN || b.isNaN || a.isInf || b == 0.0 then 0.0 / 0.0
  else if b.isInf then a
  else
    let x := Decimal.Binary.ofFloat a
    let y := Decimal.Binary.ofFloat b
    let unit := min x.expo y.expo
    let steps :=
      (x.coeff * Nat.pow 2 (x.expo - unit).toNat) %
        (y.coeff * Nat.pow 2 (y.expo - unit).toNat)
    let size := (Float.ofNat steps).scaleB unit
    if Decimal.isNegative a then -size else size

def floorMod (a b : Float) : Float :=
  let r := remainder a b
  if r != 0.0 && decide (0.0 < r) != decide (0.0 < b) then r + b else r

end Resumable.Number
