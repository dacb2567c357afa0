import Resumable.Decimal.Binary

/-!
This module contains the choice of decimal digits for a double: the coarsest power-of-ten grid with
a point that reads back as the double, and on that grid the nearest such point.
-/

namespace Resumable.Decimal

structure Scaled where
  digits : Nat
  expo : Int
  deriving Repr, DecidableEq

structure Window where
  low : Nat
  value : Nat
  high : Nat
  step : Nat
  closed : Bool

def Binary.window (b : Binary) (grid : Int) : Window :=
  let quarter := b.expo - 2
  let unit := Nat.pow 2 quarter.toNat * Nat.pow 10 (-grid).toNat
  { low := (4 * b.coeff - (if b.closeBelow then 1 else 2)) * unit
    value := 4 * b.coeff * unit
    high := (4 * b.coeff + 2) * unit
    step := Nat.pow 2 (-quarter).toNat * Nat.pow 10 grid.toNat
    closed := b.coeff % 2 == 0 }

def Window.holds (w : Window) (steps : Nat) : Bool :=
  let point := steps * w.step
  if w.closed then w.low ≤ point && point ≤ w.high else w.low < point && point < w.high

def Window.nearest? (w : Window) : Option Nat :=
  let below := w.value / w.step
  let above := below + 1
  match w.holds below, w.holds above with
  | true, true => some (if 2 * w.value < (below + above) * w.step then below else above)
  | true, false => some below
  | false, true => some above
  | false, false => none

def Binary.search (b : Binary) : Nat → Int → Option Scaled
  | 0, _ => none
  | tries + 1, grid =>
    match (b.window grid).nearest? with
    | some steps => if steps = 0 then b.search tries (grid - 1) else some ⟨steps, grid⟩
    | none => b.search tries (grid - 1)

def Binary.topGrid (b : Binary) : Int :=
  (b.coeff.log2 + 1 + b.expo) * 30103 / 100000 + 1

/--
The decimal with the fewest digits that reads back as a positive magnitude. Seventeen digits always
suffice; should the search end without a hit, the exact value is given.
-/
def Binary.shortest (b : Binary) : Scaled :=
  match b.search 24 b.topGrid with
  | some d => d
  | none => ⟨b.coeff * Nat.pow 2 b.expo.toNat * Nat.pow 5 (-b.expo).toNat, -(-b.expo).toNat⟩

end Resumable.Decimal
