/-!
This module contains the exact reading of a double: its sign and the natural number times a power of
two that it stands for.
-/

namespace Resumable.Decimal

structure Binary where
  coeff : Nat
  expo : Int
  closeBelow : Bool
  deriving Repr, DecidableEq

def isNegative (x : Float) : Bool :=
  x.toBits >>> 63 == 1

def Binary.ofFloat (x : Float) : Binary :=
  let field := ((x.toBits >>> 52) &&& 0x7FF).toNat
  let fraction := (x.toBits &&& 0xFFFFFFFFFFFFF).toNat
  if field = 0 then
    { coeff := fraction, expo := -1074, closeBelow := false }
  else
    { coeff := 0x10000000000000 + fraction, expo := field - 1075,
      closeBelow := decide (fraction = 0 ∧ 1 < field) }

def Binary.floor (b : Binary) : Nat :=
  b.coeff * Nat.pow 2 b.expo.toNat / Nat.pow 2 (-b.expo).toNat

def Binary.isWhole (b : Binary) : Bool :=
  b.coeff * Nat.pow 2 b.expo.toNat % Nat.pow 2 (-b.expo).toNat == 0

end Resumable.Decimal
