import Resumable.Decimal.Shortest

/-!
This module contains the layouts in which numbers are written: without an exponent, and with one.
-/

namespace Resumable.Decimal

def digits (n : Nat) : List Char :=
  Nat.toDigits 10 n

def integer (n : Int) : List Char :=
  if n < 0 then '-' :: digits n.natAbs else digits n.natAbs

def positional (d : Scaled) (whole : List Char) : List Char :=
  let text := digits d.digits
  if 0 ≤ d.expo then
    text ++ List.replicate d.expo.toNat '0' ++ whole
  else
    let places := (-d.expo).toNat
    if places < text.length then
      text.take (text.length - places) ++ '.' :: text.drop (text.length - places)
    else
      '0' :: '.' :: List.replicate (places - text.length) '0' ++ text

def leading (d : Scaled) : Int :=
  d.expo + (digits d.digits).length - 1

def scientific (d : Scaled) : List Char :=
  let power := 'e' :: integer (leading d)
  match digits d.digits with
  | first :: second :: rest => first :: '.' :: second :: rest ++ power
  | text => text ++ power

def signed (x : Float) (magnitude : Binary → List Char) : List Char :=
  if x.isNaN then ['N', 'a', 'N']
  else
    let text := if x.isInf then ['i', 'n', 'f'] else magnitude (Binary.ofFloat x)
    if isNegative x then '-' :: text else text

def ofValue (x : Float) : List Char :=
  signed x fun b =>
    if b.isWhole then digits b.floor ++ ['.', '0'] else positional b.shortest []

def ofLiteral (x : Float) : List Char :=
  signed x fun b =>
    if b.coeff = 0 then ['0', '.', '0']
    else
      let d := b.shortest
      if -4 ≤ leading d ∧ leading d ≤ 15 then positional d ['.', '0'] else scientific d

end Resumable.Decimal
