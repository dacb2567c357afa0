import Resumable.Number.Word

/-!
This module contains the reading of numerals. A text is a 64-bit integer, or else a decimal fraction
with an optional exponent, which is rounded to the nearest double.
-/

namespace Resumable.Decimal

def digitsValue (text : List Char) : Nat :=
  text.foldl (fun n c => 10 * n + (c.toNat - '0'.toNat)) 0

def splitSign : List Char → Bool × List Char
  | '-' :: rest => (true, rest)
  | '+' :: rest => (false, rest)
  | text => (false, text)

def readInt? (text : List Char) : Option Int :=
  let (minus, body) := splitSign text
  if body.isEmpty || !body.all Char.isDigit then none
  else if minus then some (-(digitsValue body : Int)) else some (digitsValue body)

def readInt64? (text : List Char) : Option Int64 :=
  (readInt? text).bind Number.toWord?

def toFloat (n : Nat) (expo : Int) : Float :=
  let top := expo + (Nat.toDigits 10 n).length
  if n = 0 ∨ top < -400 then 0.0
  else if 400 < top then 1.0 / 0.0
  else Float.ofScientific n (expo < 0) expo.natAbs

def readExponent? : List Char → Option Int
  | [] => some 0
  | c :: rest => if c = 'e' ∨ c = 'E' then readInt? rest else none

def readFloat? (text : List Char) : Option Float :=
  let (minus, body) := splitSign text
  let (whole, rest) := body.span Char.isDigit
  let (places, rest) :=
    match rest with
    | '.' :: rest => rest.span Char.isDigit
    | rest => ([], rest)
  if whole.isEmpty && places.isEmpty then none
  else
    match readExponent? rest with
    | none => none
    | some expo =>
      let x := toFloat (digitsValue (whole ++ places)) (expo - places.length)
      some (if minus then -x else x)

end Resumable.Decimal
