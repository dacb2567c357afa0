/-!
This module contains exact arithmetic on 64-bit signed integers: every operation gives the exact
result, or nothing if that is out of range.
-/

namespace Resumable.Number

def toWord? (n : Int) : Option Int64 :=
  if Int64.minValue.toInt ≤ n ∧ n ≤ Int64.maxValue.toInt then some (Int64.ofInt n) else none

def add? (a b : Int64) : Option Int64 :=
  toWord? (a.toInt + b.toInt)

def sub? (a b : Int64) : Option Int64 :=
  toWord? (a.toInt - b.toInt)

def mul? (a b : Int64) : Option Int64 :=
  toWord? (a.toInt * b.toInt)

def div? (a b : Int64) : Option Int64 :=
  if b.toInt = 0 then none else toWord? (a.toInt.tdiv b.toInt)

def rem? (a b : Int64) : Option Int64 :=
  (div? a b).bind fun _ => toWord? (a.toInt.tmod b.toInt)

def mod? (a b : Int64) : Option Int64 :=
  (rem? a b).bind fun r =>
    if r.toInt ≠ 0 ∧ decide (0 < r.toInt) ≠ decide (0 < b.toInt) then add? r b else some r

def neg? (a : Int64) : Option Int64 :=
  toWord? (-a.toInt)

end Resumable.Number
