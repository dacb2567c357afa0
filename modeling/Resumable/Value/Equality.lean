import Resumable.Value.Basic

/-!
This module contains equality of values. Numbers of different types differ, lists and vectors are
compared by their elements alone, maps and sets regardless of order, and everything with an identity
by that identity.
-/

namespace Resumable.Value

mutual

/--
Whether two values are equal.
-/
def beq : Value → Value → Bool
  | .nil, .nil => true
  | .bool a, .bool b => a == b
  | .int a, .int b => a == b
  | .float a, .float b => a == b
  | .string a, .string b => a == b
  | .keyword a, .keyword b => a == b
  | .symbol a, .symbol b => a == b
  | .list a, .list b => beqItems a b
  | .list a, .vector b => beqItems a b
  | .vector a, .list b => beqItems a b
  | .vector a, .vector b => beqItems a b
  | .map a, .map b => a.length == b.length && entriesWithin a b
  | .set a, .set b => a.length == b.length && membersWithin a b
  | .error kind message data, .error kind' message' data' =>
    kind == kind' && message == message' && beq data data'
  | .record a, .record b => a == b
  | .native a _, .native b _ => a == b
  | .closure a _ _, .closure b _ _ => a == b
  | .machine a _, .machine b _ => a == b
  | _, _ => false

def beqItems : List Value → List Value → Bool
  | [], [] => true
  | a :: as, b :: bs => beq a b && beqItems as bs
  | _, _ => false

def entriesWithin : List (Value × Value) → List (Value × Value) → Bool
  | [], _ => true
  | (k, v) :: rest, other =>
    other.any (fun entry => beq k entry.1 && beq v entry.2) && entriesWithin rest other

def membersWithin : List Value → List Value → Bool
  | [], _ => true
  | a :: rest, other => other.any (fun b => beq a b) && membersWithin rest other

end

instance : BEq Value where
  beq := beq

end Resumable.Value
