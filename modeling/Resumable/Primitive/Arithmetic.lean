import Resumable.Number.Word
import Resumable.Number.Remainder
import Resumable.Value.Fault

/-!
This module contains arithmetic on values. Two integers give the exact integer or a fault; if one of
the operands is a double, so is the result.
-/

namespace Resumable

structure Operation where
  name : String
  onInts : Int64 → Int64 → Option Int64
  onFloats : Float → Float → Float
  refusesZero : Bool := false

def Value.number (operation : String) (value : Value) : Except Fault Float :=
  match value.float? with
  | some x => .ok x
  | none => .error (.wrongType s!"{operation}: expected number, got {value.typeName}")

namespace Operation

def add : Operation :=
  { name := "+", onInts := Number.add?, onFloats := (· + ·) }

def sub : Operation :=
  { name := "-", onInts := Number.sub?, onFloats := (· - ·) }

def mul : Operation :=
  { name := "*", onInts := Number.mul?, onFloats := (· * ·) }

def div : Operation :=
  { name := "/", onInts := Number.div?, onFloats := (· / ·), refusesZero := true }

def mod : Operation :=
  { name := "mod", onInts := Number.mod?, onFloats := Number.floorMod, refusesZero := true }

def isZero : Value → Bool
  | .int n => n.toInt == 0
  | _ => false

def apply (operation : Operation) (a b : Value) : Except Fault Value :=
  if operation.refusesZero && isZero b then .error (.divisionByZero operation.name)
  else
    match a, b with
    | .int x, .int y =>
      match operation.onInts x y with
      | some n => .ok (.int n)
      | none => .error (.overflow operation.name)
    | a, b => do
      let x ← a.number operation.name
      let y ← b.number operation.name
      return .float (operation.onFloats x y)

def fold (operation : Operation) (start : Value) (values : List Value) : Except Fault Value :=
  values.foldlM operation.apply start

end Operation

def Value.negate : Value → Except Fault Value
  | .int n =>
    match Number.neg? n with
    | some n => .ok (.int n)
    | none => .error (.overflow "-")
  | .float x => .ok (.float (-x))
  | value => (value.number "-").map .float

def Primitive.difference : List Value → Except Fault Value
  | [] => .error (.arity "-" (.atLeast 1) 0)
  | [only] => only.negate
  | a :: b :: more => Operation.sub.fold a (b :: more)

def Primitive.quotient : List Value → Except Fault Value
  | [] => .error (.arity "/" (.atLeast 1) 0)
  | [only] => Operation.div.apply (.int 1) only
  | a :: b :: more => Operation.div.fold a (b :: more)

end Resumable
