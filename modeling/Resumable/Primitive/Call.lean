import Resumable.Primitive.Collection
import Resumable.Primitive.Comparison
import Resumable.Value.Store

/-!
This module contains the calling of primitives.
-/

namespace Resumable.Primitive

def nameOf? : Value → Option String
  | .keyword name => some name
  | .symbol name => some name
  | .string name => some name
  | _ => none

def makeError (heap : Heap) (kind : Value) (message : Option Value) (data : Value) :
    Except Fault Value :=
  match nameOf? kind with
  | some kind => .ok (.error kind ((message.map heap.display).getD "") data)
  | none => .error (.wrongType s!"error: kind must be a keyword, got {kind.typeName}")

def recordFields : List Value → Except Fault (List (String × Value))
  | name :: value :: more =>
    match nameOf? name with
    | some name => return (name, value) :: (← recordFields more)
    | none => .error (.wrongType s!"record: field name must be a keyword, got {name.typeName}")
  | _ => .ok []

def makeRecord (type : Value) (fields : List Value) : Except Fault Record :=
  match nameOf? type with
  | none => .error (.wrongType s!"record: type name must be a symbol, got {type.typeName}")
  | some typeName =>
    if fields.length % 2 ≠ 0 then
      .error (.oddArguments "record: expected alternating field names and values")
    else
      return { typeName := typeName, fields := ← recordFields fields }

def errorParts (caller : String) : Value → Except Fault (String × String × Value)
  | .error kind message data => .ok (kind, message, data)
  | other => .error (.wrongType s!"{caller}: expected error, got {other.typeName}")

def apply (p : Primitive) (args : List Value) : Action Value := do
  match p, args with
  | .add, args => .ofExcept (Operation.add.fold (.int 0) args)
  | .sub, args => .ofExcept (difference args)
  | .mul, args => .ofExcept (Operation.mul.fold (.int 1) args)
  | .div, args => .ofExcept (quotient args)
  | .mod, [a, b] => .ofExcept (Operation.mod.apply a b)
  | .inc, [a] => .ofExcept (Operation.add.apply a (.int 1))
  | .dec, [a] => .ofExcept (Operation.sub.apply a (.int 1))
  | .vector, args => return .vector args
  | .list, args => return .list args
  | .hashMap, args => .ofExcept (hashMapOf args)
  | .hashSet, args => return .ofMembers args
  | .get, [collection, key] => return (← Action.heap).get collection key
  | .get, [collection, key, default] =>
    let found := (← Action.heap).get collection key
    return if found.isNil then default else found
  | .count, [a] => .ofExcept (size a)
  | .conj, collection :: items => .ofExcept (conjTo collection items)
  | .first, [a] => return (← Action.ofExcept (sequence "first" a)).headD .nil
  | .rest, [a] => return .list (← Action.ofExcept (sequence "rest" a)).tail
  | .equal, args => return .bool (betweenNeighbours (· == ·) args)
  | .notEqual, [a, b] => return .bool (!(a == b))
  | .less, args => return .bool (← .ofExcept (ordered "<" (· == .lt) args))
  | .greater, args => return .bool (← .ofExcept (ordered ">" (· == .gt) args))
  | .atMost, args => return .bool (← .ofExcept (ordered "<=" (· != .gt) args))
  | .atLeast, args => return .bool (← .ofExcept (ordered ">=" (· != .lt) args))
  | .throw, [a] =>
    if a.isNil then .raise (.wrongType "throw: cannot throw nil") else .throwValue a
  | .error, [kind] => .ofExcept (makeError (← Action.heap) kind none .nil)
  | .error, [kind, message] => .ofExcept (makeError (← Action.heap) kind (some message) .nil)
  | .error, [kind, message, data] =>
    .ofExcept (makeError (← Action.heap) kind (some message) data)
  | .exKind, [a] => return .keyword (← Action.ofExcept (errorParts "ex-kind" a)).1
  | .exMessage, [a] => return .string (← Action.ofExcept (errorParts "ex-message" a)).2.1
  | .exData, [a] => return (← Action.ofExcept (errorParts "ex-data" a)).2.2
  | .str, args =>
    let heap ← Action.heap
    return .string (String.join ((args.filter (!·.isNil)).map heap.display))
  | .not, [a] => return .bool (!a.isTruthy)
  | .isNil, [a] => return .bool a.isNil
  | .typeOf, [a] => return .keyword a.typeName
  | .record, type :: fields => .newRecord (← .ofExcept (makeRecord type fields))
  | .println, args =>
    let heap ← Action.heap
    Action.printLine (" ".intercalate (args.map heap.display))
    return .nil
  | p, args => .raise (.arity p.name p.signature.arity args.length)

def call (p : Primitive) (args : List Value) : Action Value := do
  .ofExcept (p.signature.arity.check p.name args.length)
  p.apply args

end Resumable.Primitive
