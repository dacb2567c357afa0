import Resumable.Primitive.Basic
import Resumable.Scope.Aliases
import Resumable.Sugar.Expander

/-!
This module contains run-time values. Things with an identity of their own are held by number: a
record by its place on the heap, a machine by its place in the host, and a callable by a tag that no
other callable of the host has.
-/

namespace Resumable

/--
A function as it was written, with what is needed to compile its body: the names it captures from
the scope around it, and the rules of the compilation it belongs to.
-/
structure Lambda where
  name : Option String
  params : List String
  captures : List String
  body : List Form
  aliases : Aliases
  expander : Expander
  span : Span

namespace Lambda

def label (lambda : Lambda) : String :=
  lambda.name.getD "fn"

def machineParams (lambda : Lambda) : List String :=
  lambda.captures ++ lambda.name.toList ++ lambda.params

end Lambda

inductive HostFunction where
  | builtIn (primitive : Primitive)
  | foreign (name : String) (arity : Arity) (number : Nat)

def HostFunction.name : HostFunction → String
  | .builtIn primitive => primitive.name
  | .foreign name _ _ => name

/--
A run-time value. Maps and sets keep the order in which their keys and members arrived.
-/
inductive Value where
  | nil
  | bool (b : Bool)
  | int (n : Int64)
  | float (x : Float)
  | string (text : String)
  | keyword (name : String)
  | symbol (name : String)
  | list (items : List Value)
  | vector (items : List Value)
  | map (entries : List (Value × Value))
  | set (members : List Value)
  | record (ref : Nat)
  | error (kind message : String) (data : Value)
  | native (tag : Nat) (function : HostFunction)
  | closure (tag : Nat) (lambda : Lambda) (captured : List Value)
  | machine (ref : Nat) (name : String)
  deriving Inhabited

namespace Value

def isNil : Value → Bool
  | .nil => true
  | _ => false

def isTruthy : Value → Bool
  | .nil => false
  | .bool false => false
  | _ => true

def int? : Value → Option Int64
  | .int n => some n
  | _ => none

def float? : Value → Option Float
  | .float x => some x
  | .int n => some n.toFloat
  | _ => none

def elements? : Value → Option (List Value)
  | .list items => some items
  | .vector items => some items
  | .set members => some members
  | _ => none

def isCallable : Value → Bool
  | .native _ _ => true
  | .closure _ _ _ => true
  | .keyword _ => true
  | .map _ => true
  | _ => false

def typeName : Value → String
  | .nil => "nil"
  | .bool _ => "boolean"
  | .int _ => "integer"
  | .float _ => "float"
  | .string _ => "string"
  | .keyword _ => "keyword"
  | .symbol _ => "symbol"
  | .list _ => "list"
  | .vector _ => "vector"
  | .map _ => "map"
  | .set _ => "set"
  | .record _ => "record"
  | .error _ _ _ => "error"
  | .native _ _ => "function"
  | .closure _ _ _ => "function"
  | .machine _ _ => "machine"

def errorKind? : Value → Option String
  | .error kind _ _ => some kind
  | _ => none

end Value

end Resumable
