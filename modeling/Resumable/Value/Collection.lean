import Resumable.Value.Equality

/-!
This module contains the building of maps and sets, which never hold two equal keys or members, and
the data that a quoted form stands for.
-/

namespace Resumable

def pairUp {α : Type} (filler : α) : List α → List (α × α)
  | [] => []
  | [a] => [(a, filler)]
  | a :: b :: rest => (a, b) :: pairUp filler rest

namespace Value

def setEntry (entries : List (Value × Value)) (key value : Value) : List (Value × Value) :=
  match entries with
  | [] => [(key, value)]
  | (k, v) :: rest =>
    if k == key then (k, value) :: rest else (k, v) :: setEntry rest key value

def findEntry? (entries : List (Value × Value)) (key : Value) : Option Value :=
  (entries.find? (fun entry => entry.1 == key)).map (·.2)

def isMember (members : List Value) (value : Value) : Bool :=
  members.any (· == value)

def addMember (members : List Value) (value : Value) : List Value :=
  if isMember members value then members else members ++ [value]

def ofEntries (entries : List (Value × Value)) : Value :=
  .map (entries.foldl (fun entries (key, value) => setEntry entries key value) [])

def ofMembers (members : List Value) : Value :=
  .set (members.foldl addMember [])

end Value

def Atom.toValue : Atom → Value
  | .nil => .nil
  | .bool b => .bool b
  | .int n => .int n
  | .float x => .float x
  | .symbol name => .symbol name
  | .keyword name => .keyword name
  | .string text => .string text

def Bracket.toValue : Bracket → List Value → Value
  | .list, items => .list items
  | .vector, items => .vector items
  | .map, items => .ofEntries (pairUp .nil items)
  | .set, items => .ofMembers items

namespace Form

mutual

def toValue : Form → Value
  | .atom value _ => value.toValue
  | .group bracket items _ => bracket.toValue (toValues items)
  | .quote inner _ => .list [.symbol "quote", inner.toValue]

def toValues : List Form → List Value
  | [] => []
  | form :: rest => form.toValue :: toValues rest

end

end Form

end Resumable
