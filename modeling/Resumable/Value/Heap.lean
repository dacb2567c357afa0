import Resumable.Value.Collection

/-!
This module contains records, the one kind of value that can change, and the heap they live on,
together with everything about values that looks into a record.
-/

namespace Resumable

/--
A record: fields under a type name. Of two fields with one name only the first is ever seen.
-/
structure Record where
  typeName : String
  fields : List (String × Value)
  deriving Inhabited

namespace Record

def field? (record : Record) (name : String) : Option Value :=
  record.fields.lookup name

def setField (record : Record) (name : String) (value : Value) : Record :=
  { record with fields := go record.fields }
where
  go : List (String × Value) → List (String × Value)
    | [] => [(name, value)]
    | (n, v) :: rest => if n = name then (n, value) :: rest else (n, v) :: go rest

end Record

structure Heap where
  records : Array Record := #[]
  deriving Inhabited

namespace Heap

def record (heap : Heap) (ref : Nat) : Record :=
  heap.records.getD ref default

def allocate (heap : Heap) (record : Record) : Nat × Heap :=
  (heap.records.size, { records := heap.records.push record })

def setField (heap : Heap) (ref : Nat) (name : String) (value : Value) : Heap :=
  { records := heap.records.modify ref (·.setField name value) }

def get (heap : Heap) (collection key : Value) : Value :=
  match collection, key with
  | .map entries, key => (Value.findEntry? entries key).getD .nil
  | .record ref, .keyword name => ((heap.record ref).field? name).getD .nil
  | .record ref, .string name => ((heap.record ref).field? name).getD .nil
  | .vector items, .int i => if i < 0 then .nil else items.getD i.toInt.toNat .nil
  | .list items, .int i => if i < 0 then .nil else items.getD i.toInt.toNat .nil
  | .set members, key => if Value.isMember members key then key else .nil
  | _, _ => .nil

def isInstance (heap : Heap) (value : Value) (type : String) : Bool :=
  match value with
  | .error kind _ _ => type == "error" || kind == type
  | .record ref => (heap.record ref).typeName == type
  | other => other.typeName == type

end Heap

end Resumable
