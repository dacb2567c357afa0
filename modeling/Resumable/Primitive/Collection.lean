import Resumable.Value.Collection
import Resumable.Value.Fault

/-!
This module contains the primitives on collections that need no record.
-/

namespace Resumable.Primitive

def hashMapOf (args : List Value) : Except Fault Value :=
  if args.length % 2 ≠ 0 then
    .error (.oddArguments
      s!"hash-map: expected an even number of arguments, got {args.length}")
  else
    .ok (.ofEntries (pairUp .nil args))

def size (value : Value) : Except Fault Value :=
  match value with
  | .nil => .ok (.int 0)
  | .string text => .ok (.int (Int64.ofNat text.length))
  | .map entries => .ok (.int (Int64.ofNat entries.length))
  | other =>
    match other.elements? with
    | some items => .ok (.int (Int64.ofNat items.length))
    | none => .error (.wrongType s!"count: expected collection, got {other.typeName}")

def conjEntry (entries : List (Value × Value)) (item : Value) :
    Except Fault (List (Value × Value)) :=
  match item.elements? with
  | some [key, value] => .ok (entries.filter (fun entry => !(entry.1 == key)) ++ [(key, value)])
  | _ => .error (.wrongType "conj: map entries must be [key value]")

def conjTo (collection : Value) (items : List Value) : Except Fault Value :=
  match collection with
  | .nil => .ok (.list items.reverse)
  | .vector existing => .ok (.vector (existing ++ items))
  | .list existing => .ok (.list (items.reverse ++ existing))
  | .set existing => .ok (.ofMembers (existing ++ items))
  | .map existing => return .ofEntries (← items.foldlM conjEntry existing)
  | other => .error (.wrongType s!"conj: expected collection, got {other.typeName}")

def sequence (caller : String) (value : Value) : Except Fault (List Value) :=
  match value with
  | .nil => .ok []
  | other =>
    match other.elements? with
    | some items => .ok items
    | none => .error (.wrongType s!"{caller}: expected sequence, got {other.typeName}")

end Resumable.Primitive
