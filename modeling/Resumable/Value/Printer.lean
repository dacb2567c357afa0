import Resumable.Value.Heap
import Resumable.Decimal.Numeral
import Resumable.Text.Quoted

/-!
This module contains the writing of values. A string by itself is shown bare, a string inside of a
collection is always quoted.
-/

namespace Resumable

namespace Value

mutual

def write (recordText : Nat → String) : Value → String
  | .nil => "nil"
  | .bool b => if b then "true" else "false"
  | .int n => String.ofList (Decimal.integer n.toInt)
  | .float x => String.ofList (Decimal.ofValue x)
  | .string text => Text.quoteValue text
  | .keyword name => ":" ++ name
  | .symbol name => name
  | .list items => "(" ++ " ".intercalate (writeItems recordText items) ++ ")"
  | .vector items => "[" ++ " ".intercalate (writeItems recordText items) ++ "]"
  | .set members => "#\x7b" ++ " ".intercalate (writeItems recordText members) ++ "\x7d"
  | .map entries => "\x7b" ++ " ".intercalate (writeEntries recordText entries) ++ "\x7d"
  | .record ref => recordText ref
  | .error kind message _ => kind ++ ": " ++ message
  | .native _ function => "#<native " ++ function.name ++ ">"
  | .closure _ lambda _ =>
    match lambda.name with
    | some name => "<closure " ++ name ++ ">"
    | none => "<closure>"
  | .machine _ name => "<machine " ++ name ++ ">"

def writeItems (recordText : Nat → String) : List Value → List String
  | [] => []
  | value :: rest => write recordText value :: writeItems recordText rest

def writeEntries (recordText : Nat → String) : List (Value × Value) → List String
  | [] => []
  | (key, value) :: rest =>
    (write recordText key ++ " " ++ write recordText value) :: writeEntries recordText rest

end

end Value

namespace Heap

def writeRecord (heap : Heap) : Nat → Nat → String
  | 0, _ => "..."
  | levels + 1, ref =>
    let record := heap.record ref
    let shown := record.fields.filterMap fun (name, _) =>
      match record.field? name with
      | some value =>
        if value.isCallable then none
        else some (" " ++ name ++ "=" ++ value.write (heap.writeRecord levels))
      | none => none
    "#<" ++ record.typeName ++ String.join shown ++ ">"

def write (heap : Heap) (value : Value) : String :=
  value.write (heap.writeRecord heap.records.size)

def display (heap : Heap) (value : Value) : String :=
  match value with
  | .string text => text
  | other => heap.write other

end Heap

end Resumable
