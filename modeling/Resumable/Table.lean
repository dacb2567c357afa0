/-!
This module contains finite tables whose entries are kept in ascending order of their keys.
-/

namespace Resumable

/--
A finite table from `κ` to `α`, one entry per key, smallest key first.
-/
structure Table (κ α : Type) where
  entries : List (κ × α) := []
  deriving Inhabited

namespace Table

variable {κ α : Type} [DecidableEq κ]

def get? (table : Table κ α) (key : κ) : Option α :=
  go table.entries
where
  go : List (κ × α) → Option α
    | [] => none
    | (k, a) :: rest => if k = key then some a else go rest

def size (table : Table κ α) : Nat :=
  table.entries.length

def insert [LT κ] [DecidableLT κ] (table : Table κ α) (key : κ) (a : α) : Table κ α :=
  ⟨go table.entries⟩
where
  go : List (κ × α) → List (κ × α)
    | [] => [(key, a)]
    | (k, b) :: rest =>
      if k = key then (key, a) :: rest
      else if key < k then (key, a) :: (k, b) :: rest
      else (k, b) :: go rest

def ofList [LT κ] [DecidableLT κ] (entries : List (κ × α)) : Table κ α :=
  entries.foldl (fun table (key, a) => table.insert key a) {}

end Table

end Resumable
