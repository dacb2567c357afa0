import Resumable.Table

/-!
This module contains aliases: other names under which the head of a call is known.
-/

namespace Resumable

/--
The aliases of a compilation.
-/
structure Aliases where
  table : Table String String := {}
  deriving Inhabited

namespace Aliases

def add (aliases : Aliases) (name target : String) : Aliases :=
  ⟨aliases.table.insert name target⟩

def ofList (entries : List (String × String)) : Aliases :=
  ⟨.ofList entries⟩

def resolve (aliases : Aliases) (name : String) : String :=
  go (aliases.table.size + 1) name
where
  go : Nat → String → String
    | 0, name => name
    | rounds + 1, name =>
      match aliases.table.get? name with
      | some target => if target = name then name else go rounds target
      | none => name

end Aliases

end Resumable
