import Resumable.Table

/-!
This module contains the call sites that suspend a machine: which names they have, and which handler
each of them goes to.
-/

namespace Resumable

structure Terminators where
  table : Table String String := {}
  deriving Inhabited

namespace Terminators

def ofList (entries : List (String × String)) : Terminators :=
  ⟨.ofList entries⟩

def add (terminators : Terminators) (site handler : String) : Terminators :=
  ⟨terminators.table.insert site handler⟩

def handler? (terminators : Terminators) (site : String) : Option String :=
  terminators.table.get? site

def returnHandler? (terminators : Terminators) : Option String :=
  terminators.handler? "return"

def handlerNames (terminators : Terminators) : List String :=
  terminators.table.entries.map (·.2)

def isEmpty (terminators : Terminators) : Bool :=
  terminators.table.entries.isEmpty

end Terminators

end Resumable
