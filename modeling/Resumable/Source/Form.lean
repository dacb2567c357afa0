import Resumable.Source.Span

/-!
This module contains the forms that programs are written in: atoms, bracketed groups and quotations,
each with the span it was read from.
-/

namespace Resumable

inductive Atom where
  | nil
  | bool (value : Bool)
  | int (value : Int64)
  | float (value : Float)
  | symbol (name : String)
  | keyword (name : String)
  | string (text : String)
  deriving Inhabited

inductive Bracket where
  | list
  | vector
  | map
  | set
  deriving Repr, DecidableEq

/--
A source form. The children of a map are its keys and values in turn.
-/
inductive Form where
  | atom (value : Atom) (span : Span)
  | group (bracket : Bracket) (items : List Form) (span : Span)
  | quote (inner : Form) (span : Span)
  deriving Inhabited

namespace Form

def span : Form → Span
  | .atom _ span => span
  | .group _ _ span => span
  | .quote _ span => span

@[match_pattern]
abbrev symbol (name : String) (span : Span) : Form :=
  .atom (.symbol name) span

@[match_pattern]
abbrev list (items : List Form) (span : Span) : Form :=
  .group .list items span

@[match_pattern]
abbrev vector (items : List Form) (span : Span) : Form :=
  .group .vector items span

def symbol? : Form → Option String
  | .symbol name _ => some name
  | _ => none

def keyword? : Form → Option String
  | .atom (.keyword name) _ => some name
  | _ => none

def vector? : Form → Option (List Form)
  | .vector items _ => some items
  | _ => none

def head? (form : Form) : Option String :=
  match form with
  | .list (head :: _) _ => head.symbol?
  | _ => none

def isSelfEvaluating : Form → Bool
  | .atom (.symbol _) _ => false
  | .atom _ _ => true
  | _ => false

end Form

end Resumable
