import Resumable.Source.Form

/-!
This module contains expanders, which turn surface forms into core forms one step at a time.
-/

namespace Resumable

/--
A way to turn surface forms into core forms.
-/
structure Expander where
  expand : Nat → Form → Except String (Option (Form × Nat))
  depth : Form → Nat

mutual

def Form.height : Form → Nat
  | .atom _ _ => 1
  | .group _ items _ => 1 + heights items
  | .quote inner _ => 1 + inner.height

def heights : List Form → Nat
  | [] => 0
  | form :: rest => max form.height (heights rest)

end

structure Expansion where
  forms : List Form
  complaint : Option String
  temporaries : Nat

def Expander.expandAll (expander : Expander) (temporaries : Nat) (form : Form) :
    Nat → Expansion
  | 0 => { forms := [], complaint := none, temporaries := temporaries }
  | rounds + 1 =>
    match expander.expand temporaries form with
    | .error complaint =>
      { forms := [], complaint := some complaint, temporaries := temporaries }
    | .ok none => { forms := [], complaint := none, temporaries := temporaries }
    | .ok (some (next, temporaries)) =>
      let rest := expander.expandAll temporaries next rounds
      { rest with forms := next :: rest.forms }

def Expander.core : Expander where
  expand _ _ := .ok none
  depth := Form.height

end Resumable
