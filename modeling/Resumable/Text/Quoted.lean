import Resumable.Text.Hidden

/-!
This module contains the two ways in which a string is written between double quotes. A string that
is a run-time value keeps every character that can be seen; a string inside a source form is written
in printable ASCII alone.
-/

namespace Resumable.Text

def codePointEscape (c : Char) : List Char :=
  ['\\', 'u', '\x7b'] ++ Nat.toDigits 16 c.toNat ++ ['\x7d']

def letterEscape? (c : Char) : Option (List Char) :=
  match c with
  | '\t' => some ['\\', 't']
  | '\r' => some ['\\', 'r']
  | '\n' => some ['\\', 'n']
  | '"' => some ['\\', '"']
  | '\\' => some ['\\', '\\']
  | _ => none

def escapeInValue (c : Char) : List Char :=
  match letterEscape? c with
  | some escape => escape
  | none =>
    if c.toNat = 0 then ['\\', '0']
    else if isHidden c then codePointEscape c
    else [c]

def escapeInForm (c : Char) : List Char :=
  match letterEscape? c with
  | some escape => escape
  | none =>
    if c = '\x27' then ['\\', '\x27']
    else if 0x20 ≤ c.toNat ∧ c.toNat ≤ 0x7E then [c]
    else codePointEscape c

def quoteWith (escape : Char → List Char) (text : List Char) : List Char :=
  '"' :: text.flatMap escape ++ ['"']

def quoteValue (text : String) : String :=
  String.ofList (quoteWith escapeInValue text.toList)

end Resumable.Text
