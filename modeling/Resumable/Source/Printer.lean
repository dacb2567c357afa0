import Resumable.Source.Token
import Resumable.Decimal.Numeral
import Resumable.Text.Quoted

/-!
This module contains the writing of forms. A form is written as the characters that read back as it,
with single spaces between the items of a group.
-/

namespace Resumable

def Atom.chars : Atom → List Char
  | .nil => ['n', 'i', 'l']
  | .bool true => ['t', 'r', 'u', 'e']
  | .bool false => ['f', 'a', 'l', 's', 'e']
  | .int n => Decimal.integer n.toInt
  | .float x => Decimal.ofLiteral x
  | .symbol name => name.toList
  | .keyword name => ':' :: name.toList
  | .string text => Text.quoteWith Text.escapeInForm text.toList

def Bracket.opener : Bracket → List Char
  | .list => ['(']
  | .vector => ['[']
  | .map => ['\x7b']
  | .set => ['#', '\x7b']

def Closer.char : Closer → Char
  | .round => ')'
  | .square => ']'
  | .curly => '\x7d'

namespace Form

mutual

def chars : Form → List Char
  | .atom value _ => value.chars
  | .group bracket items _ => bracket.opener ++ itemChars items ++ [bracket.closer.char]
  | .quote inner _ => '\x27' :: inner.chars

def itemChars : List Form → List Char
  | [] => []
  | [form] => form.chars
  | form :: rest => form.chars ++ ' ' :: itemChars rest

end

def render (form : Form) : String :=
  String.ofList form.chars

end Form

end Resumable
