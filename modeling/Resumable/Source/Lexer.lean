import Resumable.Source.ReadError
import Resumable.Decimal.Reader

/-!
This module contains the cutting of a text into tokens. Every function takes the characters that are
left together with the position of the first of them.
-/

namespace Resumable

def isDelimiter (c : Char) : Bool :=
  Text.isBlank c || ['(', ')', '[', ']', '\x7b', '\x7d', '\x27', '"', ';', ','].contains c

namespace Lexer

def skip (inComment : Bool) (p : Position) : List Char → Position × List Char
  | [] => (p, [])
  | c :: rest =>
    if inComment then skip (c != '\n') (p.advance c) rest
    else if Text.isBlank c || c == ',' then skip false (p.advance c) rest
    else if c == ';' then skip true (p.advance c) rest
    else (p, c :: rest)

def unescape : Char → Char
  | 'n' => '\n'
  | 't' => '\t'
  | 'r' => '\r'
  | c => c

def stringBody : List Char → Except ReadError.Cause (List Char × List Char)
  | [] => .error .unterminatedString
  | ['\\'] => .error .unterminatedEscape
  | '\\' :: c :: rest =>
    match stringBody rest with
    | .ok (text, left) => .ok (unescape c :: text, left)
    | .error cause => .error cause
  | c :: rest =>
    if c = '"' then .ok ([], rest)
    else
      match stringBody rest with
      | .ok (text, left) => .ok (c :: text, left)
      | .error cause => .error cause

def startsNumber : List Char → Bool
  | c :: d :: _ => c.isDigit || ((c == '-' || c == '+') && d.isDigit)
  | [c] => c.isDigit
  | [] => false

def number? (text : List Char) : Option Atom :=
  match Decimal.readInt64? text with
  | some n => some (.int n)
  | none =>
    if text.contains '.' || text.contains 'e' then (Decimal.readFloat? text).map .float else none

def word (text : List Char) : Atom :=
  match String.ofList text with
  | "nil" => .nil
  | "true" => .bool true
  | "false" => .bool false
  | name => .symbol name

def plainAtom (text : List Char) : Except ReadError.Cause Token :=
  if startsNumber text then
    match number? text with
    | some value => .ok (.atom value)
    | none => .error (.invalidNumber (String.ofList text))
  else
    .ok (.atom (word text))

def hashed : List Char → Except ReadError.Cause (Token × List Char)
  | '\x7b' :: rest => .ok (.opening .set, rest)
  | 't' :: rest => if atDelimiter rest then .ok (.atom (.bool true), rest) else .error .unknownHash
  | 'f' :: rest => if atDelimiter rest then .ok (.atom (.bool false), rest) else .error .unknownHash
  | _ => .error .unknownHash
where
  atDelimiter : List Char → Bool
    | [] => true
    | c :: _ => isDelimiter c

def token (c : Char) (rest : List Char) : Except ReadError.Cause (Token × List Char) :=
  match c with
  | '(' => .ok (.opening .list, rest)
  | ')' => .ok (.closing .round, rest)
  | '[' => .ok (.opening .vector, rest)
  | ']' => .ok (.closing .square, rest)
  | '\x7b' => .ok (.opening .map, rest)
  | '\x7d' => .ok (.closing .curly, rest)
  | '\x27' => .ok (.quote, rest)
  | '"' => do
    let (text, left) ← stringBody rest
    return (.atom (.string (String.ofList text)), left)
  | ':' =>
    let (name, left) := rest.span (!isDelimiter ·)
    if name.isEmpty then .error .namelessKeyword
    else .ok (.atom (.keyword (String.ofList name)), left)
  | '#' => hashed rest
  | c => do
    let (text, left) := (c :: rest).span (!isDelimiter ·)
    return (← plainAtom text, left)

def next (p : Position) (text : List Char) :
    Except ReadError (Option (Lexeme × Position × List Char)) :=
  match skip false p text with
  | (_, []) => .ok none
  | (p, c :: rest) =>
    match token c rest with
    | .error cause => .error (.atPosition p cause)
    | .ok (token, left) =>
      let q := p.advanceOver ((c :: rest).take (rest.length + 1 - left.length))
      .ok (some ({ token := token, start := p, stop := q.offset }, q, left))

def scan (p : Position) (text : List Char) : List Lexeme × Option ReadError :=
  go (text.length + 1) p text
where
  go : Nat → Position → List Char → List Lexeme × Option ReadError
    | 0, _, _ => ([], none)
    | rounds + 1, p, text =>
      match next p text with
      | .error e => ([], some e)
      | .ok none => ([], none)
      | .ok (some (lexeme, q, left)) =>
        let (lexemes, e) := go rounds q left
        (lexeme :: lexemes, e)

end Lexer

def tokens (text : String) : List Lexeme × Option ReadError :=
  Lexer.scan .start text.toList

end Resumable
