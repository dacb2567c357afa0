import Resumable.Source.Lexer

/-!
This module contains the reading of forms from tokens. The groups and quotations that are open at a
token are kept on a stack, innermost first, so reading is a single pass over the tokens.
-/

namespace Resumable

namespace Reader

inductive Frame where
  | group (bracket : Bracket) (start : Position) (items : List Form)
  | quote (start : Position)

inductive Progress where
  | pending (stack : List Frame)
  | complete (form : Form)

def place (form : Form) : List Frame → Progress
  | [] => .complete form
  | .quote start :: stack => place (.quote form (.between start form.span.stop)) stack
  | .group bracket start items :: stack => .pending (.group bracket start (form :: items) :: stack)

def close (closer : Closer) (lexeme : Lexeme) : List Frame → Except ReadError Progress
  | .group bracket start items :: stack =>
    if bracket.closer ≠ closer then .error (.atPosition lexeme.start .unexpectedCloser)
    else if bracket = .map ∧ items.length % 2 ≠ 0 then .error (.atPosition start .oddMap)
    else .ok (place (.group bracket items.reverse (.between start lexeme.stop)) stack)
  | _ => .error (.atPosition lexeme.start .unexpectedCloser)

def feed (stack : List Frame) (lexeme : Lexeme) : Except ReadError Progress :=
  match lexeme.token with
  | .atom value => .ok (place (.atom value lexeme.span) stack)
  | .opening bracket => .ok (.pending (.group bracket lexeme.start [] :: stack))
  | .quote => .ok (.pending (.quote lexeme.start :: stack))
  | .closing closer => close closer lexeme stack

def unfinished : List Frame → ReadError
  | .group bracket start _ :: _ => .atPosition start (.unterminatedGroup bracket)
  | .quote start :: _ => .atPosition start .unexpectedEnd
  | [] => .atPosition .start .unexpectedEnd

def one : List Frame → List Lexeme → Except ReadError (Form × List Lexeme)
  | stack, [] => .error (unfinished stack)
  | stack, lexeme :: rest =>
    match feed stack lexeme with
    | .error e => .error e
    | .ok (.complete form) => .ok (form, rest)
    | .ok (.pending stack) => one stack rest

def all : List Frame → List Lexeme → Except ReadError (List Form)
  | [], [] => .ok []
  | stack, [] => .error (unfinished stack)
  | stack, lexeme :: rest =>
    match feed stack lexeme with
    | .error e => .error e
    | .ok (.pending stack) => all stack rest
    | .ok (.complete form) =>
      match all [] rest with
      | .error e => .error e
      | .ok forms => .ok (form :: forms)

end Reader

def withoutInterpreterLine : List Char → List Char
  | '#' :: '!' :: rest => rest.dropWhile (· != '\n')
  | text => text

def programTokens (text : String) : Except ReadError (List Lexeme) :=
  match Lexer.scan .start (withoutInterpreterLine text.toList) with
  | (lexemes, none) => .ok lexemes
  | (_, some e) => .error e

def readForms (text : String) : Except ReadError (List Form) := do
  Reader.all [] (← programTokens text)

/--
Read a text that holds exactly one form.
-/
def readForm (text : String) : Except ReadError Form := do
  let (form, rest) ← Reader.one [] (← programTokens text)
  if rest.isEmpty then
    return form
  else
    let (extra, _) ← Reader.one [] rest
    throw { line := extra.span.line, col := extra.span.col, cause := .trailingForm extra }

end Resumable
