import Resumable.Sugar.Expander
import Resumable.Source.Printer

/-!
This module contains the stock sugar: conditionals, the short-circuiting connectives, and threading
of a value through calls. Every new list carries the span of the form it replaces.
-/

namespace Resumable

namespace Sugar

def call (name : String) (args : List Form) (span : Span) : Form :=
  .list (.symbol name span :: args) span

def nilForm (span : Span) : Form :=
  .atom .nil span

def complain {α : Type} (span : Span) (message : String) : Except String α :=
  .error s!"{span.render}: {message}"

def whenForm (name : String) (negated : Bool) (args : List Form) (span : Span) :
    Except String Form :=
  match args with
  | [] => complain span s!"{name} requires a test"
  | test :: body =>
    let body := call "do" body span
    if negated then .ok (call "if" [test, nilForm span, body] span)
    else .ok (call "if" [test, body, nilForm span] span)

def ifNot (args : List Form) (span : Span) : Except String Form :=
  match args with
  | [test, a] => .ok (call "if" [test, nilForm span, a] span)
  | [test, a, b] => .ok (call "if" [test, b, a] span)
  | _ => complain span "if-not requires a test and one or two branches"

def cond (args : List Form) (span : Span) : Except String Form :=
  if args.length % 2 ≠ 0 then complain span "cond requires an even number of forms"
  else
    match args with
    | test :: branch :: rest => .ok (call "if" [test, branch, call "cond" rest span] span)
    | _ => .ok (nilForm span)

/--
The name of a temporary.
-/
def temporary (name : String) (count : Nat) : String :=
  s!"{name}__{count}"

def shortCircuit (conjunction : Bool) (count : Nat) (args : List Form) (span : Span) :
    Form × Nat :=
  match args with
  | [] => (if conjunction then .atom (.bool true) span else nilForm span, count)
  | [only] => (only, count)
  | first :: rest =>
    let name := if conjunction then "and" else "or"
    let temp := Form.symbol (temporary name count) span
    let rest := call name rest span
    let choice := if conjunction then [temp, rest, temp] else [temp, temp, rest]
    (call "let" [.vector [temp, first] span, call "if" choice span] span, count + 1)

def threadStep (last : Bool) (span : Span) (value step : Form) : Option Form :=
  match step with
  | .list (head :: args) _ =>
    some (.list (head :: if last then args ++ [value] else value :: args) span)
  | .symbol _ _ => some (.list [step, value] span)
  | _ => none

def thread (last : Bool) (args : List Form) (span : Span) : Except String Form :=
  let name := if last then "->>" else "->"
  match args with
  | [] => complain span s!"{name} requires at least a value"
  | value :: steps =>
    match steps.foldlM (threadStep last span) value with
    | some form => .ok form
    | none => complain span s!"{name} form must be a list or symbol"

def expand (count : Nat) (form : Form) : Except String (Option (Form × Nat)) :=
  match form with
  | .list (.symbol name _ :: args) span =>
    let keep (form : Form) : Option (Form × Nat) := some (form, count)
    match name with
    | "when" => (whenForm name false args span).map keep
    | "when-not" => (whenForm name true args span).map keep
    | "if-not" => (ifNot args span).map keep
    | "cond" => (cond args span).map keep
    | "and" => .ok (some (shortCircuit true count args span))
    | "or" => .ok (some (shortCircuit false count args span))
    | "->" => (thread false args span).map keep
    | "->>" => (thread true args span).map keep
    | _ => .ok none
  | _ => .ok none

def toll : List Form → Nat
  | .symbol name _ :: args =>
    if ["when", "when-not", "if-not", "cond", "and", "or"].contains name then 20 * args.length
    else if ["->", "->>"].contains name then 22 * (args.length - 1)
    else 0
  | _ => 0

mutual

def weight : Form → Nat
  | .atom _ _ => 2
  | .group .list items _ => 2 + weights items + toll items
  | .group _ items _ => 2 + weights items
  | .quote inner _ => 2 + weight inner

def weights : List Form → Nat
  | [] => 0
  | form :: rest => weight form + weights rest

end

end Sugar

def Expander.stock : Expander where
  expand := Sugar.expand
  depth := Sugar.weight

end Resumable
