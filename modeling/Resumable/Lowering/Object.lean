import Resumable.Lowering.Basic

/-!
This module contains the lowering of functions, of access to the members of records, and of
assignment.
-/

namespace Resumable.Lower

def parameterNames : List Form → Lower (List String)
  | [] => return []
  | form :: rest => do
    let name ← expectSymbol form "fn" "parameter"
    return name :: (← parameterNames rest)

def makeLambda (options : CompileOptions) (name : Option String) (rest : List Form)
    (span : Span) : Lower Lowered :=
  match rest with
  | [] => malformed "fn" "missing parameter vector" span
  | params :: body =>
    match params.vector? with
    | none => malformed "fn" "parameters must be a vector" params.span
    | some items => do
      let names ← parameterNames items
      let hidden := name.toList ++ names
      let captured := (← scope).visible.filter (!hidden.contains ·.1)
      let code : Lambda :=
        { name := name
          params := names
          captures := captured.map (·.1)
          body := body
          aliases := options.aliases
          expander := options.expander
          span := span }
      performValue (.lambda code (captured.map (.result ·.2))) span

def fnForm (options : CompileOptions) (args : List Form) (span : Span) : Lower Lowered :=
  match args with
  | .symbol name _ :: rest => makeLambda options (some name) rest span
  | rest => makeLambda options none rest span

def memberForm (lower : Form → Lower Lowered) (accessor : List Char) (args : List Form)
    (span : Span) : Lower Lowered :=
  let written := "." ++ String.ofList accessor
  match accessor with
  | ['-'] => malformed ".-" "missing field name" span
  | '-' :: field =>
    match args with
    | [] => malformed written "missing target" span
    | [target] =>
      andThen (lower target) fun target =>
        performValue (.field target (String.ofList field) []) span
    | _ => malformed written "field access takes no arguments" span
  | method =>
    match args with
    | [] => malformed written "missing target" span
    | target :: rest =>
      andThen (lower target) fun target =>
        withOperands lower rest fun args =>
          performValue (.method target (String.ofList method) args) span

def fieldPlace? : Form → Option (String × Form)
  | .list [.symbol accessor _, object] _ =>
    match accessor.toList with
    | '.' :: '-' :: c :: rest => some (String.ofList (c :: rest), object)
    | _ => none
  | _ => none

def setForm (lower : Form → Lower Lowered) (args : List Form) (span : Span) : Lower Lowered :=
  match args with
  | [.symbol name _, value] => do
    match (← scope).find? name with
    | some id => andThen (lower value) fun value => performValue (.setLocal id value) span
    | none => andThen (lower value) fun value => performValue (.setGlobal name value) span
  | [place, value] =>
    match fieldPlace? place with
    | none => malformed "set!" "place must be a name or (.-field object)" place.span
    | some (field, object) =>
      andThen (lower object) fun object =>
        andThen (lower value) fun value => performValue (.setField object field value) span
  | _ => malformed "set!" "expects a place and a value" span

end Resumable.Lower
