import Resumable.Lowering.Binding
import Resumable.Lowering.Control
import Resumable.Lowering.Object
import Resumable.Lowering.Try

/-!
This module contains the lowering of whole forms into graphs.
-/

namespace Resumable

namespace Lower

/--
How often a form may be expanded before its parts are looked at.
-/
def maxExpansions : Nat := 1024

def expand (expander : Expander) (form : Form) : Lower Form :=
  go maxExpansions form
where
  go : Nat → Form → Lower Form
    | 0, _ => throw (.expansion "expansion did not terminate" form.span)
    | rounds + 1, current => do
      match expander.expand (← get).temporaries current with
      | .error message => throw (.expansion message current.span)
      | .ok none => return current
      | .ok (some (next, temporaries)) =>
        modify fun draft => { draft with temporaries := temporaries }
        go rounds next

def symbolOperand (name : String) : Lower Operand := do
  match (← scope).find? name with
  | some id => return .result id
  | none => return .global name

def named (options : CompileOptions) (lower : Form → Lower Lowered) (name : String)
    (args : List Form) (span : Span) : Lower Lowered :=
  match name with
  | "quote" =>
    match args with
    | [form] => return .value (.literal form.toValue)
    | _ => malformed "quote" "expects one form" span
  | "do" => body lower args
  | "if" => ifForm lower args span
  | "let" => letForm lower args span
  | "loop" => loopForm lower args span
  | "recur" => recurForm lower args span
  | "case" => caseForm lower args span
  | "fn" => fnForm options args span
  | "try" => tryForm lower args span
  | "set!" => setForm lower args span
  | "return" => returnForm options lower args span
  | name =>
    match name.toList with
    | '.' :: c :: rest => memberForm lower (c :: rest) args span
    | _ =>
      match options.terminators.handler? name with
      | some handler => suspendCall lower handler args span
      | none => globalCall lower name args span

def listForm (options : CompileOptions) (lower : Form → Lower Lowered) (head : Form)
    (args : List Form) (span : Span) : Lower Lowered := do
  match head with
  | .symbol name _ =>
    match (← scope).find? name with
    | some _ => callForm lower head args span
    | none => named options lower (options.aliases.resolve name) args span
  | _ => callForm lower head args span

/--
Lower a core form.
-/
def coreForm (options : CompileOptions) (lower : Form → Lower Lowered) (form : Form) :
    Lower Lowered :=
  match form with
  | .atom (.symbol name) _ => return .value (← symbolOperand name)
  | .atom value _ => return .value (.literal value.toValue)
  | .quote inner _ => return .value (.literal inner.toValue)
  | .group .list [] _ => return .value (.literal (.list []))
  | .group .list (head :: args) span => listForm options lower head args span
  | .group .vector items span => globalCall lower "vector" items span
  | .group .map items span => globalCall lower "hash-map" items span
  | .group .set items span => globalCall lower "hash-set" items span

def form (options : CompileOptions) : Nat → Form → Lower Lowered
  | 0, form => throw (.expansion "expansion did not terminate" form.span)
  | depth + 1, surface => do
    let core ← expand options.expander surface
    coreForm options (form options depth) core

def addParams : List String → Lower Unit
  | [] => return ()
  | name :: rest => do
    let _ ← build (·.addParam name)
    addParams rest

def program (options : CompileOptions) (source : Form) : Lower Unit := do
  addParams options.params
  goTo (← newBlock)
  match ← form options (options.expander.depth source) source with
  | .value operand => finishWith options operand source.span
  | .terminated => return ()

end Lower

/--
Lower a form into a graph.
-/
def Graph.ofForm (options : CompileOptions) (source : Form) : Except CompileError Graph :=
  match Lower.program options source {} with
  | .error e _ => .error e
  | .ok _ draft => draft.builder.finish

end Resumable
