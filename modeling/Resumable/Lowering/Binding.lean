import Resumable.Lowering.Basic

/-!
This module contains the lowering of forms that bring names into scope, and of going round a loop.
-/

namespace Resumable.Lower

def bindingPairs (owner : String) : List Form → Lower (List (String × Form))
  | name :: init :: rest => do
    let name ← expectSymbol name owner "binding name"
    return (name, init) :: (← bindingPairs owner rest)
  | _ => return []

def bindings (owner : String) (form : Form) : Lower (List (String × Form)) :=
  match form.vector? with
  | none => malformed owner "bindings must be a vector" form.span
  | some items =>
    if items.length % 2 ≠ 0 then malformed owner "odd binding count" form.span
    else bindingPairs owner items

def ownResult (operand : Operand) (span : Span) : Lower ValueId := do
  match operand with
  | .result id =>
    if (← scope).binds id then perform (.const operand) span else return id
  | _ => perform (.const operand) span

/--
Lower bindings one after the other, each in the scope of those before it, and then a body in the
scope of all.
-/
def bindAll (lower : Form → Lower Lowered) (forms : List Form) :
    List (String × Form) → Lower Lowered
  | [] => body lower forms
  | (name, init) :: rest =>
    andThen (lower init) fun operand => do
      bindLocal name (← ownResult operand init.span)
      bindAll lower forms rest

def letForm (lower : Form → Lower Lowered) (args : List Form) (span : Span) : Lower Lowered :=
  match args with
  | [] => malformed "let" "missing bindings" span
  | first :: forms => do
    let pairs ← bindings "let" first
    withLocals (bindAll lower forms pairs)

def copyAll : List (Operand × Form) → Lower (List ValueId)
  | [] => return []
  | (operand, init) :: rest => do
    let id ← perform (.const operand) init.span
    return id :: (← copyAll rest)

def bindLocals : List (String × ValueId) → Lower Unit
  | [] => return ()
  | (name, id) :: rest => do
    bindLocal name id
    bindLocals rest

def loopOver (lower : Form → Lower Lowered) (pairs : List (String × Form)) (forms : List Form)
    (span : Span) : Lower Lowered := do
  let inits := pairs.map (·.2)
  withOperands lower inits fun operands => do
    let carried ← copyAll (operands.zip inits)
    let header ← newBlock
    leave (.jump none header) span
    goTo header
    let point := { header := header, tryDepth := (← scope).tryDepth, carried := carried }
    let lowered ← withLocals do
      bindLocals ((pairs.map (·.1)).zip carried)
      withLoop point (body lower forms)
    match lowered with
    | .terminated => return .terminated
    | .value operand =>
      let exit ← newBlock
      leave (.jump (some operand) exit) span
      meetAt exit span

def loopForm (lower : Form → Lower Lowered) (args : List Form) (span : Span) : Lower Lowered :=
  match args with
  | [] => malformed "loop" "missing bindings" span
  | first :: forms => do
    let pairs ← bindings "loop" first
    loopOver lower pairs forms span

def recurTo (lower : Form → Lower Lowered) (point : LoopPoint) (args : List Form) (span : Span) :
    Lower Lowered :=
  withOperands lower args fun operands => do
    let _ ← perform (.recur point.carried operands) span
    leave (.jump none point.header) span
    return .terminated

def recurForm (lower : Form → Lower Lowered) (args : List Form) (span : Span) :
    Lower Lowered := do
  let scope ← scope
  match scope.loops with
  | [] => throw (.recurOutsideLoop span)
  | point :: _ =>
    if point.tryDepth ≠ scope.tryDepth then throw (.recurAcrossTry span)
    else if point.carried.length ≠ args.length then
      throw (.recurArity point.carried.length args.length span)
    else recurTo lower point args span

end Resumable.Lower
