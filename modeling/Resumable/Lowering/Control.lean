import Resumable.Lowering.Basic

/-!
This module contains the lowering of branches, calls and returns. Every rule takes the lowering of
the forms inside as a parameter.
-/

namespace Resumable.Lower

def arm (lower : Form → Lower Lowered) (form : Option Form) (meet : BlockId) (span : Span) :
    Lower Bool := do
  let lowered ←
    match form with
    | some form => lower form
    | none => pure (.value (.literal .nil))
  match lowered with
  | .value operand =>
    leave (.jump (some operand) meet) span
    return true
  | .terminated => return false

def arms (lower : Form → Lower Lowered) (meet : BlockId) (span : Span) :
    List (Option Form × BlockId) → Lower Bool
  | [] => return false
  | (form, block) :: rest => do
    goTo block
    let live ← arm lower form meet span
    let more ← arms lower meet span rest
    return live || more

def meetIf (live : Bool) (meet : BlockId) (span : Span) : Lower Lowered :=
  if live then meetAt meet span else return .terminated

def choose (lower : Form → Lower Lowered) (test yes : Form) (no : Option Form) (span : Span) :
    Lower Lowered :=
  andThen (lower test) fun test => do
    let yesBlock ← newBlock
    let noBlock ← newBlock
    let meet ← newBlock
    leave (.branch test yesBlock noBlock) span
    let live ← arms lower meet span [(some yes, yesBlock), (no, noBlock)]
    meetIf live meet span

def ifForm (lower : Form → Lower Lowered) (args : List Form) (span : Span) : Lower Lowered :=
  match args with
  | [test, yes] => choose lower test yes none span
  | [test, yes, no] => choose lower test yes (some no) span
  | _ => malformed "if" "expects 2 or 3 forms" span

def caseTests (form : Form) : List Value :=
  match form with
  | .list items _ => items.map Form.toValue
  | form => [form.toValue]

def caseClauses : List Form → List (Form × Form) × Option Form
  | [] => ([], none)
  | [fallback] => ([], some fallback)
  | test :: arm :: rest =>
    let (clauses, fallback) := caseClauses rest
    ((test, arm) :: clauses, fallback)

def caseForm (lower : Form → Lower Lowered) (args : List Form) (span : Span) : Lower Lowered :=
  match args with
  | [] => malformed "case" "missing dispatch value" span
  | value :: rest =>
    andThen (lower value) fun value => do
      let (clauses, fallback) := caseClauses rest
      let blocks ← newBlocks clauses
      let fallbackBlocks ← newBlocks fallback.toList
      let meet ← newBlock
      leave (.case value (clauses.map (caseTests ·.1)) blocks fallbackBlocks.head?) span
      let live ← arms lower meet span
        (((clauses.map (some ·.2)).zip blocks) ++ ((fallback.toList.map some).zip fallbackBlocks))
      meetIf live meet span

def callForm (lower : Form → Lower Lowered) (head : Form) (args : List Form) (span : Span) :
    Lower Lowered :=
  andThen (lower head) fun callee =>
    withOperands lower args fun args => performValue (.call callee args) span

def globalCall (lower : Form → Lower Lowered) (name : String) (args : List Form) (span : Span) :
    Lower Lowered :=
  withOperands lower args fun args => performValue (.call (.global name) args) span

def suspendCall (lower : Form → Lower Lowered) (handler : String) (args : List Form)
    (span : Span) : Lower Lowered :=
  withOperands lower args fun args => do
    let resume ← newBlock
    leave (.suspend handler resume args) span
    meetAt resume span

def finishWith (options : CompileOptions) (value : Operand) (span : Span) : Lower Unit := do
  match options.terminators.returnHandler? with
  | none => leave (.finish value) span
  | some handler =>
    let resume ← newBlock
    leave (.suspend handler resume [value]) span
    let result ← enter resume span
    leave (.finish (.result result)) span

def returnForm (options : CompileOptions) (lower : Form → Lower Lowered) (args : List Form)
    (span : Span) : Lower Lowered :=
  match args with
  | [] => do
    finishWith options (.literal .nil) span
    return .terminated
  | [form] =>
    andThen (lower form) fun value => do
      finishWith options value span
      return .terminated
  | _ => malformed "return" "expects at most one value" span

end Resumable.Lower
