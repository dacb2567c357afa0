import Resumable.Lowering.Basic

/-!
This module contains the lowering of `try`. The protected body pushes the blocks that handle its
faults: the `finally` block, and inside of it the block that picks a catch clause. Both the body and
the clauses hand their value over to the `finally` block, which hands it on when its own body is
through, or throws what was in flight again.
-/

namespace Resumable

structure CatchClause where
  type : CatchType
  name : String
  body : List Form

/--
A `try` form in its parts.
-/
structure TryParts where
  body : List Form
  catches : List CatchClause
  cleanup : Option (List Form)

namespace TryParts

inductive Kind where
  | ordinary
  | catchClause (items : List Form)
  | finallyClause (items : List Form)

def kind (form : Form) : Kind :=
  match form with
  | .list (.symbol "catch" _ :: items) _ => .catchClause items
  | .list (.symbol "finally" _ :: items) _ => .finallyClause items
  | _ => .ordinary

def catchType (form : Form) : Except CompileError CatchType :=
  match form with
  | .atom (.keyword "default") _ => .ok .any
  | .atom (.keyword name) _ => .ok (.named name)
  | .atom (.symbol name) _ => .ok (.named name)
  | form => .error (.malformed "catch" "exception type must be a symbol or keyword" form.span)

def readCatch (items : List Form) (span : Span) : Except CompileError CatchClause :=
  match items with
  | type :: name :: body => do
    let type ← catchType type
    match name.symbol? with
    | some symbol => return { type := type, name := symbol, body := body }
    | none => .error (.malformed "catch" "exception binding must be a symbol" name.span)
  | _ => .error (.malformed "catch" "expects (catch type name body...)" span)

def nothingAfterFinally : List Form → Except CompileError Unit
  | [] => .ok ()
  | form :: _ =>
    match kind form with
    | .catchClause _ => .error (.catchAfterFinally form.span)
    | _ => .error (.finallyNotLast form.span)

def clauses : List Form → Except CompileError (List CatchClause × Option (List Form))
  | [] => .ok ([], none)
  | form :: rest =>
    match kind form with
    | .ordinary => .error (.malformed "try" "body forms must precede catch clauses" form.span)
    | .finallyClause items => do
      nothingAfterFinally rest
      return ([], some items)
    | .catchClause items => do
      let clause ← readCatch items form.span
      let (more, last) ← clauses rest
      return (clause :: more, last)

def ofForms : List Form → Except CompileError TryParts
  | [] => .ok { body := [], catches := [], cleanup := none }
  | form :: rest =>
    match kind form with
    | .ordinary => do
      let parts ← ofForms rest
      return { parts with body := form :: parts.body }
    | _ => do
      let (catches, last) ← clauses (form :: rest)
      return { body := [], catches := catches, cleanup := last }

end TryParts

namespace Lower

def performEach (effect : BlockId → Effect) (span : Span) : List BlockId → Lower Unit
  | [] => return ()
  | block :: rest => do
    let _ ← perform (effect block) span
    performEach effect span rest

def handOver (lowered : Lowered) (pops : List BlockId) (target : BlockId) (span : Span) :
    Lower Bool := do
  match lowered with
  | .terminated => return false
  | .value operand =>
    performEach .popHandler span pops
    leave (.jump (some operand) target) span
    return true

def catchBodies (lower : Form → Lower Lowered) (after : BlockId) (span : Span) :
    List (CatchClause × BlockId) → Lower Bool
  | [] => return false
  | (clause, block) :: rest => do
    let caught ← enter block span
    let lowered ← withLocals do
      bindLocal clause.name caught
      body lower clause.body
    let live ← handOver lowered [] after span
    let more ← catchBodies lower after span rest
    return live || more

def catchForms (lower : Form → Lower Lowered) (dispatch : BlockId) (catches : List CatchClause)
    (finallyBlock : Option BlockId) (after : BlockId) (span : Span) : Lower Bool := do
  let blocks ← newBlocks catches
  goTo dispatch
  let _ ← perform (.popHandler dispatch) span
  leave (.dispatch (blocks.zip (catches.map (·.type)))) span
  withCatch finallyBlock (catchBodies lower after span (catches.zip blocks))

def catchPart (lower : Form → Lower Lowered) (dispatch : Option BlockId)
    (catches : List CatchClause) (finallyBlock : Option BlockId) (after : BlockId) (span : Span) :
    Lower Bool :=
  match dispatch with
  | none => return false
  | some dispatch => catchForms lower dispatch catches finallyBlock after span

def finallyForms (lower : Form → Lower Lowered) (block exit : BlockId) (forms : List Form)
    (span : Span) : Lower Bool := do
  let value ← enter block span
  let exception ← perform .takeException span
  let _ ← perform (.popHandler block) span
  match ← withFinally block (body lower forms) with
  | .terminated => return false
  | .value _ =>
    let _ ← perform (.endFinally (.result exception)) span
    leave (.jump (some (.result value)) exit) span
    return true

def finallyPart (lower : Form → Lower Lowered) (block : Option BlockId) (exit : BlockId)
    (forms : Option (List Form)) (span : Span) : Lower Bool :=
  match block, forms with
  | some block, some forms => finallyForms lower block exit forms span
  | _, _ => return true

/--
Lower a `try` form from its parts.
-/
def attempt (lower : Form → Lower Lowered) (parts : TryParts) (span : Span) : Lower Lowered := do
  let bodyBlock ← newBlock
  let finallyBlock := (← newBlocks parts.cleanup.toList).head?
  let dispatchBlock := (← newBlocks (parts.catches.take 1)).head?
  let exit ← newBlock
  let after := finallyBlock.getD exit
  leave (.jump none bodyBlock) span
  goTo bodyBlock
  performEach .pushHandler span (finallyBlock.toList ++ dispatchBlock.toList)
  let lowered ← withCatch (dispatchBlock.or finallyBlock) (body lower parts.body)
  let bodyLive ← handOver lowered (dispatchBlock.toList ++ finallyBlock.toList) after span
  let catchLive ← catchPart lower dispatchBlock parts.catches finallyBlock after span
  let finallyLive ← finallyPart lower finallyBlock exit parts.cleanup span
  if (bodyLive || catchLive) && finallyLive then meetAt exit span else return .terminated

def tryForm (lower : Form → Lower Lowered) (args : List Form) (span : Span) : Lower Lowered := do
  let parts ← ofExcept (TryParts.ofForms args)
  attempt lower parts span

end Lower

end Resumable
