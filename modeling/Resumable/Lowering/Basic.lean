import Resumable.Graph.Builder
import Resumable.Scope.Terminators
import Resumable.Value.Collection

/-!
This module contains what all lowering rules share: the rules of a compilation, the graph in the
making, and the steps that rules are made of.
-/

namespace Resumable

/--
What a compilation goes by, besides the form.
-/
structure CompileOptions where
  params : List String := []
  aliases : Aliases := {}
  terminators : Terminators := {}
  name : String := "anonymous"
  expander : Expander

/--
What lowering a form comes to: an operand with its value, or the knowledge that control never gets
past it.
-/
inductive Lowered where
  | value (operand : Operand)
  | terminated

/--
The state of a lowering: the graph in the making, and how many temporaries have been named.
-/
structure Draft where
  builder : Builder := {}
  temporaries : Nat := 0

/--
A lowering step. What it did to the draft before it failed stays done.
-/
abbrev Lower := EStateM CompileError Draft

namespace Lower

def build {α : Type} (f : Builder → α × Builder) : Lower α :=
  modifyGet fun draft =>
    let (a, builder) := f draft.builder
    (a, { draft with builder := builder })

def scope : Lower Scope :=
  return (← get).builder.scope

def newBlock : Lower BlockId :=
  build Builder.newBlock

def newBlocks {α : Type} : List α → Lower (List BlockId)
  | [] => return []
  | _ :: rest => do
    let block ← newBlock
    return block :: (← newBlocks rest)

def goTo (block : BlockId) : Lower Unit :=
  build fun b => ((), b.goTo block)

def perform (effect : Effect) (span : Span) : Lower ValueId :=
  build (·.add (.effect effect) span)

def leave (transfer : Transfer) (span : Span) : Lower Unit := do
  let _ ← build (·.add (.transfer transfer) span)

def performValue (effect : Effect) (span : Span) : Lower Lowered :=
  return .value (.result (← perform effect span))

def enter (block : BlockId) (span : Span) : Lower ValueId := do
  goTo block
  perform (.const .pending) span

/--
Go on at a block where several paths meet, with the value they hand over.
-/
def meetAt (block : BlockId) (span : Span) : Lower Lowered :=
  return .value (.result (← enter block span))

def bindLocal (name : String) (id : ValueId) : Lower Unit :=
  build fun b => ((), { b with scope := b.scope.bind name id })

def within {α : Type} (enter leave : Scope → Scope) (step : Lower α) : Lower α := fun draft =>
  let change (f : Scope → Scope) (draft : Draft) : Draft :=
    { draft with builder := { draft.builder with scope := f draft.builder.scope } }
  match step (change enter draft) with
  | .ok a draft => .ok a (change leave draft)
  | .error e draft => .error e (change leave draft)

def withLocals {α : Type} (step : Lower α) : Lower α := do
  let count := (← scope).locals.length
  within id (·.keepLocals count) step

def withLoop {α : Type} (point : LoopPoint) (step : Lower α) : Lower α :=
  within (fun s => { s with loops := point :: s.loops })
    (fun s => { s with loops := s.loops.tail }) step

def withCatch {α : Type} (handler : Option BlockId) (step : Lower α) : Lower α :=
  match handler with
  | none => step
  | some block =>
    within (fun s => { s with catches := block :: s.catches })
      (fun s => { s with catches := s.catches.tail }) step

def withFinally {α : Type} (block : BlockId) (step : Lower α) : Lower α :=
  within (fun s => { s with finallys := block :: s.finallys })
    (fun s => { s with finallys := s.finallys.tail }) step

def malformed {α : Type} (form message : String) (span : Span) : Lower α :=
  throw (.malformed form message span)

def ofExcept {α : Type} : Except CompileError α → Lower α
  | .ok a => return a
  | .error e => throw e

def andThen (step : Lower Lowered) (next : Operand → Lower Lowered) : Lower Lowered := do
  match ← step with
  | .value operand => next operand
  | .terminated => return .terminated

def sequence (lower : Form → Lower Lowered) (last : Operand) : List Form → Lower Lowered
  | [] => return .value last
  | form :: rest => andThen (lower form) fun operand => sequence lower operand rest

def body (lower : Form → Lower Lowered) (forms : List Form) : Lower Lowered :=
  sequence lower (.literal .nil) forms

def operands (lower : Form → Lower Lowered) : List Form → Lower (Option (List Operand))
  | [] => return some []
  | form :: rest => do
    match ← lower form with
    | .terminated => return none
    | .value operand =>
      match ← operands lower rest with
      | none => return none
      | some more => return some (operand :: more)

def withOperands (lower : Form → Lower Lowered) (forms : List Form)
    (next : List Operand → Lower Lowered) : Lower Lowered := do
  match ← operands lower forms with
  | some operands => next operands
  | none => return .terminated

def expectSymbol (form : Form) (owner what : String) : Lower String :=
  match form.symbol? with
  | some name => return name
  | none => malformed owner s!"{what} must be a symbol" form.span

end Lower

end Resumable
