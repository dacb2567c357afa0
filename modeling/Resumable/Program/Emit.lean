import Resumable.CompileError
import Resumable.Program.Basic

/-!
This module contains the step from a graph and its layout to a program. A block fetches what it
reads before writing it, and saves every result that is kept as soon as it is there.
-/

namespace Resumable

def Operand.source : Operand → Source
  | .result id => .register (.result id)
  | .literal value => .value value
  | .global name => .global name
  | .pending => .pending

namespace Emit

def isHazard (targets : List ValueId) (target : ValueId) (arg : Operand) : Bool :=
  match arg with
  | .result id => id != target && targets.contains id
  | _ => false

structure Part where
  index : Nat
  target : ValueId
  source : Source
  staged : Bool

def parts (targets : List ValueId) (index : Nat) : List (ValueId × Operand) → List Part
  | [] => []
  | (target, arg) :: rest =>
    { index := index, target := target, source := arg.source,
      staged := isHazard targets target arg } :: parts targets (index + 1) rest

/--
The moves of a parallel assignment: put hazardous values aside, move the others, then move what was
put aside.
-/
def assignment (targets : List ValueId) (args : List Operand) : List Op :=
  let parts := parts targets 0 (targets.zip args)
  let staged := parts.filter (·.staged)
  let direct := parts.filter (!·.staged)
  staged.map (fun p => .move (.staged p.index) p.source) ++
    direct.map (fun p => .move (.result p.target) p.source) ++
    staged.map (fun p => .move (.result p.target) (.register (.staged p.index)))

def effect (id : ValueId) : Effect → List Op
  | .const value => [.move (.result id) value.source]
  | .call callee args => [.call (.result id) callee.source (args.map Operand.source)]
  | .recur targets args => assignment targets args
  | .lambda code captured => [.closure (.result id) code (captured.map Operand.source)]
  | .field target name _ => [.field (.result id) target.source name]
  | .method target name args =>
    [.method (.result id) target.source name (args.map Operand.source)]
  | .setLocal target value =>
    [.move (.result target) value.source, .move (.result id) (.register (.result target))]
  | .setGlobal name value => [.setGlobal (.result id) name value.source]
  | .setField object name value => [.setField (.result id) object.source name value.source]
  | .pushHandler block => [.pushHandler block]
  | .popHandler block => [.popHandler block]
  | .takeException => [.takeException (.result id)]
  | .endFinally exception => [.endFinally exception.source]

def saves (layout : Layout) (ids : List ValueId) : List Op :=
  ids.filterMap fun id => (layout.slots.get? id).map (.save (.result id))

/--
The operations of an instruction that is not the last one of its block. Transfers have no effect
there.
-/
def instruction (layout : Layout) (i : Instruction) : List Op :=
  match i.command with
  | .effect e => effect i.id e ++ saves layout i.writes
  | .transfer _ => []

/--
The results that instructions read before they write them, each once, given those that have been
dealt with.
-/
def readFirst (known : List ValueId) : List Instruction → List ValueId
  | [] => []
  | i :: rest =>
    let news := (Layout.distinct i.reads).filter (!known.contains ·)
    news ++ readFirst (known ++ news ++ i.writes) rest

def loads (layout : Layout) (code : List Instruction) : List (ValueId × Nat) :=
  (readFirst [] code).filterMap fun id => (layout.slots.get? id).map fun slot => (id, slot)

def exit (handlers : Table String Handler) : Transfer → Except CompileError Exit
  | .jump value target => .ok (.jump (value.map Operand.source) target)
  | .finish value => .ok (.finish value.source)
  | .branch test yes no => .ok (.branch test.source yes no)
  | .case value tests clauses fallback => .ok (.case value.source tests clauses fallback)
  | .dispatch clauses => .ok (.dispatch clauses)
  | .suspend name resume args =>
    match handlers.get? name with
    | some handler => .ok (.suspend handler resume (args.map Operand.source))
    | none => .error (.unknownHandler name)

/--
The program of a block, which has to end in a transfer.
-/
def block (layout : Layout) (handlers : Table String Handler) (id : BlockId)
    (code : List Instruction) : Except CompileError BlockProgram :=
  match code.getLast? with
  | some { command := .transfer t, .. } => do
    return {
      loads := loads layout code
      ops := code.dropLast.flatMap (instruction layout)
      exit := ← exit handlers t }
  | _ => .error (.unterminated id)

def blocks (layout : Layout) (handlers : Table String Handler) :
    List (BlockId × Block) → Except CompileError (List (BlockId × BlockProgram))
  | [] => .ok []
  | (id, b) :: rest => do
    let program ← block layout handlers id b.code
    return (id, program) :: (← blocks layout handlers rest)

end Emit

/--
Make a graph runnable, given the handlers that suspensions may go to.
-/
def Program.ofGraph (graph : Graph) (handlers : Table String Handler) (name : String) :
    Except CompileError Program := do
  let layout := graph.layout
  let blocks ← Emit.blocks layout handlers graph.blocks.entries
  return {
    name := name
    blocks := ⟨blocks⟩
    start := graph.start
    size := layout.size
    params := graph.params.map (·.1) }

end Resumable
