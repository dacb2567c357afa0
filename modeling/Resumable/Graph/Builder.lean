import Resumable.Graph.Basic
import Resumable.CompileError

/-!
This module contains the builder that a graph grows in: its blocks so far, the block that is being
written, and what is in scope there.
-/

namespace Resumable

structure LoopPoint where
  header : BlockId
  tryDepth : Nat
  carried : List ValueId
  deriving Repr, DecidableEq

/--
What is in scope, innermost first everywhere.
-/
structure Scope where
  locals : List (String × ValueId) := []
  loops : List LoopPoint := []
  catches : List BlockId := []
  finallys : List BlockId := []
  deriving Repr, DecidableEq

namespace Scope

def tryDepth (scope : Scope) : Nat :=
  scope.catches.length + scope.finallys.length

def find? (scope : Scope) (name : String) : Option ValueId :=
  scope.locals.lookup name

def binds (scope : Scope) (id : ValueId) : Bool :=
  scope.locals.any (·.2 == id)

def visible (scope : Scope) : List (String × ValueId) :=
  (Table.ofList scope.locals.reverse).entries

def bind (scope : Scope) (name : String) (id : ValueId) : Scope :=
  { scope with locals := (name, id) :: scope.locals }

def keepLocals (scope : Scope) (count : Nat) : Scope :=
  { scope with locals := scope.locals.drop (scope.locals.length - count) }

end Scope

structure Builder where
  nextBlock : Nat := 0
  nextValue : Nat := 0
  blocks : Table BlockId Block := {}
  start : Option BlockId := none
  current : Option BlockId := none
  params : List (String × ValueId) := []
  scope : Scope := {}
  deriving Inhabited

namespace Builder

def freshValue (b : Builder) : ValueId × Builder :=
  (b.nextValue, { b with nextValue := b.nextValue + 1 })

def addParam (b : Builder) (name : String) : ValueId × Builder :=
  let (id, b) := b.freshValue
  (id, { b with params := b.params ++ [(name, id)], scope := b.scope.bind name id })

def newBlock (b : Builder) : BlockId × Builder :=
  let id := b.nextBlock
  (id, { b with
    nextBlock := id + 1
    blocks := b.blocks.insert id { handlers := b.scope.catches }
    start := b.start.or (some id) })

def goTo (b : Builder) (block : BlockId) : Builder :=
  { b with current := some block }

def currentBlock (b : Builder) : BlockId × Builder :=
  match b.current with
  | some block => (block, b)
  | none =>
    let (block, b) := b.newBlock
    (block, b.goTo block)

def add (b : Builder) (command : Command) (span : Span) : ValueId × Builder :=
  let (id, b) := b.freshValue
  let (current, b) := b.currentBlock
  let block := (b.blocks.get? current).getD {}
  let code := block.code ++ [{ id := id, command := command, span := span }]
  (id, { b with blocks := b.blocks.insert current { block with code := code } })

def isSealed (b : Builder) : Bool :=
  match b.current.bind b.blocks.get? with
  | some block => block.isSealed
  | none => false

def finish (b : Builder) : Except CompileError Graph :=
  let filled := b.blocks.entries.filter (!·.2.code.isEmpty)
  match filled.find? (!·.2.isSealed) with
  | some (id, _) => .error (.unterminated id)
  | none =>
    match b.start with
    | none => .error (.unterminated 0)
    | some start => .ok { blocks := ⟨filled⟩, start := start, params := b.params }

end Builder

end Resumable
