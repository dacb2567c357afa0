import Resumable.Graph.Basic

/-!
This module contains the layout of a machine's state. A result gets a slot if it has to outlive the
block that computes it.
-/

namespace Resumable

/--
The number of slots that every state has before its parameters.
-/
def headerSize : Nat := 6

structure Layout where
  slots : Table ValueId Nat
  size : Nat
  paramCount : Nat

def Layout.persistedCount (layout : Layout) : Nat :=
  layout.slots.size - layout.paramCount

structure Access where
  id : ValueId
  block : BlockId
  isRead : Bool
  deriving Repr, DecidableEq

def Instruction.accesses (i : Instruction) (block : BlockId) : List Access :=
  i.reads.map (fun id => { id := id, block := block, isRead := true }) ++
    i.writes.map (fun id => { id := id, block := block, isRead := false })

namespace Graph

def accesses (graph : Graph) : List Access :=
  graph.blocks.entries.flatMap fun (id, block) => block.code.flatMap (·.accesses id)

end Graph

namespace Layout

def blocksOf (accesses : List Access) (isRead : Bool) (id : ValueId) : List BlockId :=
  (accesses.filter fun a => a.id == id && a.isRead == isRead).map (·.block)

/--
Whether a result has to be kept: it is not read in exactly the blocks that write it, or it is read
in more than one block.
-/
def persists (accesses : List Access) (id : ValueId) : Bool :=
  let readers := blocksOf accesses true id
  let writers := blocksOf accesses false id
  !(readers.all writers.contains && writers.all readers.contains)
    || readers.any (fun b => readers.any (· != b))

def distinct : List Nat → List Nat
  | [] => []
  | a :: rest => a :: (distinct rest).filter (· != a)

def number (first : Nat) : List ValueId → List (ValueId × Nat)
  | [] => []
  | id :: rest => (id, first) :: number (first + 1) rest

end Layout

/--
Lay the state of a graph out: the parameters come first, then the results that have to be kept, in
the order in which they occur.
-/
def Graph.layout (graph : Graph) : Layout :=
  let accesses := graph.accesses
  let params := graph.params.map (·.2)
  let kept := (Layout.distinct (accesses.map (·.id))).filter fun id =>
    !params.contains id && Layout.persists accesses id
  { slots := .ofList (Layout.number headerSize (params ++ kept))
    size := headerSize + params.length + kept.length
    paramCount := params.length }

end Resumable
