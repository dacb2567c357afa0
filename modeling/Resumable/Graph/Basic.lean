import Resumable.Graph.Instruction
import Resumable.Table

/-!
This module contains the graph of blocks that a form is lowered to.
-/

namespace Resumable

structure Block where
  handlers : List BlockId := []
  code : List Instruction := []
  deriving Inhabited

def Block.isSealed (block : Block) : Bool :=
  match block.code.getLast? with
  | some i => i.isTransfer
  | none => false

/--
A lowered program: its blocks, the block it starts with, and its parameters with the numbers under
which their values are known.
-/
structure Graph where
  blocks : Table BlockId Block
  start : BlockId
  params : List (String × ValueId)

def Graph.instructionCount (graph : Graph) : Nat :=
  (graph.blocks.entries.map (·.2.code.length)).foldl (· + ·) 0

end Resumable
