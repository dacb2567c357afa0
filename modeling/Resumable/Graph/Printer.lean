import Resumable.Graph.Basic
import Resumable.Value.Printer

/-!
This module contains the writing of graphs.
-/

namespace Resumable

def ValueId.render (id : ValueId) : String :=
  s!"%{id}"

def BlockId.render (id : BlockId) : String :=
  s!"b{id}"

def Operand.render (heap : Heap) : Operand → String
  | .result id => ValueId.render id
  | .literal value => heap.write value
  | .global name => "@" ++ name
  | .pending => "<pending>"

def bracketed (texts : List String) : String :=
  "[" ++ " ".intercalate texts ++ "]"

def Effect.render (heap : Heap) (id : ValueId) (effect : Effect) : String :=
  let one := Operand.render heap
  let many (operands : List Operand) := bracketed (operands.map one)
  let result := ValueId.render id ++ " = "
  match effect with
  | .const value => result ++ "const " ++ one value
  | .call callee args => result ++ "call " ++ one callee ++ " " ++ many args
  | .recur targets args =>
    "recur " ++ bracketed (targets.map ValueId.render) ++ " <- " ++ many args
  | .lambda code captured =>
    result ++ "fn " ++ code.name.getD "anonymous" ++ " " ++ many captured
  | .field target name _ => result ++ one target ++ ".-" ++ name
  | .method target name args => result ++ one target ++ "." ++ name ++ " " ++ many args
  | .setLocal target value => result ++ "set " ++ ValueId.render target ++ " " ++ one value
  | .setGlobal name value => result ++ "set @" ++ name ++ " " ++ one value
  | .setField object name value =>
    result ++ "set " ++ one object ++ ".-" ++ name ++ " " ++ one value
  | .pushHandler block => "push-handler " ++ BlockId.render block
  | .popHandler block => "pop-handler " ++ BlockId.render block
  | .takeException => result ++ "take-exception"
  | .endFinally exception => "end-finally " ++ one exception

def Transfer.render (heap : Heap) (transfer : Transfer) : String :=
  let one := Operand.render heap
  match transfer with
  | .jump none target => "jump " ++ BlockId.render target
  | .jump (some value) target => "jump " ++ BlockId.render target ++ " with " ++ one value
  | .finish value => "return " ++ one value
  | .branch test yes no =>
    "branch " ++ one test ++ " ? " ++ BlockId.render yes ++ " : " ++ BlockId.render no
  | .case value tests clauses fallback =>
    let arms := (tests.zip clauses).map fun (test, block) =>
      " [" ++ ", ".intercalate (test.map heap.write) ++ "]->" ++ BlockId.render block
    let rest := fallback.toList.map (" default->" ++ BlockId.render ·)
    "case " ++ one value ++ String.join (arms ++ rest)
  | .dispatch clauses =>
    let arms := clauses.map fun (block, type) =>
      match type with
      | .any => " :default->" ++ BlockId.render block
      | .named name => " " ++ name ++ "->" ++ BlockId.render block
    "catch-dispatch" ++ String.join arms
  | .suspend handler resume args =>
    "suspend " ++ handler ++ " " ++ bracketed (args.map one) ++ " resume " ++ BlockId.render resume

def Instruction.render (heap : Heap) (i : Instruction) : String :=
  match i.command with
  | .effect e => e.render heap i.id
  | .transfer t => t.render heap

def Graph.lines (heap : Heap) (graph : Graph) : List String :=
  let params := graph.params.map fun (name, id) => name ++ "=" ++ ValueId.render id
  let first := if params.isEmpty then [] else ["params " ++ " ".intercalate params]
  first ++ graph.blocks.entries.flatMap fun (id, block) =>
    let start := if id = graph.start then " (start)" else ""
    let handlers :=
      if block.handlers.isEmpty then ""
      else " ; handlers " ++ " ".intercalate (block.handlers.map BlockId.render)
    (BlockId.render id ++ start ++ ":" ++ handlers) :: block.code.map ("  " ++ ·.render heap)

end Resumable
