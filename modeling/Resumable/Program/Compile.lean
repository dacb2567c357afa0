import Resumable.Lowering.Form
import Resumable.Program.Emit

/-!
This module contains compilation, from a form to a program.
-/

namespace Resumable

def Program.compile (handlers : Table String Handler) (options : CompileOptions) (form : Form) :
    Except CompileError Program := do
  Program.ofGraph (← Graph.ofForm options form) handlers options.name

namespace Lambda

def loop (lambda : Lambda) : Form :=
  let symbol (name : String) : Form := .symbol name lambda.span
  .list (symbol "loop" ::
    .vector (lambda.params.flatMap fun name => [symbol name, symbol name]) lambda.span ::
    lambda.body) lambda.span

def options (lambda : Lambda) : CompileOptions :=
  { params := lambda.machineParams
    aliases := lambda.aliases
    terminators := {}
    name := lambda.label
    expander := lambda.expander }

def compile (lambda : Lambda) : Except CompileError Program :=
  Program.compile {} lambda.options lambda.loop

end Lambda

end Resumable
