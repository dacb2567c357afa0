import Resumable.Graph.Printer
import Resumable.Host
import Resumable.Source.Reader
import Resumable.Sugar.Stock

/-!
This module contains the command line without its input and output: what is printed and how it ends
is a function of the options and of the source text.
-/

namespace Resumable.Cli

structure Options where
  file : String
  generator : Bool := false
  args : List String := []
  resumes : List String := []
  dump : Bool := false
  deriving Repr, DecidableEq, Inhabited

structure Report where
  printed : String
  error : Option String := none
  deriving Repr, DecidableEq, Inhabited

def program (forms : List Form) : Form :=
  .list (.symbol "do" .synthetic :: forms) .synthetic

def compileOptions (options : Options) : CompileOptions :=
  { params := (List.range options.args.length).map fun i => s!"arg{i}"
    terminators := if options.generator then .ofList [("yield", "yield")] else {}
    name := options.file
    expander := .stock }

def unreadableFile (file reason : String) : String :=
  s!"Error reading file '{file}': {reason}"

def parseValue (text : String) : Except String Value :=
  match readForm text with
  | .ok form => .ok form.toValue
  | .error e => .error s!"Bad value '{text}': {e.message}"

def unlines (lines : List String) : String :=
  String.join (lines.map (· ++ "\n"))

def listing (graph : Graph) : String :=
  let slots := graph.layout.slots.entries.map fun (id, slot) =>
    s!"{ValueId.render id} -> {slot}"
  unlines (graph.lines {} ++ "== slots ==" :: slots)

def report (host : Host) (error : Option String) : Report :=
  { printed := host.store.printed, error := error }

def printLine (host : Host) (line : String) : Host :=
  (host.act (.printLine line)).2

def drive (host : Host) (state : State) (resumes : List String) : Report :=
  match host.step state with
  | (.error (.thrown value), _, host) =>
    report host (some ("Runtime error: " ++ host.store.heap.display value))
  | (.error .outOfFuel, _, host) => report host (some "Runtime error: out of fuel")
  | (.ok (.done value), _, host) => report (printLine host (host.store.heap.write value)) none
  | (.ok .suspended, state, host) =>
    let host := printLine host ("yield: " ++ host.store.heap.write state.pending)
    match resumes with
    | [] => report (printLine host "suspended") none
    | text :: rest =>
      match parseValue text with
      | .error message => report host (some message)
      | .ok value => drive host (state.setPending value) rest

def start (host : Host) (machine : Value) (options : Options) : Except String Report := do
  let args ← options.args.mapM parseValue
  match host.create machine args with
  | .error fault => throw (host.store.heap.display fault.toValue)
  | .ok state => return drive host state options.resumes

def tryRun (options : Options) (source : Except String String) : Except String Report := do
  let text ← source.mapError (unreadableFile options.file)
  let forms ← (readForms text).mapError fun e => "Parse error: " ++ e.message
  let compileOptions := compileOptions options
  if options.dump then
    let graph ← (Graph.ofForm compileOptions (program forms)).mapError CompileError.message
    return { printed := listing graph }
  else
    let (machine, host) ←
      (Host.standard.compile compileOptions (program forms)).mapError CompileError.message
    start host machine options

def run (options : Options) (source : Except String String) : Report :=
  match tryRun options source with
  | .ok report => report
  | .error message => { printed := "", error := some message }

end Resumable.Cli
