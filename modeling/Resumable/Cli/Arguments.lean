import Resumable.Cli.Command

/-!
This module contains the reading of options from the words of a command line.
-/

namespace Resumable.Cli

def usage : String :=
  "Usage: resumable [--yield] [--arg <VALUE>] [--resume <VALUE>] [--dump] <FILE>"

structure Words where
  file : Option String := none
  options : Options := { file := "" }

namespace Words

def withValue (words : Words) (name value : String) : Words :=
  let options := words.options
  if name = "--arg" then
    { words with options := { options with args := options.args ++ [value] } }
  else
    { words with options := { options with resumes := options.resumes ++ [value] } }

def withFile (words : Words) (name : String) : Except String Words :=
  match words.file with
  | none => .ok { words with file := some name }
  | some _ => .error s!"error: unexpected argument '{name}' found\n\n{usage}"

def read (words : Words) : List String → Except String Words
  | [] => .ok words
  | "--" :: rest => rest.foldlM withFile words
  | "--yield" :: rest =>
    read { words with options := { words.options with generator := true } } rest
  | "--dump" :: rest =>
    read { words with options := { words.options with dump := true } } rest
  | "--arg" :: value :: rest => read (words.withValue "--arg" value) rest
  | "--resume" :: value :: rest => read (words.withValue "--resume" value) rest
  | word :: rest => do
    if word.startsWith "-" && word != "-" then
      throw s!"error: unexpected argument '{word}' found\n\n{usage}"
    read (← words.withFile word) rest

end Words

def Options.ofWords (words : List String) : Except String Options := do
  let read ← Words.read {} words
  match read.file with
  | some file => return { read.options with file := file }
  | none => throw s!"error: no file was given\n\n{usage}"

end Resumable.Cli
