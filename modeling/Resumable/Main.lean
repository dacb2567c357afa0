import Resumable.Cli.Arguments

/-!
This module contains the command line: it reads the source file, and prints what comes of it.
-/

namespace Resumable.Cli

def readSource (file : String) : IO (Except String String) := do
  try
    return .ok (← IO.FS.readFile file)
  catch e =>
    match e with
    | .noFileOrDirectory _ _ _ => return .error "No such file or directory (os error 2)"
    | .permissionDenied _ _ _ => return .error "Permission denied (os error 13)"
    | other => return .error (toString other)

end Resumable.Cli

open Resumable in
def main (words : List String) : IO UInt32 := do
  match Cli.Options.ofWords words with
  | .error message =>
    IO.eprintln message
    return 2
  | .ok options =>
    let report := Cli.run options (← Cli.readSource options.file)
    IO.print report.printed
    match report.error with
    | none => return 0
    | some message =>
      IO.eprintln message
      return 1
