import Revue.Command.Run

/-!
# The program

Runs on the files of the machine.
-/

namespace Revue.Command

def directoryOf (path : String) : String :=
  String.ofList ((path.toList.reverse.dropWhile (· != '/')).reverse)

def machine : Host IO where
  read? path := do
    try return some (← IO.FS.readFile path) catch _ => return none
  write path content := do
    try
      if directoryOf path != "" then IO.FS.createDirAll (directoryOf path)
      IO.FS.writeFile path content
      return true
    catch _ => return false

end Revue.Command

open Revue.Command

def main (args : List String) : IO UInt32 := do
  let outcome ← runWith machine args
  IO.print outcome.stdout
  match outcome.fatal? with
  | some f => IO.eprintln ("error: " ++ f.text)
  | none => IO.eprint outcome.stderr
  return outcome.exitCode.toUInt32
