-- SUMMARY: The program: arguments, variables, files and standard input in, output and exit code out.
import Combo.Cli.Session

/-!
# The program

Everything is decided by `Combo.Cli.call`; here its surroundings are gathered and
its result is given out.
-/

open Combo.Cli

/-- The bytes of a file, if it can be read. -/
def bytesOf (path : String) : IO (Option ByteArray) := do
  try return some (← IO.FS.readBinFile path)
  catch _ => return none

def main (arguments : List String) : IO UInt32 := do
  let configVariable ← IO.getEnv "ACTSCRIPT_CONFIG"
  let home ← IO.getEnv "HOME"
  let wanted := match Invocation.ofArguments arguments with
    | .ok invocation => invocation.configPath
    | .error _ => none
  let path := configPath { configVariable, home, file := fun _ => none } wanted
  let bytes ← bytesOf path
  let running := match Invocation.ofArguments arguments with
    | .ok ⟨_, _, .run _ _ _⟩ => true
    | _ => false
  let input ← if running then (← IO.getStdin).readToEnd else pure ""
  let result := call { configVariable, home, file := fun _ => bytes, input } arguments
  (← IO.getStdout).putStr result.output
  return UInt32.ofNat result.exit
