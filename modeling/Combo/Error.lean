-- SUMMARY: The errors of the whole program, and where the errors of its parts belong among them.
import Combo.Queue.Basic

/-!
# Program errors
-/

namespace Combo

/-- An error of the whole program. -/
inductive ProgramError where
  | config (detail : String)
  | input (detail : String)
  | focus (detail : String)
  | script (detail : String)
  | queue (detail : String)
  | file (detail : String)
  | serialization (detail : String)
  | shuttingDown
  deriving DecidableEq, Repr

namespace ProgramError

/-- The wording of a program error. -/
def message : ProgramError → String
  | .config detail => "Configuration error: " ++ detail
  | .input detail => "Input error: " ++ detail
  | .focus detail => "Focus error: " ++ detail
  | .script detail => "Script error: " ++ detail
  | .queue detail => "Queue error: " ++ detail
  | .file detail => "I/O error: " ++ detail
  | .serialization detail => "Serialization error: " ++ detail
  | .shuttingDown => "Shutdown in progress"

/-- A missing or unfocused window is a focus error, every other input error an input error. -/
def ofInput (e : InputError) : ProgramError :=
  match e with
  | .windowNotFound _ => .focus e.message
  | .focus _ => .focus e.message
  | _ => .input e.message

/-- A fault of a script is a script error. -/
def ofFault (fault : Script.Fault) : ProgramError := .script fault.message

/-- A refused script is a script error; a stopped queue means that the program shuts down. -/
def ofQueue (e : QueueError) : ProgramError :=
  match e with
  | .invalid fault => ofFault fault
  | .tooManyInvalid _ _ => .queue e.message
  | .stopped => .shuttingDown

/-- A fault of an execution belongs where its cause belongs. -/
def ofExecution (e : ExecutionError) : ProgramError :=
  match e with
  | .input cause => ofInput cause
  | .focus cause => .focus cause.message
  | .invalidAction _ => .input e.message
  | .aborted _ => .input e.message

end ProgramError

end Combo
