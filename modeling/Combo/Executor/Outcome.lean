-- SUMMARY: How actions end, what an execution can fail with, and the report of a whole group.
import Combo.Action.Group
import Combo.Input.Error

/-!
# Outcomes and reports
-/

namespace Combo

/-- The stations of an action. -/
inductive ActionState where
  | pending | running | completed | cancelled | failed
  deriving DecidableEq, Repr, Inhabited

namespace ActionState

/-- All stations, in order. -/
def all : List ActionState := [.pending, .running, .completed, .cancelled, .failed]

/-- The name of a station. -/
def name : ActionState → String
  | .pending => "pending"
  | .running => "running"
  | .completed => "completed"
  | .cancelled => "cancelled"
  | .failed => "failed"

/-- The station with this name. -/
def ofName? (name : String) : Option ActionState :=
  all.find? fun state => state.name == name

/-- Whether nothing comes after the station. -/
def isTerminal : ActionState → Bool
  | .pending | .running => false
  | .completed | .cancelled | .failed => true

end ActionState

/-- A fault while an action drives the hardware. -/
inductive ExecutionError where
  | input (error : InputError)
  | focus (error : InputError)
  | invalidAction (action : String)
  | aborted (detail : String)
  deriving DecidableEq, Repr

/-- The wording of an execution error. -/
def ExecutionError.message : ExecutionError → String
  | .input error => "Input failed: " ++ error.message
  | .focus error => "Could not focus target window: " ++ error.message
  | .invalidAction action => "Cannot execute " ++ action ++ ": invalid parameter"
  | .aborted detail => "Action task ended abnormally: " ++ detail

/-- The error of an action whose device crashed. -/
def ExecutionError.crash : ExecutionError :=
  .aborted "task N panicked with message \"device driver crashed\""

/-- How an action ended; only a failure has a message. -/
inductive Ending where
  | completed
  | cancelled
  | failed (message : String)
  deriving DecidableEq, Repr, Inhabited

/-- The station an ending stands for. -/
def Ending.state : Ending → ActionState
  | .completed => .completed
  | .cancelled => .cancelled
  | .failed _ => .failed

/-- The message of a failure. -/
def Ending.message? : Ending → Option String
  | .failed message => some message
  | .completed | .cancelled => none

/-- An action and how it ended. -/
structure Outcome where
  action : Action
  ending : Ending
  deriving DecidableEq, Inhabited

/-- A group as the queue hands it out: under a number of its own. -/
structure Ticket where
  id : Nat
  group : Group
  deriving DecidableEq, Inhabited

/-- What is reported of a group that is done or abandoned. -/
structure Report where
  id : Nat
  group : Group
  outcomes : List Outcome
  interrupted : Bool
  deriving DecidableEq, Inhabited

/-- The number of outcomes in a station. -/
def Report.count (r : Report) (state : ActionState) : Nat :=
  (r.outcomes.filter fun o => o.ending.state == state).length

end Combo
