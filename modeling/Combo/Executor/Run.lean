-- SUMMARY: The run of a group: its entries, dispatch, cancellation, layering, and the report at the end.
import Combo.Executor.Plan

/-!
# The run of a group

A run has one entry for each action: first those of the dequeued group, then
those layered onto it, in the order of their acceptance. An entry is listed
under its key until it is cancelled; keys of listed entries differ, because a
taken key gets a numbered suffix. The outcomes of a report come from the same
entries as its actions, so the two lists always match.
-/

namespace Combo

/-- An action in a run. -/
structure Entry where
  action : Action
  /-- The key under which the action is listed. -/
  key : String
  cancelled : Bool
  progress : Progress
  deriving DecidableEq, Inhabited

namespace Entry

/-- Whether a poll would get on with the entry. -/
def runnable (now : Nat) (e : Entry) : Bool := e.progress.runnable now e.cancelled

/-- The entry after cancellation. -/
def cancel (e : Entry) : Entry := { e with cancelled := true }

/-- The entry, started if it waited for that. -/
def release (e : Entry) : Entry :=
  if e.progress.isQueued then { e with progress := .ready } else e

/-- The entry, failed with a message unless it has ended. -/
def fail (message : String) (e : Entry) : Entry :=
  if e.progress.isEnded then e else { e with progress := .ended (.failed message) }

/-- How the entry ended; an entry that has not is reported as failed. -/
def ending (e : Entry) : Ending :=
  match e.progress with
  | .ended ending => ending
  | _ => .failed (ExecutionError.aborted "no outcome reported").message

/-- The outcome of the entry. -/
def outcome (e : Entry) : Outcome := ⟨e.action, e.ending⟩

end Entry

/-! ## Keys -/

/-- The `n`-th key tried for an action: the key itself, then the key with `#n`. -/
def keyCandidate (base : String) (n : Nat) : String :=
  if n = 0 then base else base ++ "#" ++ Number.natText n

/-- The first candidate that is not taken; one of the first `taken.length + 1` is free. -/
def freshKey (taken : List String) (base : String) : String :=
  (((List.range (taken.length + 1)).map (keyCandidate base)).find? fun key =>
    !taken.contains key).getD base

/-- Interrupts that arrive while a group is being dequeued. -/
structure Deferred where
  all : Bool := false
  kinds : List Kind := []
  deriving DecidableEq, Repr, Inhabited

/-- Whether a dequeued action is not to be started. -/
def Deferred.hits (d : Deferred) (a : Action) : Bool := d.all || a.kind.interrupted d.kinds

/-- A group on its way from dispatch to its report. -/
structure Run where
  id : Nat
  /-- The estimate of the dequeued group. -/
  estimate : Float
  /-- Whether the group is cancelled as a whole. -/
  cancelled : Bool
  /-- Whether the group has to have the focus before it starts. -/
  needsFocus : Bool
  entries : List Entry
  deriving DecidableEq, Inhabited

namespace Run

/-- The entries that can still be cancelled by their key. -/
def listed (entries : List Entry) : List Entry := entries.filter (!·.cancelled)

/-- The keys under which entries are listed. -/
def keysOf (entries : List Entry) : List String := (listed entries).map (·.key)

/-- Appends an action under a fresh key. -/
def enlist (entries : List Entry) (a : Action) : List Entry :=
  entries ++ [⟨a, freshKey (keysOf entries) a.key, false, .queued⟩]

/-- Appends an action that is cancelled before its start. -/
def skip (entries : List Entry) (a : Action) : List Entry :=
  entries ++ [⟨a, a.key, true, .ended .cancelled⟩]

/-- The entries of a dequeued group. -/
def dispatchEntries (d : Deferred) (actions : List Action) : List Entry :=
  actions.foldl (fun entries a => if d.hits a then skip entries a else enlist entries a) []

/-- The run of a dequeued group under the interrupts that came meanwhile. -/
def dispatch (requireFocus : Bool) (d : Deferred) (t : Ticket) : Run :=
  let entries := dispatchEntries d t.group.actions
  { id := t.id
    estimate := t.group.estimate
    cancelled := d.all
    needsFocus := requireFocus && (listed entries).any (·.action.kind.needsFocus)
    entries }

/-- The actions of the run. -/
def actions (r : Run) : List Action := r.entries.map (·.action)

/-- The group as it is now: the dequeued actions and the layered ones. -/
def group (r : Run) : Group := ⟨r.actions, r.estimate⟩

/-! ## Interrupts -/

/-- The run with everything cancelled, and how many entries were listed. -/
def interruptAll (r : Run) : Run × Nat :=
  ({ r with cancelled := true, entries := r.entries.map Entry.cancel }, (listed r.entries).length)

/-- Whether incoming kinds interrupt a listed entry. -/
def Entry.hitBy (kinds : List Kind) (e : Entry) : Bool :=
  !e.cancelled && e.action.kind.interrupted kinds

/-- The run with what incoming kinds interrupt cancelled, and how many entries that were. -/
def interruptConflicting (kinds : List Kind) (r : Run) : Run × Nat :=
  ({ r with entries := r.entries.map fun e => if Entry.hitBy kinds e then e.cancel else e },
    (r.entries.filter (Entry.hitBy kinds)).length)

/-- The run with more actions accepted. -/
def layer (actions : List Action) (r : Run) : Run :=
  { r with entries := actions.foldl enlist r.entries }

/-! ## Progress -/

/-- Whether an action waits to be started. -/
def hasQueued (r : Run) : Bool := r.entries.any (·.progress.isQueued)

/-- Whether no started action is left. -/
def isDrained (r : Run) : Bool := r.entries.all fun e => e.progress.isQueued || e.progress.isEnded

/-- Starts the first action that waits for it. -/
def receive (r : Run) : Run :=
  match r.entries.findIdx? (·.progress.isQueued) with
  | some i => { r with entries := r.entries.modify i Entry.release }
  | none => r

/-- Starts every action that waits for it. -/
def releaseAll (r : Run) : Run := { r with entries := r.entries.map Entry.release }

/-- Fails every action that has not ended. -/
def failAll (message : String) (r : Run) : Run :=
  { r with entries := r.entries.map (Entry.fail message) }

/-- The position of the first entry that a poll would get on with. -/
def runnable? (now : Nat) (r : Run) : Option Nat := r.entries.findIdx? (·.runnable now)

/-- The report of the run. -/
def report (r : Run) : Report :=
  let outcomes := r.entries.map Entry.outcome
  { id := r.id
    group := r.group
    outcomes
    interrupted := r.cancelled || outcomes.any fun o => o.ending == .cancelled }

end Run

end Combo
