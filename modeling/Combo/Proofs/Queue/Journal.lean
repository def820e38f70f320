-- SUMMARY: The journal of a queue's history: what is accepted, handed out, completed and dropped, group by group.
import Combo.Queue.Operation
import Combo.Proofs.Queue.Effect
import Combo.Proofs.Script.RoundTrip

/-!
# The journal of a queue

The journal of a history tells what became of each group: it was accepted with
a script, handed out, reported, or dropped. It is read off the operations and
their answers. Which groups are where can then be accounted for without a look
at the history of reports, which is bounded.
-/

namespace Combo.Queue

/-- One thing that becomes of groups. -/
inductive Event where
  /-- The groups of a script were accepted; the first of them may have been layered. -/
  | accepted (tickets : List Ticket) (layered : Bool)
  /-- A pending group was handed out. -/
  | handed (ticket : Ticket)
  /-- The report of an outstanding group was taken in. -/
  | completed (id : Nat)
  /-- Groups were superseded or cleared away. -/
  | dropped (ids : List Nat)
  deriving DecidableEq

namespace Event

/-- The groups an event takes in. -/
@[simp]
def acceptedTickets : Event → List Ticket
  | .accepted tickets _ => tickets
  | .handed _ | .completed _ | .dropped _ => []

/-- The groups an event hands out. -/
@[simp]
def handedTickets : Event → List Ticket
  | .handed ticket => [ticket]
  | .accepted _ _ | .completed _ | .dropped _ => []

/-- The numbers of the groups an event merges into an outstanding one. -/
@[simp]
def mergedIds : Event → List Nat
  | .accepted tickets layered => if layered then (tickets.take 1).map (·.id) else []
  | .handed _ | .completed _ | .dropped _ => []

/-- The numbers of the groups an event reports. -/
@[simp]
def completedIds : Event → List Nat
  | .completed id => [id]
  | .accepted _ _ | .handed _ | .dropped _ => []

/-- The numbers of the groups an event drops. -/
@[simp]
def droppedIds : Event → List Nat
  | .dropped ids => ids
  | .accepted _ _ | .handed _ | .completed _ => []

/-- Whether an event takes in a script. -/
@[simp]
def isAccept : Event → Bool
  | .accepted _ _ => true
  | .handed _ | .completed _ | .dropped _ => false

end Event

/-- The numbers of the pending groups. -/
def pendingIds (q : Queue) : List Nat := q.pending.map (·.id)

/-- The numbers of the outstanding groups. -/
def runningIds (q : Queue) : List Nat := q.running.map (·.id)

/-- The numbers of the groups in the history. -/
def historyIds (q : Queue) : List Nat := q.history.map (·.id)

variable {σ : Type} [Control σ]

/-- What becomes of groups through one operation. -/
def events (state : Queue × σ) : Operation → List Event
  | .add now script =>
    match (state.1.add now script state.2).1 with
    | .error _ => []
    | .ok _ =>
      let groups := (Script.read script).groups
      [.dropped state.1.pendingIds,
        .accepted (number state.1.nextId groups) (state.1.makeRoom groups state.2).2]
  | .next now => ((state.1.next now).1.map .handed).toList
  | .complete report => if report.id ∈ state.1.runningIds then [.completed report.id] else []
  | .clear | .stop => [.dropped (state.1.pendingIds ++ state.1.runningIds)]
  | .resetErrors => []

/-- What becomes of groups through a history. -/
def journal (state : Queue × σ) : List Operation → List Event
  | [] => []
  | o :: history => events state o ++ journal (perform state o) history

/-! ## Small laws -/

@[simp] theorem journal_nil (state : Queue × σ) : journal state [] = [] := rfl

@[simp] theorem journal_cons (state : Queue × σ) (o : Operation) (history : List Operation) :
    journal state (o :: history) = events state o ++ journal (perform state o) history := rfl

theorem journal_append (state : Queue × σ) (first second : List Operation) :
    journal state (first ++ second) =
      journal state first ++ journal (performAll state first) second := by
  induction first generalizing state with
  | nil => rfl
  | cons o first ih => simp [ih]

/-- A script that is refused leaves no trace. -/
theorem events_add_of_error {state : Queue × σ} {now : Nat} {script : String} {e : QueueError}
    (h : (state.1.add now script state.2).1 = .error e) : events state (.add now script) = [] := by
  simp only [events, h]

/-- A script that is taken in supersedes what is pending. -/
theorem events_add_of_groups {state : Queue × σ} {now : Nat} {script : String}
    {groups : List Group} (h : state.1.stopped = false)
    (hcheck : Script.check state.1.engine.maxActionSeconds script = .ok groups) :
    events state (.add now script) = [.dropped state.1.pendingIds,
      .accepted (number state.1.nextId groups) (state.1.makeRoom groups state.2).2] := by
  have hread : (Script.read script).groups = groups := by rw [(Script.read_of_check hcheck).1]
  simp only [events, add_of_groups h hcheck, hread]

end Combo.Queue
