-- SUMMARY: The journal of a crew's play: what is seen of each worker, and of the actions that were given up.
import Combo.Crew.Move
import Combo.Proofs.Clockwork.Journal

/-!
# Journals of a crew

What is seen of a crew is what is seen of its workers, each event with the worker
it belongs to. A command by which an action that was given up lets go belongs to
none of them.
-/

namespace Combo

/-- An event with the worker it belongs to. -/
structure Note where
  worker : Option Nat
  event : Event
  deriving DecidableEq

namespace Crew

variable {φ : Type}

/-- The worker that a move is about. -/
def Move.worker? : Move → Option Nat
  | .work worker | .closeLate worker | .poll worker _ | .join worker _ | .notice worker | .giveUp worker
  | .abort worker => some worker
  | .letGo _ | .tick | .start | .stop | .request _ | .setFocus _ _ | .setDevice _ => none

/-- What is seen of a step of a worker. -/
def workEvents [Feed φ] (c : Crew φ) (worker : Nat) : List Event :=
  match c.members[worker]? with
  | none => []
  | some m =>
    match m.post with
    | .asking => [.asked c.now (Feed.next c.now c.feed).1]
    | .reporting report _ => [.reported report]
    | .checking | .sleeping _ => if m.stopping then [.left] else []
    | _ => []

/-- The commands sent from one state to a later one. -/
def callsSince (c c' : Crew φ) : List Event :=
  (c'.sent.drop c.sent.length).map fun s => .called s.call

/-- What is seen of a move that sends some commands. -/
theorem callsSince_of_append {c c₁ : Crew φ} {sent : List Sent} (h : c₁.sent = c.sent ++ sent) :
    c.callsSince c₁ = sent.map fun s => .called s.call := by
  rw [callsSince, h, List.drop_left]

variable [Feed φ]

/-- What is seen of a move. -/
def notes (c : Crew φ) : Move → List Note
  | .work worker => (c.workEvents worker).map fun e => ⟨some worker, e⟩
  | .poll worker position => (c.callsSince (c.poll worker position)).map fun e => ⟨some worker, e⟩
  | .letGo index => (c.callsSince (c.letGo index)).map fun e => ⟨none, e⟩
  | .abort worker =>
    if c.members[worker]?.any Member.isAbortable then [⟨some worker, .aborted⟩] else []
  | .request (.layer group) => if (c.layer group).2 then [⟨c.board.gate, .layered group⟩] else []
  | .request .interruptAll | .request (.interruptConflicting _) => []
  | .closeLate _ | .join _ _ | .notice _ | .giveUp _ | .tick | .start | .stop | .setFocus _ _
  | .setDevice _ => []

/-- What is seen of a play, with the workers. -/
def record (c : Crew φ) : List Move → List Note
  | [] => []
  | m :: moves => c.notes m ++ (c.move m).record moves

/-- What is seen of a play. -/
def journal (c : Crew φ) (moves : List Move) : List Event := (c.record moves).map (·.event)

/-! ## Small laws -/

@[simp] theorem record_nil (c : Crew φ) : c.record [] = [] := rfl

@[simp] theorem record_cons (c : Crew φ) (m : Move) (moves : List Move) :
    c.record (m :: moves) = c.notes m ++ (c.move m).record moves := rfl

theorem record_append (c : Crew φ) (first second : List Move) :
    c.record (first ++ second) = c.record first ++ (c.play first).record second := by
  induction first generalizing c with
  | nil => rfl
  | cons m moves ih => simp [ih]

@[simp] theorem journal_nil (c : Crew φ) : c.journal [] = [] := rfl

@[simp] theorem journal_cons (c : Crew φ) (m : Move) (moves : List Move) :
    c.journal (m :: moves) = (c.notes m).map (·.event) ++ (c.move m).journal moves := by
  simp [journal]

theorem journal_append (c : Crew φ) (first second : List Move) :
    c.journal (first ++ second) = c.journal first ++ (c.play first).journal second := by
  simp [journal, record_append]

/-- A move of a worker that is not there does nothing, and nothing is seen of it. -/
theorem still_of_nobody {c : Crew φ} {mv : Move} {worker : Nat} (about : mv.worker? = some worker)
    (nobody : c.members[worker]? = none) : c.move mv = c ∧ c.notes mv = [] := by
  cases mv <;> cases about <;>
    simp [move, notes, work, closeLate, poll, join, notice, giveUp, abort, workEvents, callsSince, nobody]

end Crew

end Combo
