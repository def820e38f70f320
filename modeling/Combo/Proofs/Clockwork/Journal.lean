-- SUMMARY: The journal of a play: what its feed, its device and whoever layers groups onto a run see of it.
import Combo.Clockwork.Move

/-!
# Journals

A play is seen from outside through what the feed is asked and handed, the
commands the device is sent, and the groups accepted for layering. The journal
of a play lists these events in order. It adds nothing: the feed and the record
of commands at the end of a play are what the journal makes of them.
-/

namespace Combo

/-- One thing that is seen of an executor at work. -/
inductive Event where
  /-- The feed was asked for a group at an instant. -/
  | asked (now : Nat) (handout : Handout)
  /-- A group was accepted for layering. -/
  | layered (group : Group)
  /-- A command was sent to the device. -/
  | called (call : Call)
  /-- A report was handed in. -/
  | reported (report : Report)
  /-- The worker left. -/
  | left
  /-- The worker was taken away where it stood. -/
  | aborted
  deriving DecidableEq

namespace Event

/-- The command an event tells of. -/
def call? : Event → Option Call
  | .called call => some call
  | .asked _ _ | .layered _ | .reported _ | .left | .aborted => none

/-- The actions an event adds to the running group. -/
def layeredActions : Event → List Action
  | .layered group => group.actions
  | .asked _ _ | .called _ | .reported _ | .left | .aborted => []

/-- What an event does to the feed. -/
def onFeed {φ : Type} [Feed φ] (feed : φ) : Event → φ
  | .asked now _ => (Feed.next now feed).2
  | .reported report => Feed.complete report feed
  | .layered _ | .called _ | .left | .aborted => feed

end Event

namespace Clockwork

variable {φ : Type} [Feed φ]

/-- What is seen of a step of the worker. -/
def workEvents (s : Clockwork φ) : List Event :=
  match s.executor.worker with
  | some ⟨_, .asking _⟩ => [.asked s.now (Feed.next s.now s.feed).1]
  | some ⟨_, .reporting report _⟩ => [.reported report]
  | some ⟨true, .checking⟩ => [.left]
  | some ⟨true, .sleeping _⟩ => [.left]
  | _ => []

/-- The commands sent from one state to a later one. -/
def callsSince (s s' : Clockwork φ) : List Event :=
  (s'.executor.calls.drop s.executor.calls.length).map .called

/-- What is seen of a move. -/
def events (s : Clockwork φ) : Move → List Event
  | .work => s.workEvents
  | .poll position => callsSince s (s.poll position)
  | .abort =>
    callsSince s (s.move .abort) ++ if s.executor.worker.isSome then [.aborted] else []
  | .request (.layer group) => if (s.executor.layer group).2 then [.layered group] else []
  | .request .interruptAll | .request (.interruptConflicting _) => []
  | .closeLate | .tick | .start | .requestStop | .setFocus _ _ | .setDevice _ => []

/-- What is seen of a play. -/
def journal (s : Clockwork φ) : List Move → List Event
  | [] => []
  | m :: moves => s.events m ++ (s.move m).journal moves

/-! ## Small laws -/

@[simp] theorem journal_nil (s : Clockwork φ) : s.journal [] = [] := rfl

@[simp] theorem journal_cons (s : Clockwork φ) (m : Move) (moves : List Move) :
    s.journal (m :: moves) = s.events m ++ (s.move m).journal moves := rfl

theorem journal_append (s : Clockwork φ) (first second : List Move) :
    s.journal (first ++ second) = s.journal first ++ (s.play first).journal second := by
  induction first generalizing s with
  | nil => rfl
  | cons m moves ih => simp [ih]

end Clockwork

end Combo
