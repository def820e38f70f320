-- SUMMARY: The run of one action alone: what it is about to send, under any driver, and the moves of a run without siblings.
import Combo.Executor.Plan
import Combo.Proofs.Executor.Poll

/-!
# One action alone

A poll does two things: it decides what is to be sent, and it deals with the
answer. Only the second depends on the device. `Progress.intent` is the
decision, `Intent.settle` deals with the answer of any driver, and
`poll_eq_settle` shows that a poll is one after the other.

A `Solo` is an action on its own: with a clock, a token that may be cancelled,
and nothing else. Its run is a row of polls, milliseconds and cancellations; time
passes only when a poll would not get on with the action.
-/

namespace Combo

/-! ## Intents -/

/-- What a poll is about to do. -/
inductive Intent where
  /-- Nothing is sent. -/
  | silent (next : Progress)
  /-- A command is sent; when it is done the action goes on to `next`. -/
  | send (command : Command) (next : Progress)
  deriving DecidableEq

/-- What comes of an intent under a driver. -/
def Intent.settle (driver : Command → Response) : Intent → Progress × Option Exchange
  | .silent next => (next, none)
  | .send command next =>
    let progress := match driver command with
      | .done => next
      | .refused e => .ended (.failed (ExecutionError.input e).message)
      | .crashed => .ended (.failed ExecutionError.crash.message)
    (progress, some (command, driver command))

/-- How far the action has come when nothing goes wrong. -/
def Intent.next : Intent → Progress
  | .silent next => next
  | .send _ next => next

/-- A driver lets an action go on as it was about to, or has it fail with an error of its own. -/
theorem Intent.settle_cases (driver : Command → Response) (i : Intent) :
    (i.settle driver).1 = i.next ∨
    (∃ e, (i.settle driver).1 = .ended (.failed (ExecutionError.input e).message)) ∨
    (i.settle driver).1 = .ended (.failed ExecutionError.crash.message) := by
  cases i with
  | silent next => exact .inl rfl
  | send command next =>
      simp only [settle, Intent.next]
      cases driver command with
      | done => exact .inl rfl
      | refused e => exact .inr (.inl ⟨e, rfl⟩)
      | crashed => exact .inr (.inr rfl)

/-- What the first poll of a plan is about to do. -/
def Plan.intent (attackMs now : Nat) (action : Action) : Plan → Intent
  | .hold input ms => .send (.down input) (.holding input (now + ms))
  | .press input => .send (.press input) (.ended .completed)
  | .repeatPress 0 => .silent (.ended .completed)
  | .repeatPress (left + 1) => .send (.press .attack) (.pressing left (now + attackMs))
  | .pause ms => .silent (.pausing (now + ms))
  | .move dx dy => .send (.move dx dy) (.ended .completed)
  | .invalid => .silent (.ended (.failed (ExecutionError.invalidAction action.text).message))

/-- What a poll of an action is about to do. -/
def Progress.intent (attackMs now : Nat) (action : Action) (cancelled : Bool)
    (progress : Progress) : Intent :=
  match progress with
  | .queued => .silent progress
  | .ended _ => .silent progress
  | .ready =>
    if cancelled then .silent (.ended .cancelled)
    else (action.plan attackMs).intent attackMs now action
  | .holding input due =>
    if cancelled then .send (.up input) (.ended .cancelled)
    else if due ≤ now then .send (.up input) (.ended .completed)
    else .silent progress
  | .pressing left due =>
    if cancelled then .silent (.ended .cancelled)
    else if due ≤ now then
      match left with
      | 0 => .silent (.ended .completed)
      | left + 1 => .send (.press .attack) (.pressing left (now + attackMs))
    else .silent progress
  | .pausing due =>
    if cancelled then .silent (.ended .cancelled)
    else if due ≤ now then .silent (.ended .completed)
    else .silent progress

theorem Plan.start_eq_settle (device : Device) (attackMs now : Nat) (action : Action)
    (plan : Plan) :
    plan.start device attackMs now action =
      (plan.intent attackMs now action).settle device.respond := by
  cases plan with
  | repeatPress presses => cases presses <;> rfl
  | hold | press | pause | move | invalid => rfl

/-- A poll is its intent, settled by the answer of the device. -/
theorem Progress.poll_eq_settle (device : Device) (attackMs now : Nat) (action : Action)
    (cancelled : Bool) (p : Progress) :
    p.poll device attackMs now action cancelled =
      (p.intent attackMs now action cancelled).settle device.respond := by
  cases p with
  | queued | ended => rfl
  | ready =>
      cases cancelled with
      | true => rfl
      | false => exact Plan.start_eq_settle device attackMs now action _
  | holding input due =>
      simp only [poll, intent]
      split
      · rfl
      · split <;> rfl
  | pressing left due =>
      simp only [poll, intent]
      split
      · rfl
      · split
        · cases left <;> rfl
        · rfl
  | pausing due =>
      simp only [poll, intent]
      split
      · rfl
      · split <;> rfl

/-- An intent is what a poll comes to on a device that does everything. -/
theorem Progress.next_intent (attackMs now : Nat) (action : Action) (cancelled : Bool)
    (p : Progress) :
    (p.intent attackMs now action cancelled).next =
      (p.poll {} attackMs now action cancelled).1 := by
  rw [poll_eq_settle]
  cases p.intent attackMs now action cancelled with
  | silent next => rfl
  | send command next => cases command <;> rfl

/-! ## First instants -/

section First

variable {α β γ : Type} {move : α → β → α} {seen : α → Option γ}

/-- What is seen first in the course of some moves. -/
def firstSeen (move : α → β → α) (seen : α → Option γ) (a : α) : List β → Option γ
  | [] => seen a
  | m :: moves => (seen a).or (firstSeen move seen (move a m) moves)

/-- What can be seen after a move is seen first, unless something was seen before. -/
theorem firstSeen_append_singleton (a : α) (moves : List β) (m : β) :
    firstSeen move seen a (moves ++ [m]) =
      (firstSeen move seen a moves).or (seen ((moves ++ [m]).foldl move a)) := by
  induction moves generalizing a with
  | nil => rfl
  | cons m' moves ih => simp [firstSeen, ih, Option.or_assoc]

/-- What can be seen at the end is not seen there for the first time if something was seen. -/
theorem firstSeen_or (a : α) (moves : List β) :
    (firstSeen move seen a moves).or (seen (moves.foldl move a)) = firstSeen move seen a moves := by
  induction moves generalizing a with
  | nil => cases h : seen a <;> simp [firstSeen, h]
  | cons m moves ih => simp [firstSeen, ih, Option.or_assoc]

/-- To make one move more or none adds what can be seen then. -/
theorem firstSeen_append_toList (a : α) (moves : List β) (o : Option β) :
    firstSeen move seen a (moves ++ o.toList) =
      (firstSeen move seen a moves).or (seen ((moves ++ o.toList).foldl move a)) := by
  cases o with
  | none =>
      rw [Option.toList_none, List.append_nil, firstSeen_or]
  | some m => exact firstSeen_append_singleton a moves m

end First

/-! ## Runs -/

/-- An action on its own, with the time between the presses of an attack. -/
structure Solo where
  action : Action
  attackMs : Nat
  now : Nat
  cancelled : Bool
  progress : Progress
  deriving DecidableEq

namespace Solo

/-- One thing that can happen to an action on its own. -/
inductive Move where
  /-- The action is polled while the driver answers like this. -/
  | poll (driver : Command → Response)
  /-- A millisecond passes. -/
  | tick
  | cancel

/-- An action that is started at an instant and not polled yet. -/
def start (action : Action) (attackMs now : Nat) (cancelled : Bool) : Solo :=
  { action, attackMs, now, cancelled, progress := .ready }

/-- Whether a poll would get on with the action. -/
def isRunnable (x : Solo) : Bool := x.progress.runnable x.now x.cancelled

/-- What a poll of the action comes to under a driver. -/
def polled (x : Solo) (driver : Command → Response) : Progress × Option Exchange :=
  (x.progress.intent x.attackMs x.now x.action x.cancelled).settle driver

/-- Makes a move; a move that cannot be made changes nothing. -/
def move (x : Solo) : Move → Solo
  | .poll driver => if x.isRunnable then { x with progress := (x.polled driver).1 } else x
  | .tick => if x.isRunnable then x else { x with now := x.now + 1 }
  | .cancel => { x with cancelled := true }

/-- What is sent in a move, with the instant and the answer. -/
def sent (x : Solo) : Move → List (Nat × Exchange)
  | .poll driver =>
    if x.isRunnable then ((x.polled driver).2.map fun exchange => (x.now, exchange)).toList else []
  | .tick | .cancel => []

/-- Makes moves one after another. -/
def play (x : Solo) (moves : List Move) : Solo := moves.foldl move x

/-- What is sent in the course of some moves. -/
def exchanges (x : Solo) : List Move → List (Nat × Exchange)
  | [] => []
  | m :: moves => x.sent m ++ (x.move m).exchanges moves

/-- The first instant at which the action has ended. -/
def endedAt (x : Solo) (moves : List Move) : Option Nat :=
  firstSeen move (fun x => if x.progress.isEnded then some x.now else none) x moves

/-! ## Small laws -/

@[simp] theorem play_nil (x : Solo) : x.play [] = x := rfl

@[simp] theorem play_cons (x : Solo) (m : Move) (moves : List Move) :
    x.play (m :: moves) = (x.move m).play moves := rfl

theorem play_append (x : Solo) (first second : List Move) :
    x.play (first ++ second) = (x.play first).play second := by
  simp [play, List.foldl_append]

theorem exchanges_append (x : Solo) (first second : List Move) :
    x.exchanges (first ++ second) = x.exchanges first ++ (x.play first).exchanges second := by
  induction first generalizing x with
  | nil => rfl
  | cons m first ih => simp [exchanges, ih]

theorem endedAt_append_toList (x : Solo) (moves : List Move) (o : Option Move) :
    x.endedAt (moves ++ o.toList) = (x.endedAt moves).or
      (if (x.play (moves ++ o.toList)).progress.isEnded then
        some (x.play (moves ++ o.toList)).now else none) :=
  firstSeen_append_toList x moves o

@[simp] theorem move_action (x : Solo) (m : Move) : (x.move m).action = x.action := by
  cases m <;> simp only [move] <;> split <;> rfl

@[simp] theorem move_attackMs (x : Solo) (m : Move) : (x.move m).attackMs = x.attackMs := by
  cases m <;> simp only [move] <;> split <;> rfl

@[simp] theorem play_action (x : Solo) (moves : List Move) : (x.play moves).action = x.action := by
  induction moves generalizing x with
  | nil => rfl
  | cons m moves ih => exact (ih (x.move m)).trans (move_action x m)

@[simp] theorem play_attackMs (x : Solo) (moves : List Move) :
    (x.play moves).attackMs = x.attackMs := by
  induction moves generalizing x with
  | nil => rfl
  | cons m moves ih => exact (ih (x.move m)).trans (move_attackMs x m)

/-! ## Actions that wait or have ended -/

/-- An action that was not started or has ended cannot go on. -/
theorem not_runnable_of_idle {x : Solo}
    (idle : x.progress.isQueued = true ∨ x.progress.isEnded = true) : x.isRunnable = false := by
  unfold isRunnable
  cases hp : x.progress <;> simp_all [Progress.runnable, Progress.isQueued, Progress.isEnded]

/-- Nothing comes of an action that was not started or has ended. -/
theorem move_of_idle {x : Solo}
    (idle : x.progress.isQueued = true ∨ x.progress.isEnded = true) (m : Move) :
    (x.move m).progress = x.progress ∧ x.sent m = [] := by
  have still := not_runnable_of_idle idle
  cases m with
  | poll driver => simp [move, sent, still]
  | tick => simp [move, sent, still]
  | cancel => exact ⟨rfl, rfl⟩

theorem play_of_idle {x : Solo}
    (idle : x.progress.isQueued = true ∨ x.progress.isEnded = true) (moves : List Move) :
    (x.play moves).progress = x.progress ∧ x.exchanges moves = [] := by
  induction moves generalizing x with
  | nil => exact ⟨rfl, rfl⟩
  | cons m moves ih =>
      obtain ⟨progress, silent⟩ := move_of_idle idle m
      obtain ⟨progress', silent'⟩ := ih (progress ▸ idle)
      exact ⟨progress'.trans progress, by rw [exchanges, silent, silent', List.append_nil]⟩

/-- An action that was started remains so. -/
theorem isQueued_move {x : Solo} (started : x.progress.isQueued = false) (m : Move) :
    (x.move m).progress.isQueued = false := by
  cases m with
  | tick =>
      simp only [move]
      split <;> exact started
  | cancel => exact started
  | poll driver =>
      simp only [move]
      split
      · rename_i ready
        have going : (x.progress.intent x.attackMs x.now x.action x.cancelled).next.isQueued =
            false := by
          rw [Progress.next_intent]
          exact (Progress.poll_polled ready rfl).isQueued_eq_false
        rcases Intent.settle_cases driver
          (x.progress.intent x.attackMs x.now x.action x.cancelled) with heq | ⟨e, heq⟩ | heq
        · simpa only [polled, heq] using going
        · simp only [polled, heq]
          rfl
        · simp only [polled, heq]
          rfl
      · exact started

theorem isQueued_play {x : Solo} (started : x.progress.isQueued = false) (moves : List Move) :
    (x.play moves).progress.isQueued = false := by
  induction moves generalizing x with
  | nil => exact started
  | cons m moves ih => exact ih (isQueued_move started m)

end Solo

end Combo
