-- SUMMARY: The token of an action alone: the looks at it, the instants of its cancellation, and runs grown by one move.
import Mathlib.Data.List.Induction
import Combo.Proofs.Executor.Solo

/-!
# The token of an action

Each poll that gets on with an action begins with a look at its token. `Solo.looks` are
these looks, with their instants and whether the cancellation is seen; `CancelledAt` are
the instants at which the action is cancelled. Runs grow at their end here, by one move.
-/

namespace Combo

/-- The message with which an answer makes an action fail. -/
def Response.failure? : Response → Option String
  | .done => none
  | .refused e => some (ExecutionError.input e).message
  | .crashed => some ExecutionError.crash.message

theorem Response.failure?_eq_none {r : Response} (h : r.failure? = none) : r = .done := by
  cases r with
  | done => rfl
  | refused | crashed => cases h

/-- An answer lets the action go on, or makes it fail with its message. -/
theorem Intent.settle_send (driver : Command → Response) (command : Command) (next : Progress) :
    (Intent.send command next).settle driver =
      ((driver command).failure?.elim next fun message => .ended (.failed message),
        some (command, driver command)) := by
  simp only [settle]
  cases driver command <;> rfl

namespace Solo

variable {x : Solo} {moves : List Move} {m : Move} {k c : Nat}

/-! ## Looks at the token -/

/-- The look at the token in a move: its instant, and whether the cancellation is seen. -/
def look (x : Solo) : Move → List (Nat × Bool)
  | .poll _ => if x.isRunnable then [(x.now, x.cancelled)] else []
  | .tick | .cancel => []

/-- The looks in the course of some moves. -/
def looks (x : Solo) : List Move → List (Nat × Bool)
  | [] => []
  | m :: moves => x.look m ++ (x.move m).looks moves

theorem looks_append (x : Solo) (first second : List Move) :
    x.looks (first ++ second) = x.looks first ++ (x.play first).looks second := by
  induction first generalizing x with
  | nil => rfl
  | cons m first ih => simp [looks, ih]

/-- Whether the look before a press, or the one after the last press, sees the cancellation. -/
def SeesCancelled (x : Solo) (moves : List Move) (k : Nat) : Prop :=
  ∃ s, (x.looks moves)[k]? = some (s, true)

/-! ## Cancellations -/

/-- An instant at which the action is cancelled: no later than its start, or in the course of the moves. -/
inductive CancelledAt (x : Solo) (moves : List Move) : Nat → Prop
  | before (c : Nat) (token : x.cancelled = true) (le : c ≤ x.now) : CancelledAt x moves c
  | within (first rest : List Move) (split : moves = first ++ .cancel :: rest)
      (fresh : (x.play first).cancelled = false) : CancelledAt x moves (x.play first).now

theorem cancelled_move (h : x.cancelled = true) (m : Move) : (x.move m).cancelled = true := by
  cases m with
  | poll driver | tick =>
      simp only [move]
      split <;> exact h
  | cancel => rfl

theorem cancelled_play (h : x.cancelled = true) (moves : List Move) :
    (x.play moves).cancelled = true := by
  induction moves generalizing x with
  | nil => exact h
  | cons m moves ih => exact ih (cancelled_move h m)

theorem CancelledAt.cancelled (h : x.CancelledAt moves c) : (x.play moves).cancelled = true := by
  cases h with
  | before _ token => exact cancelled_play token moves
  | within first rest split fresh =>
      rw [split, play_append]
      exact cancelled_play (x := (x.play first).move .cancel) rfl rest

theorem CancelledAt.append (h : x.CancelledAt moves c) (more : List Move) :
    x.CancelledAt (moves ++ more) c := by
  cases h with
  | before _ token le => exact .before c token le
  | within first rest split fresh =>
      exact .within first (rest ++ more) (by rw [split, List.append_assoc]; rfl) fresh

/-- An action is cancelled at the instant of a move only if that move cancels it for the first time. -/
theorem CancelledAt.of_append_singleton (h : x.CancelledAt (moves ++ [m]) c) :
    x.CancelledAt moves c ∨
      (m = .cancel ∧ (x.play moves).cancelled = false ∧ c = (x.play moves).now) := by
  cases h with
  | before _ token le => exact .inl (.before c token le)
  | within first rest split fresh =>
      rcases List.eq_nil_or_concat rest with rfl | ⟨rest, m', rfl⟩
      · obtain ⟨rfl, last⟩ := List.append_inj' split rfl
        exact .inr ⟨by simpa using last, fresh, rfl⟩
      · rw [List.concat_eq_append, ← List.cons_append, ← List.append_assoc] at split
        exact .inl (.within first rest (List.append_inj' split rfl).1 fresh)

/-- A token that is cancelled was cancelled at some instant. -/
theorem exists_cancelledAt (h : (x.play moves).cancelled = true) : ∃ c, x.CancelledAt moves c := by
  induction moves using List.reverseRecOn with
  | nil => exact ⟨x.now, .before _ h (Nat.le_refl _)⟩
  | append_singleton moves m ih =>
      cases earlier : (x.play moves).cancelled with
      | true =>
          obtain ⟨c, hc⟩ := ih earlier
          exact ⟨c, hc.append [m]⟩
      | false =>
          rw [play_append] at h
          cases m with
          | cancel => exact ⟨_, .within moves [] rfl earlier⟩
          | poll driver | tick =>
              simp only [play_cons, play_nil, move] at h
              split at h <;> simp [earlier] at h

/-! ## One move more -/

theorem exchanges_append_singleton (x : Solo) (moves : List Move) (m : Move) :
    x.exchanges (moves ++ [m]) = x.exchanges moves ++ (x.play moves).sent m := by
  simp [exchanges_append, exchanges]

theorem looks_append_singleton (x : Solo) (moves : List Move) (m : Move) :
    x.looks (moves ++ [m]) = x.looks moves ++ (x.play moves).look m := by
  simp [looks_append, looks]

theorem play_append_singleton (x : Solo) (moves : List Move) (m : Move) :
    x.play (moves ++ [m]) = (x.play moves).move m := by
  simp [play_append]

theorem endedAt_append_singleton (x : Solo) (moves : List Move) (m : Move) :
    x.endedAt (moves ++ [m]) = (x.endedAt moves).or
      (if (x.play (moves ++ [m])).progress.isEnded then some (x.play (moves ++ [m])).now else none) :=
  firstSeen_append_singleton x moves m

theorem endedAt_of_going (going : (x.play moves).progress.isEnded = false) :
    x.endedAt moves = none := by
  induction moves generalizing x with
  | nil => exact if_neg (by simp [show x.progress.isEnded = false from going])
  | cons m moves ih =>
      have now : x.progress.isEnded = false := by
        cases ended : x.progress.isEnded with
        | false => rfl
        | true =>
            have still := (play_of_idle (.inr ended) (m :: moves)).1
            rw [still, ended] at going
            cases going
      have later := ih going
      unfold endedAt at later
      simp [endedAt, firstSeen, now, later]

/-- An action that has not ended before a move ends with it, at the instant of the move. -/
theorem endedAt_append_of_going (going : (x.play moves).progress.isEnded = false)
    (ended : ((x.play moves).move m).progress.isEnded = true) :
    x.endedAt (moves ++ [m]) = some ((x.play moves).move m).now := by
  rw [endedAt_append_singleton, endedAt_of_going going, play_append_singleton, ended]
  rfl

theorem endedAt_append_of_ended {s : Nat} (h : x.endedAt moves = some s) (m : Move) :
    x.endedAt (moves ++ [m]) = some s := by
  rw [endedAt_append_singleton, h, Option.some_or]

theorem look_of_idle (idle : x.progress.isEnded = true) (m : Move) : x.look m = [] := by
  have still := not_runnable_of_idle (.inr idle)
  cases m <;> simp [look, still]

theorem now_le_move (x : Solo) (m : Move) : x.now ≤ (x.move m).now := by
  cases m with
  | poll driver | tick =>
      simp only [move]
      split <;> simp
  | cancel => exact Nat.le_refl _

end Solo

end Combo
