-- SUMMARY: The presses of an attack under cancellations and failures: which of them are made, when, and how and when the attack ends.
import Combo.Proofs.Executor.PressStage

/-!
# Repeated presses

`PressesExactly` is the law of an attack that is answered and cancelled in any way: which
of its presses are made, at which instants, and how and when it ends. It is read off the
stage that the presses have come to.
-/

namespace Combo

namespace Solo

variable {x : Solo} {moves : List Move} {n k c : Nat}

/-! ## The whole run -/

/-- Whether a press was made and done. -/
def Succeeded (x : Solo) (moves : List Move) (k : Nat) : Prop :=
  ∃ e, (x.exchanges moves)[k]? = some e ∧ e.2.2 = .done

/--
What comes of so many presses in some moves. Everything that is sent is a press, one interval after
the one before, and nothing is sent once the token is cancelled. When the action has ended, the presses
that were made are those before which no press failed and no cancellation could be seen, and it has
failed at the first press that failed, or completed an interval after the last one, or else it was
cancelled, no earlier than its start.
-/
structure PressesExactly (x : Solo) (n : Nat) (moves : List Move) : Prop where
  sent : (x.exchanges moves).map (fun e => (e.1, e.2.1)) =
    presses x.attackMs x.now (x.exchanges moves).length
  silent : ∀ first rest, moves = first ++ rest → (x.play first).cancelled = true →
    x.exchanges moves = x.exchanges first
  tied : ∀ c, x.CancelledAt moves c →
    (∀ k < (x.exchanges moves).length, x.now + k * x.attackMs ≤ c) ∧
      ∀ k, x.SeesCancelled moves k → c ≤ x.now + k * x.attackMs
  pressed : (x.play moves).progress.isEnded = true → ∀ k, k < (x.exchanges moves).length ↔
    k < n ∧ (∀ j < k, x.Succeeded moves j) ∧ ¬ x.SeesCancelled moves k
  failed : ∀ k e message, (x.exchanges moves)[k]? = some e → e.2.2.failure? = some message →
    (x.play moves).progress = .ended (.failed message) ∧
      x.endedAt moves = some (x.now + k * x.attackMs)
  completed : (x.play moves).progress.isEnded = true → (∀ j < n, x.Succeeded moves j) →
    ¬ x.SeesCancelled moves n → (x.play moves).progress = .ended .completed ∧
      x.endedAt moves = some (x.now + n * x.attackMs)
  cancelled : (x.play moves).progress.isEnded = true → (∀ e ∈ x.exchanges moves, e.2.2 = .done) →
    ¬ ((∀ j < n, x.Succeeded moves j) ∧ ¬ x.SeesCancelled moves n) →
      (x.play moves).progress = .ended .cancelled ∧ (∃ c, x.CancelledAt moves c) ∧
        ∀ c, x.CancelledAt moves c → x.endedAt moves = some (max x.now c)

theorem Made.length (h : x.Made moves k) : (x.exchanges moves).length = k := by
  simpa [presses] using congrArg List.length h.sent

theorem clearLooks_unseen {s : Nat} : (x.clearLooks n)[k]? ≠ some (s, true) := by
  rw [getElem?_clearLooks]
  split <;> simp

theorem not_seesCancelled (looks : x.looks moves = x.clearLooks n) (k : Nat) :
    ¬ x.SeesCancelled moves k := by
  rintro ⟨s, seen⟩
  exact clearLooks_unseen (looks ▸ seen)

theorem seesCancelled_iff {s : Nat} (looks : x.looks moves = x.clearLooks n ++ [(s, true)]) :
    x.SeesCancelled moves k ↔ k = n := by
  constructor
  · rintro ⟨s', seen⟩
    rw [looks, List.getElem?_append] at seen
    split at seen
    · exact absurd seen clearLooks_unseen
    · have last := (List.getElem?_eq_some_iff.1 seen).1
      simp [clearLooks] at *
      omega
  · rintro rfl
    exact ⟨s, by simp [looks, clearLooks]⟩

theorem succeeded_of_done (done : ∀ e ∈ x.exchanges moves, e.2.2 = .done) :
    x.Succeeded moves k ↔ k < (x.exchanges moves).length := by
  constructor
  · rintro ⟨e, made, -⟩
    exact (List.getElem?_eq_some_iff.1 made).1
  · intro lt
    exact ⟨_, List.getElem?_eq_getElem lt, done _ (List.getElem_mem lt)⟩

/-- What is cancelled sends nothing. -/
theorem PressStage.sent_of_cancelled (h : x.PressStage n moves)
    (token : (x.play moves).cancelled = true) (m : Move) : (x.play moves).sent m = [] := by
  cases ended : (x.play moves).progress.isEnded with
  | true => exact (move_of_idle (.inr ended) m).2
  | false =>
      obtain ⟨k, going⟩ := h.exists_going ended
      cases m with
      | tick | cancel => rfl
      | poll driver =>
          have ready : (x.play moves).isRunnable = true := by rw [going.isRunnable, token, Bool.true_or]
          exact (going.polled driver (.ended .cancelled) ready
            (by rw [token, intent_beforePress_cancelled]; rfl)).2.1

theorem exchanges_of_cancelled {first : List Move} (stage : ∀ moves, x.PressStage n moves)
    (token : (x.play first).cancelled = true) (rest : List Move) :
    x.exchanges (first ++ rest) = x.exchanges first := by
  induction rest using List.reverseRecOn with
  | nil => rw [List.append_nil]
  | append_singleton rest m ih =>
      have still : (x.play (first ++ rest)).cancelled = true := by
        rw [play_append]
        exact cancelled_play token rest
      rw [← List.append_assoc, exchanges_append_singleton,
        (stage _).sent_of_cancelled still, List.append_nil, ih]

namespace PressStage

theorem exists_made (h : x.PressStage n moves) : ∃ k, x.Made moves k := by
  cases h with
  | going k h => exact ⟨k, h.made⟩
  | failed k lt made => exact ⟨k + 1, made⟩
  | completed made => exact ⟨n, made⟩
  | cancelled k s le made => exact ⟨k, made⟩

/-- What a look sees is tied to the instant of the cancellation, up to the order within an instant. -/
theorem tied (h : x.PressStage n moves) (hc : x.CancelledAt moves c) :
    (∀ k < (x.exchanges moves).length, x.now + k * x.attackMs ≤ c) ∧
      ∀ k, x.SeesCancelled moves k → c ≤ x.now + k * x.attackMs := by
  refine ⟨?_, fun k seen => ?_⟩
  · obtain ⟨k, made⟩ := h.exists_made
    rw [made.length]
    exact made.before c hc
  · cases h with
    | going _ h => exact absurd seen (not_seesCancelled h.looks k)
    | failed _ _ _ _ _ _ _ _ _ looks => exact absurd seen (not_seesCancelled looks k)
    | completed _ _ looks => exact absurd seen (not_seesCancelled looks k)
    | cancelled k' s le made done looks due progress token instant =>
        rw [(seesCancelled_iff looks).1 seen]
        have last := instant c hc
        omega

theorem succeeded_iff_of_failed {earlier : List (Nat × Exchange)} {last : Nat × Exchange}
    {message : String} (answers : x.exchanges moves = earlier ++ [last])
    (done : ∀ e ∈ earlier, e.2.2 = .done) (failure : last.2.2.failure? = some message) :
    x.Succeeded moves k ↔ k < earlier.length := by
  constructor
  · rintro ⟨e, made, succeeded⟩
    rw [answers, List.getElem?_append] at made
    split at made
    · assumption
    · have is_last := List.mem_of_getElem? made
      rw [List.mem_singleton.1 is_last] at succeeded
      rw [succeeded] at failure
      cases failure
  · intro lt
    refine ⟨earlier[k], ?_, done _ (List.getElem_mem lt)⟩
    rw [answers, List.getElem?_append_left lt, List.getElem?_eq_getElem lt]

theorem pressed (h : x.PressStage n moves) (ended : (x.play moves).progress.isEnded = true) (k : Nat) :
    k < (x.exchanges moves).length ↔
      k < n ∧ (∀ j < k, x.Succeeded moves j) ∧ ¬ x.SeesCancelled moves k := by
  cases h with
  | going _ h =>
      rw [h.isEnded] at ended
      cases ended
  | failed k' lt made earlier last message answers done failure looks =>
      have count : earlier.length = k' := by simpa [answers] using made.length
      simp only [made.length, succeeded_iff_of_failed answers done failure, count,
        not_seesCancelled looks, not_false_iff, and_true]
      constructor
      · intro le
        exact ⟨by omega, fun j lt => by omega⟩
      · rintro ⟨-, succeeded⟩
        by_contra past
        exact Nat.lt_irrefl k' (succeeded k' (by omega))
  | completed made done looks =>
      simp only [succeeded_of_done done, made.length, not_seesCancelled looks, not_false_iff, and_true]
      exact ⟨fun lt => ⟨lt, fun j earlier => Nat.lt_trans earlier lt⟩, fun h => h.1⟩
  | cancelled k' s le made done looks =>
      simp only [succeeded_of_done done, made.length, seesCancelled_iff looks]
      constructor
      · intro lt
        exact ⟨by omega, fun j earlier => by omega, by omega⟩
      · rintro ⟨-, succeeded, unseen⟩
        by_contra past
        exact Nat.lt_irrefl k' (succeeded k' (by omega))

theorem failed_at (h : x.PressStage n moves) {e : Nat × Exchange} {message : String}
    (made : (x.exchanges moves)[k]? = some e) (failure : e.2.2.failure? = some message) :
    (x.play moves).progress = .ended (.failed message) ∧
      x.endedAt moves = some (x.now + k * x.attackMs) := by
  have absurd_done (done : ∀ e ∈ x.exchanges moves, e.2.2 = .done) : False := by
    rw [done e (List.mem_of_getElem? made)] at failure
    cases failure
  cases h with
  | going _ h => exact (absurd_done h.done).elim
  | completed _ done => exact (absurd_done done).elim
  | cancelled _ _ _ _ done => exact (absurd_done done).elim
  | failed k' lt made' earlier last message' answers done failure' looks progress ended =>
      have count : earlier.length = k' := by simpa [answers] using made'.length
      rw [answers, List.getElem?_append] at made
      split at made
      · rw [done e (List.mem_of_getElem? made)] at failure
        cases failure
      · rw [List.getElem?_singleton] at made
        split at made
        · cases made
          rw [failure'] at failure
          cases failure
          rw [progress, ended, show k' = k by omega]
          exact ⟨rfl, rfl⟩
        · cases made

theorem completed_at (h : x.PressStage n moves) (ended : (x.play moves).progress.isEnded = true)
    (succeeded : ∀ j < n, x.Succeeded moves j) (unseen : ¬ x.SeesCancelled moves n) :
    (x.play moves).progress = .ended .completed ∧
      x.endedAt moves = some (x.now + n * x.attackMs) := by
  cases h with
  | going _ h =>
      rw [h.isEnded] at ended
      cases ended
  | failed k lt made earlier last message answers done failure =>
      have count : earlier.length = k := by simpa [answers] using made.length
      have stopped := (succeeded_iff_of_failed answers done failure).1 (succeeded k lt)
      omega
  | completed made done looks progress hended => exact ⟨progress, hended⟩
  | cancelled k s le made done looks =>
      rw [seesCancelled_iff looks] at unseen
      have more := (succeeded_of_done done).1 (succeeded k (by omega))
      rw [made.length] at more
      exact absurd more (Nat.lt_irrefl k)

theorem cancelled_at (h : x.PressStage n moves) (ended : (x.play moves).progress.isEnded = true)
    (done : ∀ e ∈ x.exchanges moves, e.2.2 = .done)
    (stopped : ¬ ((∀ j < n, x.Succeeded moves j) ∧ ¬ x.SeesCancelled moves n)) :
    (x.play moves).progress = .ended .cancelled ∧ (∃ c, x.CancelledAt moves c) ∧
      ∀ c, x.CancelledAt moves c → x.endedAt moves = some (max x.now c) := by
  cases h with
  | going _ h =>
      rw [h.isEnded] at ended
      cases ended
  | failed k lt made earlier last message answers _ failure =>
      rw [done last (by simp [answers])] at failure
      cases failure
  | completed made _ looks =>
      refine absurd ⟨fun j lt => ?_, not_seesCancelled looks n⟩ stopped
      exact (succeeded_of_done done).2 (by rwa [made.length])
  | cancelled k s le made _ looks due progress token instant hended =>
      refine ⟨progress, exists_cancelledAt token, fun c hc => ?_⟩
      rw [hended, instant c hc]

end PressStage

/--
What comes of an attack, whatever its device answers and whenever it is cancelled; and whatever
happened before, it comes to its end when polls are made and time passes.
-/
theorem start_pressesExactly {a : Action} {attackMs : Nat} (plan : a.plan attackMs = .repeatPress n)
    (t : Nat) (cancelled : Bool) (moves : List Move) :
    (Solo.start a attackMs t cancelled).PressesExactly n moves ∧
      ∀ driver, ∃ more, (∀ m ∈ more, IsCalm driver m) ∧
        ((Solo.start a attackMs t cancelled).play (moves ++ more)).progress.isEnded = true := by
  have stage := pressStage plan t cancelled
  have h := stage moves
  refine ⟨?_, h.exists_ended plan⟩
  exact {
    sent := by
      obtain ⟨k, made⟩ := h.exists_made
      rw [made.length, made.sent]
    silent := by
      rintro first rest rfl token
      exact exchanges_of_cancelled stage token rest
    tied := fun c hc => h.tied hc
    pressed := h.pressed
    failed := fun k e message => h.failed_at
    completed := h.completed_at
    cancelled := h.cancelled_at }

/-- A cancellation in the very instant of the second press, seen by the poll that would make it. -/
theorem start_pressesExactly_tied :
    let a : Action := ⟨.attack, some "3", 0.0⟩
    let x := Solo.start a 2 40 false
    let works : Command → Response := fun _ => .done
    let moves := [.poll works, .tick, .tick, .cancel, .poll works]
    a.plan 2 = .repeatPress 3 ∧ x.PressesExactly 3 moves ∧ x.CancelledAt moves 42 ∧
      x.exchanges moves = [(40, .press .attack, .done)] ∧ x.SeesCancelled moves 1 ∧
      (x.play moves).progress = .ended .cancelled ∧ x.endedAt moves = some 42 := by
  intro a x works moves
  have plan : a.plan 2 = .repeatPress 3 := by decide +kernel
  have exact := (start_pressesExactly plan 40 false moves).1
  have tied : x.CancelledAt moves 42 :=
    .within [.poll works, .tick, .tick] [.poll works] rfl rfl
  have exchanges : x.exchanges moves = [(40, .press .attack, .done)] := by rfl
  have stopped : ¬ ∀ j < 3, x.Succeeded moves j := by
    intro succeeded
    obtain ⟨e, made, -⟩ := succeeded 1 (by decide)
    simp [exchanges] at made
  have done : ∀ e ∈ x.exchanges moves, e.2.2 = .done := by simp [exchanges]
  obtain ⟨progress, -, ends⟩ := exact.cancelled rfl done fun h => stopped h.1
  exact ⟨plan, exact, tied, exchanges, ⟨42, rfl⟩, progress, ends 42 tied⟩

end Solo

end Combo
