-- SUMMARY: How far the presses of an attack have come after some moves, and how each move takes one stage to the next.
import Combo.Proofs.Executor.Timetable
import Combo.Proofs.Executor.Token
import Combo.Proofs.Executor.Undisturbed

/-!
# Stages of repeated presses

An attack looks at its token before each press, and once more at the end of the pause
after the last one. Up to the first look that sees the cancellation, or the first press
that fails, the presses are one interval apart. `PressStage` says how far they have come
after some moves, and each move takes one stage to the next.
-/

namespace Combo

namespace Solo

variable {x : Solo} {moves : List Move} {m : Move} {n k c : Nat}

/-! ## Stages of the presses -/

/-- How far the action has come when it is about to make a press, and that is due. -/
def beforePress (x : Solo) (n k : Nat) : Progress :=
  if k = 0 then .ready else .pressing (n - k) (x.now + k * x.attackMs)

/-- The looks before so many presses, none of which sees a cancellation. -/
def clearLooks (x : Solo) (k : Nat) : List (Nat × Bool) :=
  (List.range k).map fun j => (x.now + j * x.attackMs, false)

/-- So many presses were made, one interval apart, and those before a cancellation. -/
structure Made (x : Solo) (moves : List Move) (k : Nat) : Prop where
  sent : (x.exchanges moves).map (fun e => (e.1, e.2.1)) = presses x.attackMs x.now k
  past : ∀ j < k, x.now + j * x.attackMs ≤ (x.play moves).now
  before : ∀ c, x.CancelledAt moves c → ∀ j < k, x.now + j * x.attackMs ≤ c

/-- The next press, or the end after the last one, is still to come. -/
structure Going (x : Solo) (n : Nat) (moves : List Move) (k : Nat) : Prop where
  le : k ≤ n
  made : x.Made moves k
  done : ∀ e ∈ x.exchanges moves, e.2.2 = .done
  looks : x.looks moves = x.clearLooks k
  progress : (x.play moves).progress = x.beforePress n k
  start : x.now ≤ (x.play moves).now
  due : (x.play moves).now ≤ x.now + k * x.attackMs
  instant : ∀ c, x.CancelledAt moves c → (x.play moves).now = max x.now c

/-- How far the presses have come after some moves. -/
inductive PressStage (x : Solo) (n : Nat) (moves : List Move) : Prop
  | going (k : Nat) (h : x.Going n moves k)
  | failed (k : Nat) (lt : k < n) (made : x.Made moves (k + 1))
      (earlier : List (Nat × Exchange)) (last : Nat × Exchange) (message : String)
      (answers : x.exchanges moves = earlier ++ [last]) (done : ∀ e ∈ earlier, e.2.2 = .done)
      (failure : last.2.2.failure? = some message)
      (looks : x.looks moves = x.clearLooks (k + 1))
      (progress : (x.play moves).progress = .ended (.failed message))
      (ended : x.endedAt moves = some (x.now + k * x.attackMs))
  | completed (made : x.Made moves n) (done : ∀ e ∈ x.exchanges moves, e.2.2 = .done)
      (looks : x.looks moves = x.clearLooks (n + 1))
      (progress : (x.play moves).progress = .ended .completed)
      (ended : x.endedAt moves = some (x.now + n * x.attackMs))
  | cancelled (k s : Nat) (le : k ≤ n) (made : x.Made moves k)
      (done : ∀ e ∈ x.exchanges moves, e.2.2 = .done)
      (looks : x.looks moves = x.clearLooks k ++ [(s, true)]) (due : s ≤ x.now + k * x.attackMs)
      (progress : (x.play moves).progress = .ended .cancelled)
      (token : (x.play moves).cancelled = true)
      (instant : ∀ c, x.CancelledAt moves c → s = max x.now c)
      (ended : x.endedAt moves = some s)

/-! ## One move -/

theorem runnable_beforePress (x : Solo) (n k now : Nat) (cancelled : Bool) (start : x.now ≤ now) :
    (x.beforePress n k).runnable now cancelled =
      (cancelled || decide (x.now + k * x.attackMs ≤ now)) := by
  unfold beforePress
  split
  · rename_i zero
    subst zero
    simp [Progress.runnable, start]
  · rfl

/-- A look that sees no cancellation leads to the next press, or to the end after the last one. -/
theorem intent_beforePress {now : Nat} (plan : x.action.plan x.attackMs = .repeatPress n)
    (le : k ≤ n) (due : x.now + k * x.attackMs ≤ now) :
    (x.beforePress n k).intent x.attackMs now x.action false =
      if k = n then .silent (.ended .completed)
      else .send (.press .attack) (.pressing (n - (k + 1)) (now + x.attackMs)) := by
  unfold beforePress
  split
  · rename_i zero
    subst zero
    simp only [Progress.intent, plan, Bool.false_eq_true, if_false]
    cases n with
    | zero => rfl
    | succ n => simp [Plan.intent]
  · simp only [Progress.intent, Bool.false_eq_true, if_false, due, if_true]
    split
    · rename_i none_left
      rw [if_pos (by omega)]
    · rename_i left more
      rw [if_neg (by omega), show n - (k + 1) = left by omega]

/-- A look that sees the cancellation ends the action. -/
theorem intent_beforePress_cancelled (x : Solo) (n k now : Nat) :
    (x.beforePress n k).intent x.attackMs now x.action true = .silent (.ended .cancelled) := by
  unfold beforePress
  split <;> rfl

theorem getElem?_clearLooks (x : Solo) (k j : Nat) :
    (x.clearLooks k)[j]? = if j < k then some (x.now + j * x.attackMs, false) else none := by
  unfold clearLooks
  split
  · rename_i lt
    simp [lt]
  · rename_i ge
    simp [Nat.le_of_not_lt ge]

theorem clearLooks_succ (x : Solo) (k : Nat) :
    x.clearLooks (k + 1) = x.clearLooks k ++ [(x.now + k * x.attackMs, false)] := by
  simp [clearLooks, List.range_succ]

theorem presses_append_singleton (attackMs first k : Nat) :
    presses attackMs first (k + 1) =
      presses attackMs first k ++ [(first + k * attackMs, .press .attack)] := by
  simp [presses, List.range_succ]

/-- A move in which nothing is sent leaves the presses as they were made. -/
theorem Made.append_silent (h : x.Made moves k) (silent : (x.play moves).sent m = []) :
    x.Made (moves ++ [m]) k := by
  refine ⟨by rw [exchanges_append_singleton, silent, List.append_nil, h.sent], fun j lt => ?_, ?_⟩
  · rw [play_append_singleton]
    exact Nat.le_trans (h.past j lt) (now_le_move _ m)
  · intro c hc
    rcases hc.of_append_singleton with earlier | ⟨-, -, rfl⟩
    · exact h.before c earlier
    · exact h.past

/-- What has ended stays at the stage it ended at. -/
theorem PressStage.append_of_ended (h : x.PressStage n moves)
    (ended : (x.play moves).progress.isEnded = true) (m : Move) : x.PressStage n (moves ++ [m]) := by
  obtain ⟨same, silent⟩ := move_of_idle (.inr ended) m
  have progress : (x.play (moves ++ [m])).progress = (x.play moves).progress := by
    rw [play_append_singleton, same]
  have exchanges : x.exchanges (moves ++ [m]) = x.exchanges moves := by
    rw [exchanges_append_singleton, silent, List.append_nil]
  have looks : x.looks (moves ++ [m]) = x.looks moves := by
    rw [looks_append_singleton, look_of_idle ended, List.append_nil]
  cases h with
  | going k h =>
      rw [h.progress, beforePress] at ended
      split at ended <;> cases ended
  | failed k lt made earlier last message answers done failure hlooks hprogress hended =>
      exact .failed k lt (made.append_silent silent) earlier last message (exchanges ▸ answers) done
        failure (looks ▸ hlooks) (progress ▸ hprogress) (endedAt_append_of_ended hended m)
  | completed made done hlooks hprogress hended =>
      exact .completed (made.append_silent silent) (exchanges ▸ done) (looks ▸ hlooks)
        (progress ▸ hprogress) (endedAt_append_of_ended hended m)
  | cancelled k s le made done hlooks due hprogress token instant hended =>
      refine .cancelled k s le (made.append_silent silent) (exchanges ▸ done) (looks ▸ hlooks) due
        (progress ▸ hprogress) ?_ (fun c hc => ?_) (endedAt_append_of_ended hended m)
      · rw [play_append_singleton]
        exact cancelled_move token m
      · rcases hc.of_append_singleton with earlier | ⟨-, fresh, -⟩
        · exact instant c earlier
        · rw [token] at fresh
          cases fresh

namespace Going

theorem isEnded (h : x.Going n moves k) : (x.play moves).progress.isEnded = false := by
  rw [h.progress, beforePress]
  split <;> rfl

theorem isRunnable (h : x.Going n moves k) : (x.play moves).isRunnable =
    ((x.play moves).cancelled || decide (x.now + k * x.attackMs ≤ (x.play moves).now)) := by
  rw [Solo.isRunnable, h.progress, runnable_beforePress _ _ _ _ _ h.start]

/-- A move that neither sends nor looks, and is made in time, leaves the next press to come. -/
theorem append_silent (h : x.Going n moves k) (silent : (x.play moves).sent m = [])
    (unseen : (x.play moves).look m = [])
    (progress : ((x.play moves).move m).progress = (x.play moves).progress)
    (due : ((x.play moves).move m).now ≤ x.now + k * x.attackMs)
    (instant : ∀ c, x.CancelledAt (moves ++ [m]) c → ((x.play moves).move m).now = max x.now c) :
    x.Going n (moves ++ [m]) k where
  le := h.le
  made := h.made.append_silent silent
  done := by
    rw [exchanges_append_singleton, silent, List.append_nil]
    exact h.done
  looks := by rw [looks_append_singleton, unseen, List.append_nil, h.looks]
  progress := by rw [play_append_singleton, progress, h.progress]
  start := by
    rw [play_append_singleton]
    exact Nat.le_trans h.start (now_le_move _ m)
  due := by rwa [play_append_singleton]
  instant := by rwa [play_append_singleton]

theorem cancel (h : x.Going n moves k) : x.Going n (moves ++ [.cancel]) k := by
  refine h.append_silent rfl rfl rfl h.due fun c hc => ?_
  rcases hc.of_append_singleton with earlier | ⟨-, -, rfl⟩
  · exact h.instant c earlier
  · exact (Nat.max_eq_right h.start).symm

theorem tick (h : x.Going n moves k) : x.Going n (moves ++ [.tick]) k := by
  have instant (c : Nat) (hc : x.CancelledAt (moves ++ [.tick]) c) : x.CancelledAt moves c :=
    hc.of_append_singleton.resolve_right (by simp)
  cases ready : (x.play moves).isRunnable with
  | true =>
      have still : (x.play moves).move .tick = x.play moves := if_pos ready
      exact h.append_silent rfl rfl (by rw [still]) (by rw [still]; exact h.due)
        fun c hc => by rw [still, h.instant c (instant c hc)]
  | false =>
      -- what waits is neither cancelled nor due
      have waits := ready
      rw [h.isRunnable, Bool.or_eq_false_iff, decide_eq_false_iff_not] at waits
      have next : (x.play moves).move .tick = { x.play moves with now := (x.play moves).now + 1 } := by
        simp [move, ready]
      refine h.append_silent rfl rfl (by rw [next]) (by rw [next]; exact Nat.lt_of_not_le waits.2)
        fun c hc => ?_
      rw [(instant c hc).cancelled] at waits
      cases waits.1

/-- A poll that gets on with the action: what it comes to, what is sent, and the look it begins with. -/
theorem polled (h : x.Going n moves k) (driver : Command → Response) (next : Progress)
    {exchange : Option Exchange} (ready : (x.play moves).isRunnable = true)
    (settled : ((x.beforePress n k).intent x.attackMs (x.play moves).now x.action
      (x.play moves).cancelled).settle driver = (next, exchange)) :
    x.play (moves ++ [.poll driver]) = { x.play moves with progress := next } ∧
      (x.play moves).sent (.poll driver) =
        (exchange.map fun e => ((x.play moves).now, e)).toList ∧
      x.looks (moves ++ [.poll driver]) =
        x.clearLooks k ++ [((x.play moves).now, (x.play moves).cancelled)] := by
  have polled : (x.play moves).polled driver = (next, exchange) := by
    rw [Solo.polled, h.progress, play_action, play_attackMs, settled]
  refine ⟨?_, ?_, ?_⟩
  · simp [play_append_singleton, move, ready, polled]
  · simp [sent, ready, polled]
  · rw [looks_append_singleton, h.looks]
    simp [look, ready]

theorem poll_waiting (h : x.Going n moves k) (waits : (x.play moves).isRunnable = false)
    (driver : Command → Response) : x.Going n (moves ++ [.poll driver]) k := by
  have still : (x.play moves).move (.poll driver) = x.play moves := by simp [move, waits]
  refine h.append_silent (by simp [sent, waits]) (by simp [look, waits]) (by rw [still])
    (by rw [still]; exact h.due) fun c hc => ?_
  rw [still, h.instant c (hc.of_append_singleton.resolve_right (by simp))]

theorem endedAt_of_play (h : x.Going n moves k) {e : Ending}
    (play : x.play (moves ++ [m]) = { x.play moves with progress := .ended e }) :
    x.endedAt (moves ++ [m]) = some (x.play moves).now := by
  rw [play_append_singleton] at play
  rw [endedAt_append_of_going h.isEnded (by rw [play]; rfl), play]

/-- A poll that sees the cancellation ends the action. -/
theorem poll_cancelled (h : x.Going n moves k) (token : (x.play moves).cancelled = true)
    (driver : Command → Response) : x.PressStage n (moves ++ [.poll driver]) := by
  have ready : (x.play moves).isRunnable = true := by rw [h.isRunnable, token, Bool.true_or]
  obtain ⟨play, silent, looks⟩ := h.polled driver (.ended .cancelled) ready
    (by rw [token, intent_beforePress_cancelled]; rfl)
  rw [token] at looks
  refine .cancelled k (x.play moves).now h.le (h.made.append_silent silent) ?_ looks h.due
    (by rw [play]) (by rw [play]; exact token) (fun c hc => ?_) (h.endedAt_of_play play)
  · rw [exchanges_append_singleton, silent]
    simpa using h.done
  · exact h.instant c (hc.of_append_singleton.resolve_right (by simp))

/-- The poll at the end of the last pause ends the action. -/
theorem poll_last (h : x.Going n moves n) (plan : x.action.plan x.attackMs = .repeatPress n)
    (token : (x.play moves).cancelled = false) (due : (x.play moves).now = x.now + n * x.attackMs)
    (driver : Command → Response) : x.PressStage n (moves ++ [.poll driver]) := by
  have ready : (x.play moves).isRunnable = true := by rw [h.isRunnable, due]; simp
  obtain ⟨play, silent, looks⟩ := h.polled driver (.ended .completed) ready
    (by rw [token, intent_beforePress plan (Nat.le_refl n) (Nat.le_of_eq due.symm), if_pos rfl]; rfl)
  rw [token, due, ← clearLooks_succ] at looks
  refine .completed (h.made.append_silent silent) ?_ looks (by rw [play]) ?_
  · rw [exchanges_append_singleton, silent]
    simpa using h.done
  · rw [h.endedAt_of_play play, due]

/-- A press that is made when it is due is the next one, whatever the answer. -/
theorem made_press (h : x.Going n moves k) {driver : Command → Response} {answer : Response}
    (token : (x.play moves).cancelled = false) (due : (x.play moves).now = x.now + k * x.attackMs)
    (sent : (x.play moves).sent (.poll driver) = [((x.play moves).now, .press .attack, answer)]) :
    x.Made (moves ++ [.poll driver]) (k + 1) := by
  refine ⟨?_, fun j lt => ?_, fun c hc => ?_⟩
  · rw [exchanges_append_singleton, sent, List.map_append, h.made.sent, presses_append_singleton, due]
    rfl
  · rw [play_append_singleton]
    refine Nat.le_trans ?_ (now_le_move _ _)
    rcases Nat.lt_succ_iff_lt_or_eq.1 lt with earlier | rfl
    · exact h.made.past j earlier
    · exact Nat.le_of_eq due.symm
  · have cancelled := (hc.of_append_singleton.resolve_right (by simp)).cancelled
    rw [token] at cancelled
    cases cancelled

/-- A press that is due is made, and the action goes on or fails as the driver answers. -/
theorem poll_press (h : x.Going n moves k) (plan : x.action.plan x.attackMs = .repeatPress n)
    (lt : k < n) (token : (x.play moves).cancelled = false)
    (due : (x.play moves).now = x.now + k * x.attackMs) (driver : Command → Response) :
    x.PressStage n (moves ++ [.poll driver]) := by
  have ready : (x.play moves).isRunnable = true := by rw [h.isRunnable, due]; simp
  have settled := Intent.settle_send driver (.press .attack)
    (.pressing (n - (k + 1)) ((x.play moves).now + x.attackMs))
  obtain ⟨play, sent, looks⟩ := h.polled driver _ ready
    (by rw [token, intent_beforePress plan h.le (Nat.le_of_eq due.symm), if_neg (Nat.ne_of_lt lt),
      settled])
  rw [token, due, ← clearLooks_succ] at looks
  have made := h.made_press token due sent
  have answers := exchanges_append_singleton x moves (.poll driver)
  rw [sent] at answers
  cases failure : (driver (.press .attack)).failure? with
  | none =>
      rw [failure] at play
      have progress : x.beforePress n (k + 1) =
          .pressing (n - (k + 1)) ((x.play moves).now + x.attackMs) := by
        rw [beforePress, if_neg (Nat.succ_ne_zero k), due, Nat.succ_mul, Nat.add_assoc]
      refine .going (k + 1) ⟨lt, made, ?_, looks, by rw [play, progress]; rfl, ?_, ?_, fun c hc => ?_⟩
      · rw [answers]
        have done := Response.failure?_eq_none failure
        simpa [done, or_imp, forall_and] using h.done
      · rw [play]
        exact h.start
      · rw [play, due, Nat.succ_mul]
        omega
      · rw [play]
        exact h.instant c (hc.of_append_singleton.resolve_right (by simp))
  | some message =>
      rw [failure] at play
      refine .failed k lt made _ _ message answers h.done failure looks (by rw [play]; rfl) ?_
      rw [h.endedAt_of_play play, due]

/-- A poll makes the next press, ends the action after the last one, or sees a cancellation. -/
theorem poll (h : x.Going n moves k) (plan : x.action.plan x.attackMs = .repeatPress n)
    (driver : Command → Response) : x.PressStage n (moves ++ [.poll driver]) := by
  cases token : (x.play moves).cancelled with
  | true => exact h.poll_cancelled token driver
  | false =>
      cases ready : (x.play moves).isRunnable with
      | false => exact .going k (h.poll_waiting ready driver)
      | true =>
          have reached : x.now + k * x.attackMs ≤ (x.play moves).now := by
            simpa [h.isRunnable, token] using ready
          have due := Nat.le_antisymm h.due reached
          rcases Nat.lt_or_eq_of_le h.le with lt | rfl
          · exact h.poll_press plan lt token due driver
          · exact h.poll_last plan token due driver

end Going

/-- What has not ended is going on. -/
theorem PressStage.exists_going (h : x.PressStage n moves)
    (going : (x.play moves).progress.isEnded = false) : ∃ k, x.Going n moves k := by
  cases h with
  | going k h => exact ⟨k, h⟩
  | failed k lt made earlier last message answers done failure looks progress =>
      rw [progress] at going
      cases going
  | completed made done looks progress =>
      rw [progress] at going
      cases going
  | cancelled k s le made done looks due progress =>
      rw [progress] at going
      cases going

/-- Every move takes the presses from one stage to the next. -/
theorem PressStage.append (h : x.PressStage n moves)
    (plan : x.action.plan x.attackMs = .repeatPress n) (m : Move) :
    x.PressStage n (moves ++ [m]) := by
  cases ended : (x.play moves).progress.isEnded with
  | true => exact h.append_of_ended ended m
  | false =>
      obtain ⟨k, going⟩ := h.exists_going ended
      cases m with
      | cancel => exact .going k going.cancel
      | tick => exact .going k going.tick
      | poll driver => exact going.poll plan driver

/-- Whatever happens to an attack, its presses have come to one of their stages. -/
theorem pressStage {a : Action} {attackMs : Nat} (plan : a.plan attackMs = .repeatPress n)
    (t : Nat) (cancelled : Bool) (moves : List Move) :
    (Solo.start a attackMs t cancelled).PressStage n moves := by
  induction moves using List.reverseRecOn with
  | nil =>
      refine .going 0 ⟨Nat.zero_le n, ⟨rfl, by simp, by simp⟩, by simp [exchanges], rfl, rfl,
        Nat.le_refl t, Nat.le_add_right t _, fun c hc => ?_⟩
      cases hc with
      | before _ token le => exact (Nat.max_eq_left le).symm
      | within first rest split => simp at split
  | append_singleton moves m ih => exact ih.append plan m

/-! ## The end of a run -/

/-- What is left of the presses after a move that does something: a look less, or less time. -/
theorem Going.left_lt {k' : Nat} {driver : Command → Response} (h : x.Going n moves k)
    (ready : (x.play moves).isRunnable = true) (h' : x.Going n (moves ++ [.poll driver]) k') :
    x.now + n * x.attackMs - (x.play (moves ++ [.poll driver])).now + (n - k') <
      x.now + n * x.attackMs - (x.play moves).now + (n - k) := by
  have looks := congrArg List.length (looks_append_singleton x moves (.poll driver))
  rw [h'.looks, List.length_append, h.looks] at looks
  have count : k' = k + 1 := by simpa [clearLooks, look, ready] using looks
  have now := now_le_move (x.play moves) (.poll driver)
  rw [← play_append_singleton] at now
  have le := h'.le
  omega

/-- Under any driver the presses come to an end when polls are made and time passes. -/
theorem Going.exists_ended (h : x.Going n moves k)
    (plan : x.action.plan x.attackMs = .repeatPress n) (driver : Command → Response) :
    ∃ more, (∀ m ∈ more, IsCalm driver m) ∧
      (x.play (moves ++ more)).progress.isEnded = true := by
  have step {moves : List Move} {m : Move} (calm : IsCalm driver m)
      (rest : ∃ more, (∀ m ∈ more, IsCalm driver m) ∧
        (x.play ((moves ++ [m]) ++ more)).progress.isEnded = true) :
      ∃ more, (∀ m ∈ more, IsCalm driver m) ∧
        (x.play (moves ++ more)).progress.isEnded = true := by
    obtain ⟨more, calm', ended⟩ := rest
    exact ⟨m :: more, by simpa using ⟨calm, calm'⟩, by simpa using ended⟩
  induction hleft : x.now + n * x.attackMs - (x.play moves).now + (n - k) using
    Nat.strongRecOn generalizing moves k with
  | ind left ih =>
      subst hleft
      cases ready : (x.play moves).isRunnable with
      | true =>
          refine step (.inl rfl) ?_
          cases ended : (x.play (moves ++ [.poll driver])).progress.isEnded with
          | true => exact ⟨[], by simp, by rwa [List.append_nil]⟩
          | false =>
              obtain ⟨k', h'⟩ := (h.poll plan driver).exists_going ended
              exact ih _ (h.left_lt ready h') h' rfl
      | false =>
          have waits := ready
          rw [h.isRunnable, Bool.or_eq_false_iff, decide_eq_false_iff_not] at waits
          have next : (x.play (moves ++ [.tick])).now = (x.play moves).now + 1 := by
            simp [play_append_singleton, move, ready]
          have most : k * x.attackMs ≤ n * x.attackMs := Nat.mul_le_mul_right _ h.le
          exact step (.inr rfl) (ih _ (by omega) h.tick rfl)

theorem PressStage.exists_ended (h : x.PressStage n moves)
    (plan : x.action.plan x.attackMs = .repeatPress n) (driver : Command → Response) :
    ∃ more, (∀ m ∈ more, IsCalm driver m) ∧
      (x.play (moves ++ more)).progress.isEnded = true := by
  cases ended : (x.play moves).progress.isEnded with
  | true => exact ⟨[], by simp, by rwa [List.append_nil]⟩
  | false =>
      obtain ⟨k, going⟩ := h.exists_going ended
      exact going.exists_ended plan driver

end Solo

end Combo
