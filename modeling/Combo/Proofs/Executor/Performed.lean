-- SUMMARY: An action that nothing disturbs runs to its end under every schedule, and has then sent what its plan says.
import Combo.Proofs.Executor.Timetable
import Combo.Proofs.Executor.Undisturbed

/-!
# What an undisturbed action performs

An action that runs alone under a driver that does everything is polled now and then, and time
passes in between. Each of these moves keeps the action on the course of its plan. With every move
that does anything a poll less is left or the end of the plan is nearer, so every schedule can be
continued to the end of the action; and at the end everything on the course has been sent.
-/

namespace Combo

/-- The driver that does everything. -/
def worksAlways : Command → Response := fun _ => .done

/--
Whether an action performs what is listed, if it is started at an instant and nothing disturbs it:
every schedule of it can be continued to its end, and when it has ended it has completed and has
sent just what is listed, each command at its instant.
-/
structure Action.Performs (a : Action) (attackMs start : Nat) (listed : List (Nat × Command)) :
    Prop where
  ends : ∀ moves, (∀ m ∈ moves, Solo.IsCalm worksAlways m) →
    ∃ more, (∀ m ∈ more, Solo.IsCalm worksAlways m) ∧
      ((Solo.start a attackMs start false).play (moves ++ more)).progress.isEnded = true
  sends : ∀ moves, (∀ m ∈ moves, Solo.IsCalm worksAlways m) →
    ((Solo.start a attackMs start false).play moves).progress.isEnded = true →
      ((Solo.start a attackMs start false).play moves).progress = .ended .completed ∧
      (Solo.start a attackMs start false).exchanges moves =
        listed.map fun x => (x.1, x.2, Response.done)

namespace Solo

/-- Whether an action on its own is on the course of its plan with what it has sent. -/
structure OnCourse (start : Nat) (x : Solo) (sent : List (Nat × Exchange)) : Prop where
  uncancelled : x.cancelled = false
  started : x.progress.isQueued = false
  course : x.progress.OnCourse x.attackMs start x.now (x.action.plan x.attackMs)
    (sent.map fun e => (e.1, e.2.1))
  done : ∀ e ∈ sent, e.2.2 = .done

/-- What is left to an action on its own: polls, and time up to the end of its plan. -/
def left (start : Nat) (x : Solo) : Nat :=
  x.progress.pollsLeft (x.action.plan x.attackMs) +
    (start + (x.action.plan x.attackMs).millis x.attackMs - x.now)

variable {start : Nat} {x : Solo} {sent : List (Nat × Exchange)} {m : Move} {moves : List Move}

/-- An action that is just started is on course. -/
theorem onCourse_start (a : Action) (attackMs start : Nat) :
    OnCourse start (Solo.start a attackMs start false) [] :=
  ⟨rfl, rfl, ⟨rfl, .inl rfl, by simp [Solo.start, Progress.due?]⟩, by simp⟩

/-- A poll that gets on with an action keeps it on course, and a poll less is left. -/
theorem OnCourse.poll (h : OnCourse start x sent) (proper : x.action.plan x.attackMs ≠ .invalid)
    (ready : x.isRunnable = true) :
    OnCourse start (x.move (.poll worksAlways)) (sent ++ x.sent (.poll worksAlways)) ∧
      (x.move (.poll worksAlways)).left start < x.left start := by
  have works : ({} : Device).respond = worksAlways := funext fun command => by cases command <;> rfl
  obtain ⟨uncancelled, started, course, done⟩ := h
  obtain ⟨p, exchange, polled⟩ : ∃ p exchange, x.polled worksAlways = (p, exchange) := ⟨_, _, rfl⟩
  have device : x.progress.poll {} x.attackMs x.now x.action false = (p, exchange) := by
    rw [Progress.poll_eq_settle, works, ← polled, Solo.polled, uncancelled]
  have runnable : x.progress.runnable x.now false = true := by
    rwa [isRunnable, uncancelled] at ready
  obtain ⟨course', done', started', fewer⟩ :=
    course.poll proper (fun command => congrFun works command) runnable device
  have moved : x.move (.poll worksAlways) = { x with progress := p } := by
    simp [move, ready, polled]
  have added : x.sent (.poll worksAlways) = (exchange.map fun e => (x.now, e)).toList := by
    simp [Solo.sent, ready, polled]
  rw [moved, added]
  refine ⟨⟨uncancelled, started', ?_, ?_⟩, ?_⟩
  · cases exchange <;> simpa using course'
  · rintro e he
    rcases List.mem_append.1 he with before | now
    · exact done e before
    · obtain ⟨e', he', rfl⟩ := Option.map_eq_some_iff.1 (Option.mem_toList.1 now)
      exact done' e' he'
  · exact Nat.add_lt_add_right fewer _

/-- A millisecond that passes while nothing is due keeps an action on course. -/
theorem OnCourse.tick (h : OnCourse start x sent) (waits : x.isRunnable = false) :
    OnCourse start (x.move .tick) sent := by
  obtain ⟨uncancelled, started, course, done⟩ := h
  have idle : x.progress.runnable x.now false = false := by
    rwa [isRunnable, uncancelled] at waits
  have moved : x.move .tick = { x with now := x.now + 1 } := by simp [move, waits]
  rw [moved]
  refine ⟨uncancelled, started, course.shift started idle (Nat.le_succ _) fun due hdue => ?_, done⟩
  have later : x.now < due := by
    cases hp : x.progress <;> simp_all [Progress.runnable, Progress.due?]
  exact Nat.succ_le_of_lt later

/-- No calm move takes an action off its course. -/
theorem OnCourse.move (h : OnCourse start x sent) (proper : x.action.plan x.attackMs ≠ .invalid)
    (calm : IsCalm worksAlways m) : OnCourse start (x.move m) (sent ++ x.sent m) := by
  cases ready : x.isRunnable with
  | true =>
      rcases calm with rfl | rfl
      · exact (h.poll proper ready).1
      · simpa [Solo.move, Solo.sent, ready] using h
  | false =>
      rcases calm with rfl | rfl
      · simpa [Solo.move, Solo.sent, ready] using h
      · simpa [Solo.sent] using h.tick ready

/-- No schedule takes an undisturbed action off its course. -/
theorem OnCourse.play (h : OnCourse start x sent) (proper : x.action.plan x.attackMs ≠ .invalid)
    (calm : ∀ m ∈ moves, IsCalm worksAlways m) :
    OnCourse start (x.play moves) (sent ++ x.exchanges moves) := by
  induction moves generalizing x sent with
  | nil => simpa [exchanges] using h
  | cons m moves ih =>
      have next := ih (h.move proper (calm m List.mem_cons_self)) (by simpa using proper)
        fun m' hm' => calm m' (List.mem_cons_of_mem _ hm')
      rwa [List.append_assoc] at next

/-- An action on course comes to its end. -/
theorem OnCourse.exists_ended (h : OnCourse start x sent)
    (proper : x.action.plan x.attackMs ≠ .invalid) :
    ∃ moves, (∀ m ∈ moves, IsCalm worksAlways m) ∧ (x.play moves).progress.isEnded = true := by
  induction hn : x.left start using Nat.strongRecOn generalizing x sent with
  | ind n ih =>
      subst hn
      cases ended : x.progress.isEnded with
      | true => exact ⟨[], by simp, ended⟩
      | false =>
          cases ready : x.isRunnable with
          | true =>
              obtain ⟨next, fewer⟩ := h.poll proper ready
              obtain ⟨moves, calm, done⟩ := ih _ fewer next (by simpa using proper) rfl
              exact ⟨.poll worksAlways :: moves, by simpa [IsCalm] using calm, done⟩
          | false =>
              have moved : x.move .tick = { x with now := x.now + 1 } := by simp [Solo.move, ready]
              -- an action that is on course a millisecond later is still before its end
              have nearer : (x.move .tick).left start < x.left start := by
                have le := (h.tick ready).course.le_of_going (by rw [moved]; exact ended)
                rw [moved] at le ⊢
                simp only [left] at le ⊢
                omega
              obtain ⟨moves, calm, done⟩ := ih _ nearer (h.tick ready) (by simpa using proper) rfl
              exact ⟨.tick :: moves, by simpa [IsCalm] using calm, done⟩

end Solo

/-- An action whose plan can be carried out performs what the plan says. -/
theorem Action.performs_plan {a : Action} {attackMs : Nat} (proper : a.plan attackMs ≠ .invalid)
    (start : Nat) : a.Performs attackMs start ((a.plan attackMs).course attackMs start) := by
  have course {moves : List Solo.Move} (calm : ∀ m ∈ moves, Solo.IsCalm worksAlways m) :=
    (Solo.onCourse_start a attackMs start).play proper calm
  refine ⟨fun moves calm => ?_, fun moves calm ended => ?_⟩
  · obtain ⟨more, calm', ended⟩ := (course calm).exists_ended (by simpa [Solo.start] using proper)
    exact ⟨more, calm', by rwa [Solo.play_append]⟩
  · obtain ⟨-, -, onCourse, done⟩ := course calm
    obtain ⟨completed, -, sent⟩ := onCourse.of_ended ended
    refine ⟨completed, ?_⟩
    rw [Solo.play_action, Solo.play_attackMs] at sent
    change _ = (a.plan attackMs).course attackMs start at sent
    rw [← sent, List.map_map]
    refine (List.map_id _).symm.trans (List.map_congr_left fun e he => ?_)
    simp [← done e he]

end Combo
