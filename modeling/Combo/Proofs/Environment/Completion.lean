-- SUMMARY: The standard schedule drains an undisturbed environment: each of its moves leaves less to do, and time is bounded by the timetable.
import Combo.Proofs.Environment.Performance

/-!
# Completion

Until the queue is drained the standard schedule has a move that leaves less to
do, or the clock goes on, and it does not go beyond the end of the last group. So
an undisturbed script is always performed to its end.
-/

namespace Combo

namespace Clockwork

variable {φ : Type} [Feed φ] {s : Clockwork φ}

omit [Feed φ] in
/-- The position of the first action that can go on is that of an entry of a run that is joined. -/
theorem runnable?_eq_some {position : Nat} (h : s.runnable? = some position) :
    ∃ b accepting run entry, s.executor.worker = some ⟨b, .running (.joining accepting) run⟩ ∧
      run.entries[position]? = some entry ∧ entry.runnable s.now = true := by
  unfold runnable? at h
  split at h
  · rename_i b accepting run hw
    obtain ⟨hlt, ready, -⟩ := List.findIdx?_eq_some_iff_getElem.1 h
    exact ⟨b, accepting, run, _, hw, List.getElem?_eq_getElem hlt, ready⟩
  · cases h

omit [Feed φ] in
/-- The standard schedule makes no move just when nothing is left to do. -/
theorem nextMove?_eq_none_iff : s.nextMove? = none ↔ s.isQuiet = true := by
  unfold nextMove? isQuiet
  cases s.runnable? with
  | some position => simp
  | none => cases s.workerReady <;> simp

omit [Feed φ] in
/-- A move of the standard schedule is a poll of an action that can go on, or a step of the worker. -/
theorem nextMove?_eq_some {m : Move} (h : s.nextMove? = some m) :
    (∃ position, m = .poll position ∧ s.runnable? = some position) ∨ (m = .work ∧ s.workerReady = true) := by
  unfold nextMove? at h
  cases hrun : s.runnable? with
  | some position =>
      rw [hrun] at h
      cases h
      exact .inl ⟨position, rfl, rfl⟩
  | none =>
      rw [hrun] at h
      cases ready : s.workerReady <;> simp [ready] at h
      exact .inr ⟨h.symm, rfl⟩

end Clockwork

namespace Environment

variable {base : Queue} {start : Nat} {ts : List Ticket} {j : List Event} {e : Environment} {m : Move}

/-- A move of the standard schedule drains the queue, or leaves less to do. -/
theorem Runs.nextMove (h : Runs base start ts j e) (fit : Ticket.Fit base.engine.attackMs ts)
    (next : e.nextMove? = some m) :
    m.isCalm = true ∧ Runs base start ts (j ++ e.events m) (e.move m) ∧
      Proceeds e (e.move m) := by
  rcases Clockwork.nextMove?_eq_some next with ⟨position, rfl, ready⟩ | ⟨rfl, ready⟩
  · obtain ⟨b, accepting, run, entry, hw, hentry, ready⟩ := Clockwork.runnable?_eq_some ready
    exact ⟨rfl, h.poll_of_runnable fit hw hentry ready⟩
  · exact ⟨rfl, h.work fit ready⟩

/-- Until the queue is drained the last group has not been due to end before. -/
theorem Runs.now_le (h : Runs base start ts j e) (undrained : ¬ e.IsDrained) :
    e.now ≤ finish base.engine.attackMs start ts := by
  obtain ⟨done, current, left, rfl, h⟩ := h
  obtain ⟨t, rest, heq⟩ := List.exists_cons_of_ne_nil (l := current.toList ++ left) (by
    intro none_left
    refine undrained (h.isDrained_iff.2 ?_)
    simpa using none_left)
  have within := h.now_le_of_head t (by rw [heq]; rfl)
  have order := le_finish base.engine.attackMs (finish base.engine.attackMs start (done ++ [t])) rest
  rw [← finish_append, List.append_assoc, List.singleton_append, ← heq, ← List.append_assoc] at order
  exact Nat.le_trans within order

/-- When the queue is drained all groups are done. -/
theorem Runs.performs (h : Runs base start ts j e) (fit : Ticket.Fit base.engine.attackMs ts)
    (drained : e.IsDrained) : Performs base.engine.attackMs start ts [] j e := by
  obtain ⟨done, current, left, all, h⟩ := h
  obtain ⟨rfl, rfl⟩ := h.isDrained_iff.1 drained
  obtain rfl : done = ts := by simpa using all
  exact h.performs (by simpa using fit)

/-- Groups on time can be worked off by calm moves. -/
theorem Runs.exists_drained (h : Runs base start ts j e) (fit : Ticket.Fit base.engine.attackMs ts) :
    ∃ moves, (∀ m ∈ moves, m.isCalm = true) ∧
      Runs base start ts (j ++ e.journal moves) (e.play moves) ∧ IsDrained (e.play moves) := by
  -- less is left to do, or as much is and the last group ends sooner
  obtain ⟨fuel, hfuel⟩ : ∃ fuel, fuel = e.movesLeft * (finish base.engine.attackMs start ts + 1) +
      (finish base.engine.attackMs start ts - e.now) := ⟨_, rfl⟩
  induction fuel using Nat.strong_induction_on generalizing j e with
  | _ fuel ih =>
  by_cases drained : e.IsDrained
  · exact ⟨[], by simp, by simpa using h, drained⟩
  have now_le := h.now_le drained
  have proceed (m : Move) (calm : m.isCalm = true) (next : Runs base start ts (j ++ e.events m) (e.move m))
      (fewer : IsDrained (e.move m) ∨ movesLeft (e.move m) < e.movesLeft ∨
        movesLeft (e.move m) = e.movesLeft ∧ (e.move m).now = e.now + 1) :
      ∃ moves, (∀ m ∈ moves, m.isCalm = true) ∧
        Runs base start ts (j ++ e.journal moves) (e.play moves) ∧ IsDrained (e.play moves) := by
    by_cases drained' : IsDrained (e.move m)
    · exact ⟨[m], by simpa using calm, by simpa using next, drained'⟩
    · have now_le' := next.now_le drained'
      have less : movesLeft (e.move m) * (finish base.engine.attackMs start ts + 1) +
          (finish base.engine.attackMs start ts - (e.move m).now) < fuel := by
        rw [hfuel]
        rcases fewer.resolve_left drained' with fewer | ⟨same, later⟩
        · have := Nat.mul_le_mul_right (finish base.engine.attackMs start ts + 1) fewer
          rw [Nat.succ_mul] at this
          omega
        · rw [same]
          omega
      obtain ⟨moves, calm', runs, done⟩ := ih _ less next rfl
      exact ⟨m :: moves, by simpa using ⟨calm, calm'⟩, by simpa using runs, done⟩
  rcases hnext : e.nextMove? with _ | m
  · have hmove : e.move .tick = { e with now := e.now + 1 } := by
      simp [Clockwork.move, Clockwork.tick, Clockwork.nextMove?_eq_none_iff.1 hnext]
    exact proceed .tick rfl (h.move fit rfl) (.inr (.inr (by rw [hmove]; exact ⟨rfl, rfl⟩)))
  · obtain ⟨calm, runs, fewer⟩ := h.nextMove fit hnext
    exact proceed m calm runs (fewer.imp_right fun less => .inl less.2)

/-- A worker that is away can be started, or sleeps no longer than until an instant. -/
theorem Waits.exists_runs (h : Waits base ts j e) :
    ∃ moves, (∀ m ∈ moves, m.isCalm = true) ∧
      ∃ start, Runs base start ts (j ++ e.journal moves) (e.play moves) := by
  rcases h.away with hw | ⟨due, hw⟩
  · refine ⟨[.start], by simp [Move.isCalm], e.now, ?_⟩
    rcases h.move (m := .start) rfl with waits | runs
    · have hw' : (e.move .start).executor.worker = some ⟨false, .checking⟩ := by
        simp [Clockwork.move, Executor.start, hw]
      rcases waits.away with hw'' | ⟨due, hw''⟩ <;> cases hw'.symm.trans hw''
    · simpa using runs
  · obtain ⟨left, hleft⟩ : ∃ left, left = due - e.now := ⟨_, rfl⟩
    induction left generalizing j e with
    | zero =>
        have ready : e.workerReady = true := by
          simp [Clockwork.workerReady, hw]
          omega
        refine ⟨[.work], by simp [Move.isCalm], e.now, ?_⟩
        rcases h.move (m := .work) rfl with waits | runs
        · have hw' : (e.move .work).executor.worker = some ⟨false, .asking {}⟩ := by
            simp [Clockwork.move, Clockwork.workerStep, ready, hw, Clockwork.beginRound,
              Clockwork.enter_of_some hw]
          rcases waits.away with hw'' | ⟨due, hw''⟩ <;> cases hw'.symm.trans hw''
        · simpa using runs
    | succ left ih =>
        have quiet : e.isQuiet = true := by
          simp [Clockwork.isQuiet, Clockwork.workerReady, Clockwork.runnable?, hw]
          omega
        have hmove : e.move .tick = { e with now := e.now + 1 } := by
          simp [Clockwork.move, Clockwork.tick, quiet]
        rcases h.move (m := .tick) rfl with waits | runs
        · obtain ⟨moves, calm, start, runs⟩ := ih waits (by rw [hmove]; exact hw) (by rw [hmove]; simp; omega)
          exact ⟨.tick :: moves, by simpa [Move.isCalm] using calm, start, by simpa using runs⟩
        · exact ⟨[.tick], by simp [Move.isCalm], _, by simpa using runs⟩

/-- Groups that wait or are on time can be worked off by calm moves. -/
theorem Stands.exists_drained (h : Stands base ts j e) (fit : Ticket.Fit base.engine.attackMs ts) :
    ∃ moves, (∀ m ∈ moves, m.isCalm = true) ∧
      (∃ start, Runs base start ts (j ++ e.journal moves) (e.play moves)) ∧ IsDrained (e.play moves) := by
  rcases h with waits | ⟨start, runs⟩
  · obtain ⟨moves, calm, start, runs⟩ := waits.exists_runs
    obtain ⟨more, calm', runs, drained⟩ := runs.exists_drained fit
    refine ⟨moves ++ more, fun m hm => (List.mem_append.1 hm).elim (calm m) (calm' m), ⟨start, ?_⟩, ?_⟩
    · rwa [Clockwork.journal_append, Clockwork.play_append, ← List.append_assoc]
    · rwa [Clockwork.play_append]
  · obtain ⟨moves, calm, runs, drained⟩ := runs.exists_drained fit
    exact ⟨moves, calm, ⟨start, runs⟩, drained⟩

/-- Groups that wait or are on time can be performed to their end by calm moves. -/
theorem Stands.exists_performs (h : Stands base ts j e) (fit : Ticket.Fit base.engine.attackMs ts) :
    ∃ moves, (∀ m ∈ moves, m.isCalm = true) ∧ ∃ start,
      Performs base.engine.attackMs start ts [] (j ++ e.journal moves) (e.play moves) := by
  obtain ⟨moves, calm, ⟨start, runs⟩, drained⟩ := h.exists_drained fit
  exact ⟨moves, calm, start, runs.performs fit drained⟩

/-! ## Accepted scripts -/

/-- The groups of an accepted script can be told apart and say what to do. -/
theorem fit_of_check {max : Float} {script : String} {groups : List Group}
    (accepted : Script.check max script = .ok groups) (attackMs first : Nat) :
    Ticket.Fit attackMs (Queue.number first groups) where
  distinct := by
    rw [Queue.number_ids]
    exact List.nodup_range'
  proper t ht a ha := by
    have reason := (Script.actionFault?_eq_none
      (Script.actionFault?_of_check accepted (Queue.group_of_mem_number ht) ha)).1
    exact Script.plan_ne_invalid reason attackMs

/-- An accepted script puts its groups into a queue without outstanding groups. -/
theorem add_of_idle {script : String} {groups : List Group} (open_ : e.feed.stopped = false)
    (running : e.feed.running = [])
    (accepted : Script.check e.feed.engine.maxActionSeconds script = .ok groups) :
    e.add script =
      (.ok groups.length, { e with feed := e.feed.accept e.now script groups false }) := by
  rw [Environment.add, Queue.add_of_groups open_ accepted, Queue.makeRoom_of_nil running]

/-- A script that is accepted while nothing is at work is about to be performed. -/
theorem Stands.add (h : Stands base [] j e) (open_ : base.stopped = false) {script : String}
    {groups : List Group} (accepted : Script.check base.engine.maxActionSeconds script = .ok groups) :
    (e.add script).1 = .ok groups.length ∧
      (e.add script).2.executor = e.executor ∧
      Stands (base.accept e.now script groups false) (Queue.number base.nextId groups) []
        (e.add script).2 := by
  obtain ⟨serene, feed, idle⟩ := h.idle
  rw [add_of_idle (by rw [feed]; exact open_) (by rw [feed]; rfl) (by rw [feed]; exact accepted)]
  refine ⟨rfl, rfl, stands_of_idle ⟨serene.engine, serene.works, serene.active⟩ ?_ idle⟩
  rw [feed]
  rfl

/--
A script that is accepted while nothing is at work, under a device that carries out everything and
with a window that is active if it has to be, is performed on schedule whatever turns the worker, the
actions and the clock take: from the instant at which its first group is handed out, each group is
handed out and dispatched when the one before it is due to end, each action sends what its timetable
says and nothing else, and each report says that all actions completed. Nothing of this is ever late,
and it can always be brought to its end.
-/
theorem undisturbed_on_schedule (engine : Engine) (target : Target) (device : Device) (focus : Focus)
    (works : ∀ command, device.respond command = .done)
    (active : target.requireFocus = true → focus.isActive = true) {before : List Move}
    (calm : ∀ m ∈ before, m.isCalm = true) {script : String} {groups : List Group}
    (accepted : Script.check engine.maxActionSeconds script = .ok groups) :
    let added := Environment.add script ((new engine target device focus).play before)
    let tickets := Queue.number 0 groups
    added.1 = .ok groups.length ∧
    ∀ after, (∀ m ∈ after, m.isCalm = true) →
      (∃ start done rest, done ++ rest = tickets ∧
        Performs engine.attackMs start done rest (added.2.journal after) (added.2.play after)) ∧
      ∃ more, (∀ m ∈ more, m.isCalm = true) ∧ ∃ start,
        Performs engine.attackMs start tickets [] (added.2.journal (after ++ more))
          (added.2.play (after ++ more)) := by
  intro added tickets
  have fresh : Stands { engine } [] [] (new engine target device focus) :=
    stands_of_idle ⟨rfl, works, active⟩ (by simp [new, Queue.workedOff, Queue.latest]) (.inl rfl)
  have idle := fresh.play ⟨List.nodup_nil, by simp⟩ calm
  obtain ⟨ok, -, stands⟩ := idle.add rfl accepted
  refine ⟨ok, fun after calm' => ?_⟩
  have fit : Ticket.Fit engine.attackMs tickets := fit_of_check accepted engine.attackMs 0
  have stands := stands.play fit calm'
  rw [List.nil_append] at stands
  refine ⟨stands.performs fit, ?_⟩
  obtain ⟨more, calm'', start, performs⟩ := stands.exists_performs fit
  refine ⟨more, calm'', start, ?_⟩
  rw [Clockwork.journal_append, Clockwork.play_append]
  exact performs

/-- The worker is started, finds nothing to do and goes to sleep. -/
def asleep : List Move := [.start, .work, .work]

/-- The worker wakes up and opens the first group; two presses and a walk later it asks for the next. -/
def untilSwitch : List Move :=
  [List.replicate 50 .tick, [.work, .work, .work, .work, .work, .poll 0, .poll 1],
    List.replicate 200 .tick, [.poll 0], List.replicate 100 .tick, [.poll 1],
    List.replicate 100 .tick, [.poll 0, .work, .work, .work, .work, .work, .work]].flatten

/-- Two presses beside a walk take as long as the presses, and the switch is handed out then. -/
theorem undisturbed_on_schedule_attackThenSwitch :
    let attack := Action.make .attack (some "2")
    let walk := Action.make .moveForward (some "0.3")
    let switch := Action.make .switch (some "2")
    let added := Environment.add "attack(2)&w(0.3),sw(2)" ((new {} {} {} {}).play asleep)
    ((∀ command, ({} : Device).respond command = .done) ∧ ({} : Focus).isActive = true ∧
      (∀ m ∈ asleep, m.isCalm = true) ∧ (∀ m ∈ untilSwitch, m.isCalm = true) ∧
      Script.check 10.0 "attack(2)&w(0.3),sw(2)" =
        .ok [.of [attack, walk], .of [switch]]) ∧
    (∃ start done rest, done ++ rest = [⟨0, .of [attack, walk]⟩, ⟨1, .of [switch]⟩] ∧
      Performs 200 start done rest (added.2.journal untilSwitch) (added.2.play untilSwitch)) ∧
    added.2.journal untilSwitch =
      [.asked 50 (.group ⟨0, .of [attack, walk]⟩),
        .called ⟨50, 0, 0, .press .attack, .done⟩, .called ⟨50, 0, 1, .down .forward, .done⟩,
        .called ⟨250, 0, 0, .press .attack, .done⟩, .called ⟨350, 0, 1, .up .forward, .done⟩,
        .reported (Ticket.completed ⟨0, .of [attack, walk]⟩),
        .asked 450 (.group ⟨1, .of [switch]⟩)] := by
  intro attack walk switch
  have works : ∀ command, ({} : Device).respond command = .done := by
    intro command
    cases command <;> rfl
  have calm : ∀ m ∈ asleep, m.isCalm = true := by decide
  have calm' : ∀ m ∈ untilSwitch, m.isCalm = true := by decide +kernel
  have accepted : Script.check 10.0 "attack(2)&w(0.3),sw(2)" =
      .ok [.of [attack, walk], .of [switch]] := by rfl
  obtain ⟨-, performs⟩ := undisturbed_on_schedule {} {} {} {} works (fun _ => rfl) calm accepted
  exact ⟨⟨works, rfl, calm, calm', accepted⟩, (performs untilSwitch calm').1, by decide +kernel⟩

end Environment

end Combo
