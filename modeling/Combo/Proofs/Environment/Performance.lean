-- SUMMARY: An accepted script that nothing disturbs is performed on the reference schedule of its groups and actions, to the end.
import Combo.Proofs.Environment.OnTime
import Combo.Proofs.Queue.Conservation
import Combo.Proofs.Script.Executable

/-!
# Performances

A script that is accepted while nothing is at work is performed on a schedule that
depends on nothing but its groups: however the worker, the actions and the clock
take turns, what is seen by any instant is the schedule as far as that instant.
And it can always be brought to its end.

Before its first group is handed out the worker may be away: it was not started,
or it sleeps. The instant at which it comes back is when the performance starts.
-/

namespace Combo

/-- Whether a move is one of the worker, of an action or of the clock, or starts the worker. -/
def Move.isCalm : Move → Bool
  | .work | .closeLate | .poll _ | .tick | .start => true
  | .request _ | .requestStop | .abort | .setFocus _ _ | .setDevice _ => false

namespace Clockwork

variable {φ : Type}

/-- What something waits for while nothing is left to do is still to come. -/
theorem lt_of_mem_dues {s : Clockwork φ} (quiet : s.isQuiet = true) {due : Nat}
    (h : due ∈ s.dues) : s.now < due := by
  simp only [isQuiet, Bool.and_eq_true, Bool.not_eq_true', Option.isNone_iff_eq_none] at quiet
  obtain ⟨rests, waits⟩ := quiet
  rcases hw : s.executor.worker with _ | ⟨b, stage⟩
  · simp [dues, hw] at h
  · cases stage with
    | checking | asking | taken | reporting | crashed => simp [dues, hw] at h
    | sleeping due' =>
        obtain rfl : due = due' := by simpa [dues, hw] using h
        cases b <;> simp_all [workerReady]
    | running step run =>
        cases step with
        | focusing | opening | closing => simp [dues, hw] at h
        | settling due' =>
            obtain rfl : due = due' := by simpa [dues, hw] using h
            simp only [workerReady, hw, stepReady, Bool.or_eq_false_iff, decide_eq_false_iff_not] at rests
            omega
        | joining accepting =>
            obtain ⟨e, he, hdue⟩ := List.mem_filterMap.1 (by simpa [dues, hw] using h)
            have still : e.runnable s.now = false := by
              have waits : run.runnable? s.now = none := by simpa [runnable?, hw] using waits
              simpa using List.findIdx?_eq_none_iff.1 waits e he
            cases hp : e.progress <;>
              simp_all [Entry.runnable, Progress.runnable, Progress.due?]

end Clockwork

namespace Environment

variable {base : Queue} {start : Nat} {ts : List Ticket} {j : List Event} {e : Environment}
  {moves : List Move}

/-- A move that is no call from outside keeps groups on time. -/
theorem Runs.move (h : Runs base start ts j e) (fit : Ticket.Fit base.engine.attackMs ts) {m : Move}
    (calm : m.isCalm = true) : Runs base start ts (j ++ e.events m) (e.move m) := by
  cases m with
  | work =>
      cases ready : e.workerReady with
      | true => exact (h.work fit ready).1
      | false =>
          have hmove : e.move .work = e := by simp [Clockwork.move, Clockwork.workerStep, ready]
          have hevents : e.events .work = [] := Clockwork.workEvents_of_not_ready ready
          rwa [hmove, hevents, List.append_nil]
  | closeLate => exact h.closeLate
  | poll position =>
      rcases poll_cases e position with ⟨hmove, hevents⟩ | ⟨b, accepting, run, entry, hw, hentry, ready⟩
      · rwa [hmove, hevents, List.append_nil]
      · exact (h.poll_of_runnable fit hw hentry ready).1
  | tick =>
      have hevents : e.events .tick = [] := rfl
      rw [hevents, List.append_nil]
      simp only [Clockwork.move, Clockwork.tick]
      split
      · rename_i quiet
        exact h.shift fit quiet (Nat.le_succ _) fun due hdue => Clockwork.lt_of_mem_dues quiet hdue
      · exact h
  | start => exact h.started
  | request | requestStop | abort | setFocus | setDevice => cases calm

/-! ## What is seen by an instant -/

/--
Whether an environment has come, with what was seen of it, as far as its clock on the schedule of these
groups, of which some are done.
-/
structure Performs (attackMs start : Nat) (done rest : List Ticket) (j : List Event) (e : Environment) :
    Prop where
  /-- Each group is handed out at its instant. -/
  handed : ∃ late, handouts j ++ late = timetable attackMs start (done ++ rest) ∧ ∀ x ∈ late, e.now ≤ x.1
  /-- A group that was handed out is dispatched at that instant. -/
  undispatched : ∀ b t d, e.executor.worker = some ⟨b, .taken t d⟩ →
    (e.now, t) ∈ timetable attackMs start (done ++ rest)
  /-- Each group is reported, with all its actions completed, before its end is past. -/
  reported : reports j = done.map Ticket.completed ∧
    ∀ t ∈ rest.head?, e.now ≤ finish attackMs start (done ++ [t])
  /-- Each action sends what its timetable says from the instant of its group on, and all is carried out. -/
  sent : ∀ x ∈ timetable attackMs start (done ++ rest), ∀ (i : Nat) (a : Action),
    x.2.group.actions[i]? = some a →
      ∃ late, exchangesAt x.2.id i j ++ carriedOut late = carriedOut (a.timetable attackMs x.1).1 ∧
        (∀ y ∈ late, e.now ≤ y.1) ∧ (x.2 ∈ done → late = [])
  /-- Nothing else is sent. -/
  own : ∀ c, Event.called c ∈ j →
    ∃ t ∈ done ++ rest, c.group = t.id ∧ c.position < t.group.actions.length

namespace OnTime

variable {done left : List Ticket} {current : Option Ticket}

/-- The group that is at work, or is next, has not been due to end before. -/
theorem now_le_of_head (h : OnTime base start done current left j e) :
    ∀ t ∈ (current.toList ++ left).head?, e.now ≤ finish base.engine.attackMs start (done ++ [t]) := by
  intro t ht
  rw [finish_append, finish_singleton]
  have station := h.station
  generalize e.executor.worker = w at station
  cases station with
  | awake hstage time =>
      have := time.resolve_left (by rintro rfl; simp at ht)
      omega
  | away hw' none_left => simp [none_left] at ht
  | taken time | opening hstep time =>
      cases ht
      omega
  | joining punctual | closing punctual =>
      cases ht
      exact punctual.within
  | reporting time =>
      cases ht
      exact Nat.le_of_eq time

/-- The next group has not been due to start before. -/
theorem now_le_of_left (h : OnTime base start done current left j e) (more : left ≠ []) :
    e.now ≤ finish base.engine.attackMs start (done ++ current.toList) := by
  cases current with
  | some t => exact h.now_le_of_head t rfl
  | none =>
      have station := h.station
      generalize e.executor.worker = w at station
      cases station with
      | awake hstage time => simpa using Nat.le_of_eq (time.resolve_left more)
      | away hw' none_left => exact absurd none_left more

/-- What the actions of the group at work have not sent yet is not overdue. -/
theorem exists_late (h : OnTime base start done current left j e) {t : Ticket} (ht : t ∈ current)
    (proper : t.group.IsProper base.engine.attackMs) {i : Nat} {a : Action}
    (ha : t.group.actions[i]? = some a) :
    ∃ late, exchangesAt t.id i j ++ carriedOut late =
        carriedOut (a.timetable base.engine.attackMs (finish base.engine.attackMs start done)).1 ∧
      ∀ y ∈ late, e.now ≤ y.1 := by
  cases ht
  have mem := List.mem_of_getElem? ha
  have station := h.station
  generalize e.executor.worker = w at station
  cases station with
  | taken time blank =>
      refine ⟨_, by rw [blank, List.nil_append], ?_⟩
      rw [time]
      exact Action.timetable_ge (proper a mem) _
  | opening hstep time punctual => exact punctual.exists_toCome proper ha
  | joining punctual | closing punctual => exact punctual.exists_toCome proper ha
  | reporting time whole => exact ⟨[], by rw [whole i a ha]; exact List.append_nil _, by simp⟩

/-- Groups on time are performed. -/
theorem performs (h : OnTime base start done current left j e)
    (fit : Ticket.Fit base.engine.attackMs (done ++ current.toList ++ left)) :
    Performs base.engine.attackMs start done (current.toList ++ left) j e := by
  have apart {t t' : Ticket} (ht : t ∈ done) (ht' : t' ∈ current.toList ++ left) : t.id ≠ t'.id := by
    rw [List.append_assoc] at fit
    exact fit.apart ht ht'
  have later {x : Nat × Ticket}
      (hx : x ∈ timetable base.engine.attackMs
        (finish base.engine.attackMs start (done ++ current.toList)) left) : e.now ≤ x.1 :=
    Nat.le_trans (h.now_le_of_left (List.ne_nil_of_mem (of_mem_timetable hx).2)) (of_mem_timetable hx).1
  exact
    { handed := by
        refine ⟨timetable base.engine.attackMs
          (finish base.engine.attackMs start (done ++ current.toList)) left, ?_, fun x hx => later hx⟩
        rw [h.handed, ← List.append_assoc]
        exact (timetable_append _ _ _ _).symm
      undispatched := fun b t d hw => by
        have station := h.station
        rw [hw] at station
        cases station with
        | awake hstage => simp at hstage
        | away hw' => simp at hw'
        | taken time =>
            rw [time, timetable_append]
            exact List.mem_append_right _ List.mem_cons_self
      reported := ⟨h.reported, h.now_le_of_head⟩
      sent := fun x hx i a ha => by
        rw [← List.append_assoc, timetable_append, timetable_append, List.mem_append,
          List.mem_append] at hx
        rcases hx with (hx | hx) | hx
        · exact ⟨[], by rw [h.whole x hx i a ha]; exact List.append_nil _, by simp, fun _ => rfl⟩
        · obtain ⟨t, rfl, rfl⟩ : ∃ t, current = some t ∧
              x = (finish base.engine.attackMs start done, t) := by
            cases current with
            | none => cases hx
            | some t => exact ⟨t, rfl, by simpa [timetable] using hx⟩
          obtain ⟨late, heq, hlate⟩ := h.exists_late rfl (fit.proper t (by simp)) ha
          exact ⟨late, heq, hlate, fun ht => absurd rfl (apart ht (by simp))⟩
        · have mem := (of_mem_timetable hx).2
          have proper := fit.proper x.2 (List.mem_append_right _ mem) a (List.mem_of_getElem? ha)
          refine ⟨_, ?_, fun y hy => Nat.le_trans (later hx) (Action.timetable_ge proper x.1 y hy),
            fun ht => absurd rfl (apart ht (List.mem_append_right _ mem))⟩
          rw [exchangesAt_of_foreign, List.nil_append]
          intro c hc hid
          obtain ⟨t, ht, hgroup, -⟩ := h.own c hc
          exact fit.apart ht mem (hgroup.symm.trans hid)
      own := fun c hc => by
        obtain ⟨t, ht, hgroup⟩ := h.own c hc
        refine ⟨t, ?_, hgroup⟩
        rw [← List.append_assoc]
        exact List.mem_append_left _ ht }

end OnTime

/-! ## Before the first group is handed out -/

/-- Whether a worker is away while groups wait that nothing was done for yet. -/
structure Waits (base : Queue) (ts : List Ticket) (j : List Event) (e : Environment) : Prop where
  serene : e.executor.Serene base.engine
  feed : e.feed = base.workedOff [] none ts
  handed : handouts j = []
  reported : reports j = []
  silent : ∀ c, Event.called c ∉ j
  away : e.executor.worker = none ∨ ∃ due, e.executor.worker = some ⟨false, .sleeping due⟩

/-- Groups of which nothing was seen are on time from the instant at which a worker is there to ask. -/
theorem runs_of_awake (serene : e.executor.Serene base.engine) (feed : e.feed = base.workedOff [] none ts)
    (handed : handouts j = []) (reported : reports j = []) (silent : ∀ c, Event.called c ∉ j)
    {stage : Stage} (hw : e.executor.worker = some ⟨false, stage⟩)
    (hstage : stage = .checking ∨ stage = .asking {}) : Runs base e.now ts j e :=
  ⟨[], none, ts, rfl,
    { serene
      feed
      handed
      reported
      own := fun c hc => absurd hc (silent c)
      whole := fun x hx => by cases hx
      station := by
        rw [hw]
        exact .awake hstage (.inr (finish_nil _ _).symm) }⟩

/-- When the worker comes back the groups are on time from this instant on. -/
theorem Waits.wake (h : Waits base ts j e) {stage : Stage}
    (hstage : stage = .checking ∨ stage = .asking {}) (phase : Phase) :
    Runs base e.now ts j (e.withPhase phase (some ⟨false, stage⟩)) :=
  runs_of_awake (e := e.withPhase phase (some ⟨false, stage⟩))
    ⟨h.serene.engine, h.serene.works, h.serene.active⟩ h.feed h.handed h.reported h.silent rfl hstage

theorem Waits.move (h : Waits base ts j e) {m : Move} (calm : m.isCalm = true) :
    Waits base ts (j ++ e.events m) (e.move m) ∨ Runs base e.now ts (j ++ e.events m) (e.move m) := by
  have still (hmove : e.move m = e) (hevents : e.events m = []) :
      Waits base ts (j ++ e.events m) (e.move m) := by
    rwa [hmove, hevents, List.append_nil]
  cases m with
  | work =>
      cases ready : e.workerReady with
      | false =>
          exact .inl (still (by simp [Clockwork.move, Clockwork.workerStep, ready])
            (Clockwork.workEvents_of_not_ready ready))
      | true =>
          rcases h.away with hw | ⟨due, hw⟩
          · simp [Clockwork.workerReady, hw] at ready
          · have le : due ≤ e.now := by simpa [Clockwork.workerReady, hw] using ready
            have hmove : e.move .work = e.withPhase .dequeuing (some ⟨false, .asking {}⟩) := by
              simp [Clockwork.move, Clockwork.workerStep, Clockwork.workerReady, hw, le,
                Clockwork.beginRound, Clockwork.enter_of_some hw]
            rw [hmove, silent_of_stage hw (by simp) (by simp), List.append_nil]
            exact .inr (h.wake (.inr rfl) .dequeuing)
  | closeLate =>
      refine .inl (still ?_ rfl)
      rcases h.away with hw | ⟨due, hw⟩ <;> simp [Clockwork.move, Clockwork.closeLate, hw]
  | poll position =>
      rcases poll_cases e position with ⟨hmove, hevents⟩ | ⟨b, accepting, run, entry, hw, -⟩
      · exact .inl (still hmove hevents)
      · rcases h.away with hw' | ⟨due, hw'⟩ <;> cases hw.symm.trans hw'
  | tick =>
      have hevents : e.events .tick = [] := rfl
      rw [hevents, List.append_nil]
      simp only [Clockwork.move, Clockwork.tick]
      split
      · exact .inl ⟨⟨h.serene.engine, h.serene.works, h.serene.active⟩, h.feed, h.handed, h.reported,
          h.silent, h.away⟩
      · exact .inl h
  | start =>
      rcases h.away with hw | ⟨due, hw⟩
      · have hmove : e.move .start = e.withPhase e.executor.phase (some ⟨false, .checking⟩) := by
          simp [Clockwork.move, Executor.start, hw]
        have hevents : e.events .start = [] := rfl
        rw [hmove, hevents, List.append_nil]
        exact .inr (h.wake (.inl rfl) _)
      · exact .inl (still (by simp [Clockwork.move, Executor.start, hw]) rfl)
  | request | requestStop | abort | setFocus | setDevice => cases calm

/-- Whether these groups wait, or are worked off without a gap. -/
def Stands (base : Queue) (ts : List Ticket) (j : List Event) (e : Environment) : Prop :=
  Waits base ts j e ∨ ∃ start, Runs base start ts j e

theorem Stands.move (h : Stands base ts j e) (fit : Ticket.Fit base.engine.attackMs ts) {m : Move}
    (calm : m.isCalm = true) : Stands base ts (j ++ e.events m) (e.move m) := by
  rcases h with waits | ⟨start, runs⟩
  · rcases waits.move calm with waits | runs
    · exact .inl waits
    · exact .inr ⟨_, runs⟩
  · exact .inr ⟨start, runs.move fit calm⟩

theorem Stands.play (h : Stands base ts j e) (fit : Ticket.Fit base.engine.attackMs ts)
    (calm : ∀ m ∈ moves, m.isCalm = true) :
    Stands base ts (j ++ e.journal moves) (e.play moves) := by
  induction moves generalizing j e with
  | nil => simpa using h
  | cons m moves ih =>
      have next := ih (h.move fit (calm m List.mem_cons_self)) fun m' hm' =>
        calm m' (List.mem_cons_of_mem _ hm')
      simpa using next

/-- A worker that has nothing to do, or has not begun yet. -/
def IsIdle (worker : Option Worker) : Prop :=
  worker = none ∨ ∃ stage, worker = some ⟨false, stage⟩ ∧
    (stage = .checking ∨ stage = .asking {} ∨ ∃ due, stage = .sleeping due)

/-- Groups that an idle worker finds wait, or are on time from this instant on. -/
theorem stands_of_idle (serene : e.executor.Serene base.engine) (feed : e.feed = base.workedOff [] none ts)
    (idle : IsIdle e.executor.worker) : Stands base ts [] e := by
  have waits (away : e.executor.worker = none ∨ ∃ due, e.executor.worker = some ⟨false, .sleeping due⟩) :
      Waits base ts [] e :=
    ⟨serene, feed, rfl, rfl, by simp, away⟩
  have runs {stage : Stage} (hw : e.executor.worker = some ⟨false, stage⟩)
      (hstage : stage = .checking ∨ stage = .asking {}) : Runs base e.now ts [] e :=
    runs_of_awake serene feed rfl rfl (by simp) hw hstage
  rcases idle with hw | ⟨stage, hw, rfl | rfl | ⟨due, rfl⟩⟩
  · exact .inl (waits (.inl hw))
  · exact .inr ⟨_, runs hw (.inl rfl)⟩
  · exact .inr ⟨_, runs hw (.inr rfl)⟩
  · exact .inl (waits (.inr ⟨due, hw⟩))

/-- Without groups the worker remains idle. -/
theorem Stands.idle (h : Stands base [] j e) :
    e.executor.Serene base.engine ∧ e.feed = base.workedOff [] none [] ∧ IsIdle e.executor.worker := by
  rcases h with waits | ⟨start, done, current, left, all, h⟩
  · refine ⟨waits.serene, waits.feed, ?_⟩
    rcases waits.away with hw | ⟨due, hw⟩
    · exact .inl hw
    · exact .inr ⟨_, hw, .inr (.inr ⟨due, rfl⟩)⟩
  · obtain ⟨rfl, rfl, rfl⟩ : done = [] ∧ current = none ∧ left = [] := by simpa using all
    refine ⟨h.serene, h.feed, ?_⟩
    have station := h.station
    generalize e.executor.worker = w at station ⊢
    cases station with
    | awake hstage =>
        rcases hstage with rfl | rfl
        · exact .inr ⟨_, rfl, .inl rfl⟩
        · exact .inr ⟨_, rfl, .inr (.inl rfl)⟩
    | away hw =>
        rcases hw with rfl | ⟨due, rfl⟩
        · exact .inl rfl
        · exact .inr ⟨_, rfl, .inr (.inr ⟨due, rfl⟩)⟩

/-- Groups that wait or are on time are performed. -/
theorem Stands.performs (h : Stands base ts j e) (fit : Ticket.Fit base.engine.attackMs ts) :
    ∃ start done rest, done ++ rest = ts ∧ Performs base.engine.attackMs start done rest j e := by
  rcases h with waits | ⟨start, done, current, left, rfl, h⟩
  · obtain ⟨done, current, left, rfl, h⟩ := waits.wake (.inl rfl) .idle
    have performs := h.performs fit
    refine ⟨e.now, done, current.toList ++ left, (List.append_assoc _ _ _).symm, performs.handed, ?_,
      performs.reported, performs.sent, performs.own⟩
    intro b t d hw
    rcases waits.away with hw' | ⟨due, hw'⟩ <;> cases hw.symm.trans hw'
  · exact ⟨start, done, current.toList ++ left, (List.append_assoc _ _ _).symm, h.performs fit⟩

end Environment

end Combo
