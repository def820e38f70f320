-- SUMMARY: An undisturbed environment works its groups off without a gap: what was handed out, sent and reported at each station of the worker.
import Combo.Proofs.Environment.Roster
import Combo.Proofs.Queue.Effect

/-!
# Groups on time

When nothing gets in the way the groups of a queue run one after another, each
from the instant at which the one before it has ended. `OnTime` says so at each
station of the worker, with what was handed out, sent and reported until then.
Every move that happens without a call from outside keeps it, and until the queue
is drained each step leaves less to do.
-/

namespace Combo

/-! ## Undisturbed environments -/

/-- Whether nothing gets in the way of the actions of an executor. -/
structure Executor.Serene (engine : Engine) (x : Executor) : Prop where
  engine : x.engine = engine
  works : ∀ command, x.device.respond command = .done
  active : x.target.requireFocus = true → x.focus.isActive = true

/-- A queue that has worked off some of its groups since there was no history. -/
def Queue.workedOff (base : Queue) (done : List Ticket) (current : Option Outstanding)
    (left : List Ticket) : Queue :=
  { base with
    pending := left
    running := current.toList
    history := Queue.latest base.engine.historyLimit (done.map Ticket.completed)
    finished := done.length }

/-- Whether groups can be told apart and say what to do. -/
structure Ticket.Fit (attackMs : Nat) (ts : List Ticket) : Prop where
  distinct : (ts.map (·.id)).Nodup
  proper : ∀ t ∈ ts, t.group.IsProper attackMs

/-- Groups at different places have different numbers. -/
theorem Ticket.Fit.apart {attackMs : Nat} {before after : List Ticket}
    (fit : Ticket.Fit attackMs (before ++ after)) {t t' : Ticket} (ht : t ∈ before)
    (ht' : t' ∈ after) : t.id ≠ t'.id := by
  have distinct := fit.distinct
  rw [List.map_append, List.nodup_append] at distinct
  exact distinct.2.2 _ (List.mem_map_of_mem ht) _ (List.mem_map_of_mem ht')

namespace Environment

/--
Where a worker stands that is on time, at an instant, with a group that was to start at an instant, or
without a group since that instant; and what was seen of that group.
-/
inductive Station (attackMs start now : Nat) (active : Bool) (left : List Ticket) (j : List Event) :
    Option Ticket → Option Worker → Prop
  /-- About to take the next group. -/
  | awake {stage : Stage} (hstage : stage = .checking ∨ stage = .asking {})
      (time : left = [] ∨ now = start) :
      Station attackMs start now active left j none (some ⟨false, stage⟩)
  /-- Not at work while there is nothing to do. -/
  | away {worker : Option Worker} (hw : worker = none ∨ ∃ due, worker = some ⟨false, .sleeping due⟩)
      (time : left = []) : Station attackMs start now active left j none worker
  | taken {t : Ticket} (time : now = start) (silent : ∀ i, exchangesAt t.id i j = []) :
      Station attackMs start now active left j (some t) (some ⟨false, .taken t {}⟩)
  /-- About to start the actions; the window has to be looked at only while it is active. -/
  | opening {t : Ticket} {step : Step} {run : Run}
      (hstep : step = .opening ∨ step = .focusing ∧ active = true)
      (time : now = start) (punctual : run.Punctual attackMs start now t j) :
      Station attackMs start now active left j (some t) (some ⟨false, .running step run⟩)
  | joining {t : Ticket} {accepting : Bool} {run : Run}
      (punctual : run.Punctual attackMs start now t j) (started : run.IsAt (.joining false)) :
      Station attackMs start now active left j (some t) (some ⟨false, .running (.joining accepting) run⟩)
  | closing {t : Ticket} {run : Run} (punctual : run.Punctual attackMs start now t j)
      (ended : run.IsAt (.closing none)) :
      Station attackMs start now active left j (some t) (some ⟨false, .running (.closing none) run⟩)
  | reporting {t : Ticket} (time : now = start + t.group.millis attackMs)
      (whole : ∀ (i : Nat) (a : Action), t.group.actions[i]? = some a →
        exchangesAt t.id i j = carriedOut (a.timetable attackMs start).1) :
      Station attackMs start now active left j (some t) (some ⟨false, .reporting t.completed false⟩)

/--
Whether an environment works groups off without a gap from an instant on: some are done, one may be
at work, and the others are left.
-/
structure OnTime (base : Queue) (start : Nat) (done : List Ticket) (current : Option Ticket)
    (left : List Ticket) (j : List Event) (e : Environment) : Prop where
  serene : e.executor.Serene base.engine
  feed : e.feed = base.workedOff done
    (current.map fun t => ⟨t.id, t.group, finish base.engine.attackMs start done⟩) left
  handed : handouts j = timetable base.engine.attackMs start (done ++ current.toList)
  reported : reports j = done.map Ticket.completed
  own : ∀ c, Event.called c ∈ j →
    ∃ t ∈ done ++ current.toList, c.group = t.id ∧ c.position < t.group.actions.length
  whole : ∀ x ∈ timetable base.engine.attackMs start done, ∀ (i : Nat) (a : Action),
    x.2.group.actions[i]? = some a →
      exchangesAt x.2.id i j = carriedOut (a.timetable base.engine.attackMs x.1).1
  station : Station base.engine.attackMs (finish base.engine.attackMs start done) e.now
    e.executor.focus.isActive left j current e.executor.worker

/-! ## What is left to do -/

end Environment

/-- A bound on the moves before a step of a worker in a run that needs no more polls. -/
def Step.movesLeft : Step → Nat
  | .settling _ => 9
  | .focusing => 8
  | .opening => 7
  | .joining true => 6
  | .joining false => 5
  | .closing _ => 4

/-- A bound on the moves for a group that is handed out, until it is reported. -/
def Group.movesLeft (attackMs : Nat) (g : Group) : Nat :=
  9 + (g.actions.map fun a => (a.plan attackMs).polls).sum

/-- A bound on the moves that bring a worker to where it asks for a group, and have it ask. -/
def Stage.movesLeft (attackMs : Nat) : Stage → Nat
  | .asking _ => 1
  | .checking | .sleeping _ => 2
  | .reporting _ _ => 3
  | .running step run => step.movesLeft + run.pollsLeft attackMs
  | .taken t _ => t.group.movesLeft attackMs
  | .crashed => 0

namespace Environment

/-- A bound on the moves that drain an environment, if its worker is at work. -/
def movesLeft (e : Environment) : Nat :=
  (e.executor.worker.map (·.stage.movesLeft e.executor.engine.attackMs)).getD 0 +
    (e.feed.pending.map (·.group.movesLeft e.executor.engine.attackMs)).sum

/-- Whether nothing is pending or outstanding. -/
def IsDrained (e : Environment) : Prop := e.feed.pending = [] ∧ e.feed.running = []

/-- Whether the queue is drained in a later state, or less is left to do there than there was. -/
def Proceeds (e e' : Environment) : Prop :=
  IsDrained e' ∨ ¬ IsDrained e ∧ movesLeft e' < e.movesLeft

/-! ## Steps of the worker -/

namespace OnTime

variable {base : Queue} {start : Nat} {ts done left : List Ticket} {current : Option Ticket}
  {j : List Event} {e e' : Environment}

/-- Where the worker goes on with the group it is at, and nothing is seen, groups stay on time. -/
theorem with_station (h : OnTime base start done current left j e) {worker : Option Worker}
    {phase : Phase}
    (station : Station base.engine.attackMs (finish base.engine.attackMs start done) e.now
      e.executor.focus.isActive left j current worker) :
    OnTime base start done current left j (e.withPhase phase worker) :=
  { h with
    serene := ⟨h.serene.engine, h.serene.works, h.serene.active⟩
    station }

/-- The queue is drained when no group is at work and none is left. -/
theorem isDrained_iff (h : OnTime base start done current left j e) :
    e.IsDrained ↔ current = none ∧ left = [] := by
  rw [IsDrained, h.feed]
  cases current <;> simp [Queue.workedOff, and_comm]

/-- A worker that asks for a group is handed the next one. -/
theorem hand (fit : Ticket.Fit base.engine.attackMs ts) {t : Ticket}
    (all : done ++ t :: left = ts) (h : OnTime base start done none (t :: left) j e)
    (hw : e.executor.worker = some ⟨false, .asking {}⟩)
    (time : e.now = finish base.engine.attackMs start done) :
    OnTime base start done (some t) left (j ++ e.events .work) (e.move .work) ∧
      movesLeft (e.move .work) < e.movesLeft := by
  have next : Feed.next e.now e.feed = (.group t, base.workedOff done
      (some ⟨t.id, t.group, finish base.engine.attackMs start done⟩) left) := by
    rw [h.feed]
    simp [Feed.next, Queue.next, Queue.workedOff, time]
  have hmove : e.move .work = { e with
      feed := base.workedOff done
        (some ⟨t.id, t.group, finish base.engine.attackMs start done⟩) left
      executor := { e.executor with worker := some ⟨false, .taken t {}⟩ } } := by
    simp [Clockwork.move, Clockwork.workerStep, Clockwork.workerReady, hw, Clockwork.ask, next,
      Clockwork.setStage, Executor.setStage]
  have hevents : e.events .work = [.asked e.now (.group t)] := by
    simp [Clockwork.events, Clockwork.workEvents, hw, next]
  have called {c : Call} (hc : .called c ∈ j ++ [Event.asked e.now (.group t)]) : .called c ∈ j := by
    simpa using hc
  rw [hmove, hevents]
  refine ⟨?_, by simp [movesLeft, hw, h.feed, Queue.workedOff, Stage.movesLeft]⟩
  exact
    { serene := ⟨h.serene.engine, h.serene.works, h.serene.active⟩
      feed := rfl
      handed := by
        rw [handouts_append, h.handed]
        simp [handouts, timetable_append, timetable, time]
      reported := by simpa [reports] using h.reported
      own := fun c hc => by
        obtain ⟨t', ht', hgroup⟩ := h.own c (called hc)
        exact ⟨t', List.mem_append_left _ (by simpa using ht'), hgroup⟩
      whole := fun x hx i a ha =>
        (exchangesAt_append_of_silent _ i j rfl).trans (h.whole x hx i a ha)
      station := .taken time fun i => by
        rw [exchangesAt_append_of_silent _ i j rfl]
        refine exchangesAt_of_foreign (fun c hc hid => ?_) i
        obtain ⟨t', ht', hgroup, -⟩ := h.own c hc
        rw [← all] at fit
        exact fit.apart (by simpa using ht') List.mem_cons_self (hgroup.symm.trans hid) }

/-- A worker that asks for a group while none is left goes to sleep. -/
theorem miss (h : OnTime base start done none [] j e) (hw : e.executor.worker = some ⟨false, .asking {}⟩) :
    OnTime base start done none [] (j ++ e.events .work) (e.move .work) := by
  have next : Feed.next e.now e.feed = (.empty, e.feed) := by
    rw [h.feed]
    simp [Feed.next, Queue.next, Queue.workedOff]
  have hmove : e.move .work =
      e.withPhase .idle (some ⟨false, .sleeping (e.now + e.executor.engine.pollMs)⟩) := by
    simp [Clockwork.move, Clockwork.workerStep, Clockwork.workerReady, hw, Clockwork.ask, next,
      Clockwork.enter, Executor.setStage]
  have hevents : e.events .work = [.asked e.now .empty] := by
    simp [Clockwork.events, Clockwork.workEvents, hw, next]
  rw [hmove, hevents]
  exact
    { serene := ⟨h.serene.engine, h.serene.works, h.serene.active⟩
      feed := h.feed
      handed := by simpa [handouts] using h.handed
      reported := by simpa [reports] using h.reported
      own := fun c hc => h.own c (by simpa using hc)
      whole := fun x hx i a ha =>
        (exchangesAt_append_of_silent _ i j rfl).trans (h.whole x hx i a ha)
      station := .away (.inr ⟨_, rfl⟩) rfl }

/-- A worker that hands in the report of a group has done it when it was to. -/
theorem handIn {t : Ticket} (h : OnTime base start done (some t) left j e)
    (hw : e.executor.worker = some ⟨false, .reporting t.completed false⟩)
    (time : e.now = finish base.engine.attackMs start done + t.group.millis base.engine.attackMs)
    (whole : ∀ (i : Nat) (a : Action), t.group.actions[i]? = some a → exchangesAt t.id i j =
      carriedOut (a.timetable base.engine.attackMs (finish base.engine.attackMs start done)).1) :
    OnTime base start (done ++ [t]) none left (j ++ e.events .work) (e.move .work) ∧
      movesLeft (e.move .work) < e.movesLeft := by
  have complete : Feed.complete t.completed e.feed = base.workedOff (done ++ [t]) none left := by
    rw [h.feed]
    simp [Feed.complete, Queue.complete, Queue.workedOff, Ticket.completed, Queue.latest_latest_append]
  have hmove : e.move .work = { e with
      feed := base.workedOff (done ++ [t]) none left
      executor := { e.executor with worker := some ⟨false, .checking⟩ } } := by
    simp [Clockwork.move, Clockwork.workerStep, Clockwork.workerReady, hw, Clockwork.handIn, complete,
      Clockwork.setStage, Executor.setStage]
  have hevents : e.events .work = [.reported t.completed] := by
    simp [Clockwork.events, Clockwork.workEvents, hw]
  rw [hmove, hevents]
  refine ⟨?_, by simp [movesLeft, hw, h.feed, Queue.workedOff, Stage.movesLeft]⟩
  exact
    { serene := ⟨h.serene.engine, h.serene.works, h.serene.active⟩
      feed := rfl
      handed := by simpa [handouts] using h.handed
      reported := by
        rw [reports_append, h.reported]
        simp [reports]
      own := fun c hc => by simpa using h.own c (by simpa using hc)
      whole := fun x hx i a ha => by
        rw [exchangesAt_append_of_silent _ i j rfl]
        rw [timetable_append, List.mem_append] at hx
        rcases hx with hx | hx
        · exact h.whole x hx i a ha
        · obtain rfl : x = (finish base.engine.attackMs start done, t) := by
            simpa [timetable] using hx
          exact whole i a ha
      station := .awake (.inl rfl) (.inr (by rw [finish_append, finish_singleton, ← time])) }

end OnTime

/-! ## Moves -/

/-- Whether an environment works off these groups without a gap from an instant on. -/
def Runs (base : Queue) (start : Nat) (ts : List Ticket) (j : List Event) (e : Environment) : Prop :=
  ∃ done current left, done ++ current.toList ++ left = ts ∧ OnTime base start done current left j e

section Moves

variable {base : Queue} {start : Nat} {ts done left : List Ticket} {current : Option Ticket}
  {j : List Event} {e e' : Environment}

/-- A step of the worker that is not seen leaves less to do if less is left from the next stage on. -/
theorem movesLeft_withPhase {b b' : Bool} {stage stage' : Stage} {phase : Phase}
    (hw : e.executor.worker = some ⟨b, stage⟩)
    (fewer : stage'.movesLeft e.executor.engine.attackMs < stage.movesLeft e.executor.engine.attackMs) :
    movesLeft (e.withPhase phase (some ⟨b', stage'⟩)) < e.movesLeft := by
  simpa [movesLeft, hw] using fewer

/-- A step of the worker is not seen unless it asks for a group or hands in a report. -/
theorem silent_of_stage {stage : Stage} (hw : e.executor.worker = some ⟨false, stage⟩)
    (asks : ∀ d, stage ≠ .asking d) (reports : ∀ report faulty, stage ≠ .reporting report faulty) :
    e.events .work = [] := by
  cases stage with
  | asking d => exact absurd rfl (asks d)
  | reporting report faulty => exact absurd rfl (reports report faulty)
  | checking | taken | running | sleeping | crashed =>
      simp [Clockwork.events, Clockwork.workEvents, hw]

/-- A step of the worker with the group it is at, of which nothing is seen. -/
theorem OnTime.silent_work (h : OnTime base start done current left j e)
    (all : done ++ current.toList ++ left = ts) {stage stage' : Stage} {phase : Phase}
    (hw : e.executor.worker = some ⟨false, stage⟩)
    (hmove : e.move .work = e.withPhase phase (some ⟨false, stage'⟩)) (hevents : e.events .work = [])
    (station : Station base.engine.attackMs (finish base.engine.attackMs start done) e.now
      e.executor.focus.isActive left j current (some ⟨false, stage'⟩))
    (fewer : stage'.movesLeft e.executor.engine.attackMs < stage.movesLeft e.executor.engine.attackMs) :
    Runs base start ts (j ++ e.events .work) (e.move .work) ∧
      Proceeds e (e.move .work) := by
  rw [hmove, hevents, List.append_nil]
  refine ⟨⟨done, current, left, all, h.with_station station⟩, ?_⟩
  by_cases drained : e.IsDrained
  · exact .inl drained
  · exact .inr ⟨drained, movesLeft_withPhase hw fewer⟩

/-- A worker without a group begins a round. -/
theorem OnTime.work_top (h : OnTime base start done none left j e) (all : done ++ left = ts)
    {stage : Stage} (hw : e.executor.worker = some ⟨false, stage⟩)
    (top : stage = .checking ∨ ∃ due, stage = .sleeping due ∧ due ≤ e.now)
    (time : left = [] ∨ e.now = finish base.engine.attackMs start done) :
    Runs base start ts (j ++ e.events .work) (e.move .work) ∧
      Proceeds e (e.move .work) := by
  have hmove : e.move .work = e.withPhase .dequeuing (some ⟨false, .asking {}⟩) := by
    rcases top with rfl | ⟨due, rfl, le⟩
    · simp [Clockwork.move, Clockwork.workerStep, Clockwork.workerReady, hw, Clockwork.beginRound,
        Clockwork.enter_of_some hw]
    · simp [Clockwork.move, Clockwork.workerStep, Clockwork.workerReady, hw, le, Clockwork.beginRound,
        Clockwork.enter_of_some hw]
  refine h.silent_work (by simpa using all) hw hmove ?_ (.awake (.inr rfl) time) ?_
  · rcases top with rfl | ⟨due, rfl, -⟩ <;> exact silent_of_stage hw (by simp) (by simp)
  · rcases top with rfl | ⟨due, rfl, -⟩ <;> simp [Stage.movesLeft]

/-- A worker dispatches the group it was handed; an active window is all right. -/
theorem OnTime.work_taken {t : Ticket} (h : OnTime base start done (some t) left j e)
    (all : done ++ t :: left = ts) (hw : e.executor.worker = some ⟨false, .taken t {}⟩)
    (time : e.now = finish base.engine.attackMs start done)
    (blank : ∀ i, exchangesAt t.id i j = []) :
    Runs base start ts (j ++ e.events .work) (e.move .work) ∧
      Proceeds e (e.move .work) := by
  obtain ⟨run, hrun⟩ : ∃ run, run = Run.dispatch e.executor.target.requireFocus {} t := ⟨_, rfl⟩
  have hmove : e.move .work = e.withPhase .running
      (some ⟨false, .running (if run.needsFocus then .focusing else .opening) run⟩) := by
    simp [Clockwork.move, Clockwork.workerStep, Clockwork.workerReady, hw, Clockwork.dispatch,
      Clockwork.enter_of_some hw, hrun]
  have punctual := (Run.punctual_dispatch e.executor.target.requireFocus base.engine.attackMs e.now t
    blank).1
  rw [← hrun] at punctual
  have hstep : (if run.needsFocus then Step.focusing else .opening) = .opening ∨
      (if run.needsFocus then Step.focusing else .opening) = .focusing ∧
        e.executor.focus.isActive = true := by
    split
    · rename_i needs
      refine .inr ⟨rfl, h.serene.active ?_⟩
      simp only [hrun, Run.dispatch, Bool.and_eq_true] at needs
      exact needs.1
    · exact .inl rfl
  refine h.silent_work (by simpa using all) hw hmove (silent_of_stage hw (by simp) (by simp))
    (.opening hstep time (time ▸ punctual)) ?_
  simp only [Stage.movesLeft, Group.movesLeft, hrun, Run.pollsLeft_dispatch]
  split <;> simp [Step.movesLeft]

/-- A worker that can go on with its run opens it, closes it for layering, or brings it to its end. -/
theorem OnTime.work_running {t : Ticket} {step : Step} {run : Run}
    (h : OnTime base start done (some t) left j e) (all : done ++ t :: left = ts)
    (proper : t.group.IsProper base.engine.attackMs)
    (hw : e.executor.worker = some ⟨false, .running step run⟩)
    (ready : Clockwork.stepReady e.now run step = true) :
    Runs base start ts (j ++ e.events .work) (e.move .work) ∧
      Proceeds e (e.move .work) := by
  have all : done ++ (some t).toList ++ left = ts := by simpa using all
  have silent : e.events .work = [] := silent_of_stage hw (by simp) (by simp)
  have hmove := Clockwork.move_work hw
  rw [if_pos ready] at hmove
  have station := h.station
  rw [hw] at station
  cases station with
  | opening hstep time punctual =>
      rcases hstep with rfl | ⟨rfl, active⟩
      · rw [Clockwork.stepRun, Clockwork.setStage_of_some hw] at hmove
        exact h.silent_work all hw hmove silent (.joining punctual.releaseAll (Run.isAt_releaseAll _))
          (by simp [Stage.movesLeft, Step.movesLeft])
      · rw [Clockwork.stepRun, Clockwork.seeToFocus, if_pos active, Clockwork.setStage_of_some hw]
          at hmove
        exact h.silent_work all hw hmove silent (.opening (.inl rfl) time punctual)
          (by simp [Stage.movesLeft, Step.movesLeft])
  | @joining _ accepting _ punctual started =>
      have none_queued : run.hasQueued = false := List.any_eq_false.2 fun e he => by simp [started e he]
      have drained : run.isDrained = true := by simpa [Clockwork.stepReady, none_queued] using ready
      cases accepting with
      | true =>
          rw [Clockwork.stepRun, Clockwork.join, if_pos rfl, none_queued, if_neg (by simp),
            Clockwork.setStage_of_some hw] at hmove
          exact h.silent_work all hw hmove silent (.joining punctual started)
            (by simp [Stage.movesLeft, Step.movesLeft])
      | false =>
          rw [Clockwork.stepRun, Clockwork.join, if_neg (by simp), Clockwork.setStage_of_some hw]
            at hmove
          exact h.silent_work all hw hmove silent
            (.closing punctual (Run.isAt_closing_of_isDrained started drained))
            (by simp [Stage.movesLeft, Step.movesLeft])
  | closing punctual ended =>
      obtain ⟨time, report, whole⟩ := punctual.of_ended proper ended
      rw [Clockwork.stepRun, Clockwork.enter_of_some hw, report] at hmove
      exact h.silent_work all hw hmove silent (.reporting time whole)
        (by simp only [Stage.movesLeft, Step.movesLeft]; omega)

/-- A step of the worker keeps groups on time, and drains the queue or leaves less to do. -/
theorem Runs.work (h : Runs base start ts j e) (fit : Ticket.Fit base.engine.attackMs ts)
    (ready : e.workerReady = true) :
    Runs base start ts (j ++ e.events .work) (e.move .work) ∧
      Proceeds e (e.move .work) := by
  obtain ⟨done, current, left, all, h⟩ := h
  have run_ready {step : Step} {run : Run} (hw : e.executor.worker = some ⟨false, .running step run⟩) :
      Clockwork.stepReady e.now run step = true := by
    simpa [Clockwork.workerReady, hw] using ready
  have station := h.station
  generalize hw : e.executor.worker = w at station
  cases station with
  | awake hstage time =>
      rcases hstage with rfl | rfl
      · exact h.work_top (by simpa using all) hw (.inl rfl) time
      · cases left with
        | nil =>
            have onTime := h.miss hw
            exact ⟨⟨done, none, [], all, onTime⟩, .inl (onTime.isDrained_iff.2 ⟨rfl, rfl⟩)⟩
        | cons t left =>
            obtain ⟨onTime, fewer⟩ := h.hand fit (by simpa using all) hw (time.resolve_left (by simp))
            have undrained : ¬ e.IsDrained := by simp [h.isDrained_iff]
            exact ⟨⟨done, some t, left, by simpa using all, onTime⟩, .inr ⟨undrained, fewer⟩⟩
  | away hw' none_left =>
      rcases hw' with rfl | ⟨due, rfl⟩
      · simp [Clockwork.workerReady, hw] at ready
      · have le : due ≤ e.now := by simpa [Clockwork.workerReady, hw] using ready
        exact h.work_top (by simpa using all) hw (.inr ⟨due, rfl, le⟩) (.inl none_left)
  | taken time blank => exact h.work_taken (by simpa using all) hw time blank
  | opening | joining | closing =>
      exact h.work_running (by simpa using all) (fit.proper _ (by simp [← all])) hw (run_ready hw)
  | @reporting t time whole =>
      obtain ⟨onTime, fewer⟩ := h.handIn hw time whole
      have undrained : ¬ e.IsDrained := by simp [h.isDrained_iff]
      exact ⟨⟨done ++ [t], none, left, by simpa using all, onTime⟩, .inr ⟨undrained, fewer⟩⟩

/-- A poll of an action that can go on keeps groups on time and leaves less to do. -/
theorem Runs.poll_of_runnable (h : Runs base start ts j e) (fit : Ticket.Fit base.engine.attackMs ts)
    {b accepting : Bool} {run : Run} {position : Nat} {entry : Entry}
    (hw : e.executor.worker = some ⟨b, .running (.joining accepting) run⟩)
    (hentry : run.entries[position]? = some entry) (ready : entry.runnable e.now = true) :
    Runs base start ts (j ++ e.events (.poll position)) (e.move (.poll position)) ∧
      Proceeds e (e.move (.poll position)) := by
  obtain ⟨done, current, left, all, h⟩ := h
  have station := h.station
  rw [hw] at station
  cases station with
  | awake hstage | opening hstage => simp at hstage
  | away hw' => simp at hw'
  | @joining t _ _ punctual started =>
      rcases hpoll : entry.progress.poll e.executor.device e.executor.engine.attackMs e.now entry.action
        entry.cancelled with ⟨progress, exchange⟩
      obtain ⟨hmove, hevents⟩ := Clockwork.poll_of_runnable hw hentry ready hpoll
      rw [h.serene.engine] at hpoll
      obtain ⟨next, started', fewer⟩ := punctual.poll (fit.proper t (by simp [← all])) h.serene.works
        hentry ready hpoll
      have mine : ∀ c ∈ Exchange.calls e.now run.id position exchange,
          c.group = t.id ∧ c.position = position := by
        rcases exchange with _ | ⟨command, response⟩ <;> simp [Exchange.calls, punctual.id]
      rw [hmove, hevents]
      refine ⟨⟨done, some t, left, all, ?_⟩, .inr ⟨by simp [h.isDrained_iff], ?_⟩⟩
      · exact
          { serene := ⟨h.serene.engine, h.serene.works, h.serene.active⟩
            feed := h.feed
            handed := by rw [handouts_append, handouts_called, List.append_nil, h.handed]
            reported := by rw [reports_append, reports_called, List.append_nil, h.reported]
            own := fun c hc => by
              rcases List.mem_append.1 hc with hc | hc
              · exact h.own c hc
              · obtain ⟨c', hc', heq⟩ := List.mem_map.1 hc
                cases heq
                obtain ⟨group, hposition⟩ := mine c hc'
                refine ⟨t, by simp, group, ?_⟩
                rw [hposition, ← punctual.actions]
                exact Run.lt_actions_length hentry
            whole := fun x hx i a ha => by
              rw [← all, List.append_assoc] at fit
              have foreign : x.2.id ≠ t.id := fit.apart (of_mem_timetable hx).2 (by simp)
              rw [exchangesAt_append, h.whole x hx i a ha, exchangesAt_of_foreign, List.append_nil]
              intro c hc hid
              obtain ⟨c', hc', heq⟩ := List.mem_map.1 hc
              cases heq
              exact foreign (hid.symm.trans (mine c hc').1)
            station := .joining next (Run.IsAt.set started started') }
      · simpa [movesLeft, hw, h.serene.engine, Stage.movesLeft] using fewer

/-- A poll comes to nothing, or it is one of an action that can go on. -/
theorem poll_cases (e : Environment) (position : Nat) :
    (e.move (.poll position) = e ∧ e.events (.poll position) = []) ∨
      ∃ b accepting run entry, e.executor.worker = some ⟨b, .running (.joining accepting) run⟩ ∧
        run.entries[position]? = some entry ∧ entry.runnable e.now = true := by
  have still (h : e.poll position = e) :
      e.move (.poll position) = e ∧ e.events (.poll position) = [] :=
    ⟨h, by simp [Clockwork.events, h, Clockwork.callsSince]⟩
  rcases hw : e.executor.worker with _ | ⟨b, stage⟩
  · exact .inl (still (by simp [Clockwork.poll, hw]))
  · by_cases joins : ∃ accepting run, stage = .running (.joining accepting) run
    · obtain ⟨accepting, run, rfl⟩ := joins
      cases hentry : run.entries[position]? with
      | none => exact .inl (still (by simp [Clockwork.poll, hw, hentry]))
      | some entry =>
          cases ready : entry.runnable e.now with
          | true => exact .inr ⟨b, accepting, run, entry, rfl, hentry, ready⟩
          | false => exact .inl (still (by simp [Clockwork.poll, hw, hentry, ready]))
    · refine .inl (still ?_)
      unfold Clockwork.poll
      split
      · rename_i hw'
        cases hw.symm.trans hw'
        exact absurd ⟨_, _, rfl⟩ joins
      · rfl

/-- A worker that closes a run for layering finds no action of groups on time waiting. -/
theorem Runs.closeLate (h : Runs base start ts j e) :
    Runs base start ts (j ++ e.events .closeLate) (e.move .closeLate) := by
  have hevents : e.events .closeLate = [] := rfl
  rw [hevents, List.append_nil, Clockwork.move, Clockwork.closeLate]
  split
  · rename_i b run hw
    split
    · obtain ⟨done, current, left, all, h⟩ := h
      refine ⟨done, current, left, all, ?_⟩
      have station := h.station
      rw [hw] at station
      rw [Clockwork.setStage_of_some hw]
      cases station with
      | awake hstage | opening hstage => simp at hstage
      | away hw' => simp at hw'
      | joining punctual started =>
          exact h.with_station (.joining punctual.releaseAll (Run.isAt_releaseAll run))
    · exact h
  · exact h

/-- To start the worker again changes nothing for groups on time. -/
theorem Runs.started (h : Runs base start ts j e) :
    Runs base start ts (j ++ e.events .start) (e.move .start) := by
  have hevents : e.events .start = [] := rfl
  rw [hevents, List.append_nil]
  rcases hw : e.executor.worker with _ | w
  · have hmove : e.move .start = e.withWorker (some ⟨false, .checking⟩) := by
      simp [Clockwork.move, Executor.start, hw]
    rw [hmove]
    obtain ⟨done, current, left, all, h⟩ := h
    refine ⟨done, current, left, all, ?_⟩
    have station := h.station
    rw [hw] at station
    cases station with
    | away hw' none_left => exact h.with_station (.awake (.inl rfl) (.inl none_left))
  · have hmove : e.move .start = e := by simp [Clockwork.move, Executor.start, hw]
    rwa [hmove]

/-- Time that passes while nothing is due keeps groups on time. -/
theorem Runs.shift (h : Runs base start ts j e) (fit : Ticket.Fit base.engine.attackMs ts)
    (quiet : e.isQuiet = true) {now : Nat} (le : e.now ≤ now) (due : ∀ due ∈ e.dues, now ≤ due) :
    Runs base start ts j { e with now } := by
  obtain ⟨done, current, left, all, h⟩ := h
  refine ⟨done, current, left, all, ?_⟩
  simp only [Clockwork.isQuiet, Bool.and_eq_true, Bool.not_eq_true'] at quiet
  obtain ⟨rests, waits⟩ := quiet
  have keeps (station : Station base.engine.attackMs (finish base.engine.attackMs start done) now
      e.executor.focus.isActive left j current e.executor.worker) :
      OnTime base start done current left j { e with now } :=
    { h with
      serene := ⟨h.serene.engine, h.serene.works, h.serene.active⟩
      station }
  have station := h.station
  generalize hw : e.executor.worker = w at station
  rw [hw] at keeps
  cases station with
  | awake hstage =>
      exfalso
      rcases hstage with rfl | rfl <;> simp [Clockwork.workerReady, hw] at rests
  | away hw' none_left => exact keeps (.away hw' none_left)
  | taken | reporting => simp [Clockwork.workerReady, hw] at rests
  | opening hstep =>
      exfalso
      rcases hstep with rfl | ⟨rfl, -⟩ <;>
        simp [Clockwork.workerReady, hw, Clockwork.stepReady] at rests
  | @joining t accepting run punctual started =>
      have none_queued : run.hasQueued = false := List.any_eq_false.2 fun e he => by simp [started e he]
      have joined : run.isDrained = false := by
        simpa [Clockwork.workerReady, hw, Clockwork.stepReady, none_queued] using rests
      have waits : run.runnable? e.now = none := by
        simpa [Clockwork.runnable?, hw] using waits
      refine keeps (.joining (punctual.shift (fit.proper t (by simp [← all])) started joined waits le ?_)
        started)
      simpa [Clockwork.dues, hw] using due
  | closing => simp [Clockwork.workerReady, hw, Clockwork.stepReady] at rests

end Moves

end Environment

end Combo
