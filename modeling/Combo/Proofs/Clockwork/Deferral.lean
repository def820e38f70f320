-- SUMMARY: Interrupts that arrive while a group is being dequeued hit exactly that group.
import Combo.Proofs.Clockwork.Course
import Combo.Proofs.Clockwork.Window
import Combo.Proofs.Executor.Dispatch

/-!
# Deferred interrupts

The interrupts of a dequeuing window are noted for the group the worker is going
to get. Dispatch leaves of the group what the group of the spared actions would
be, next to entries that have ended as cancelled; the course of the run carries
these to the report as they are, and no command is sent for them. Where the feed
has no group, the note is dropped, and the system is what it would be without the
interrupts.
-/

namespace Combo

/-- What a note of interrupts leaves of a group when the group is dispatched. -/
structure Deferred.Leaves (d : Deferred) (requireFocus : Bool) (t : Ticket) (step : Step)
    (run : Run) : Prop where
  id : run.id = t.id
  actions : run.actions = t.group.actions
  cancelled : run.cancelled = d.all
  hit : ∀ e ∈ run.entries, d.hits e.action = true → e.cancelled = true ∧ e.progress = .ended .cancelled
  spared : run.entries.filter (fun e => !d.hits e.action) =
    (Run.dispatch requireFocus {} ⟨t.id, d.spared t.group⟩).entries
  needsFocus : run.needsFocus = (Run.dispatch requireFocus {} ⟨t.id, d.spared t.group⟩).needsFocus
  step : step = if run.needsFocus then .focusing else .opening

/-- Whether no command was sent for what a note of interrupts hits in a group. -/
structure Deferred.Silences (d : Deferred) (t : Ticket) (seen : List Event) : Prop where
  hit : ∀ c a, .called c ∈ seen → t.group.actions[c.position]? = some a → d.hits a = false
  all : d.all = true → ∀ c, .called c ∉ seen

/-- Whether a report gives as cancelled what a note of interrupts hits in a group. -/
structure Deferred.Cancels (d : Deferred) (t : Ticket) (report : Report) : Prop where
  id : report.id = t.id
  hit : ∀ (i : Nat) (a : Action), t.group.actions[i]? = some a → d.hits a = true →
    report.outcomes[i]? = some ⟨a, .cancelled⟩
  interrupted : (∃ a ∈ t.group.actions, d.hits a = true) ∨ d.all = true → report.interrupted = true
  all : d.all = true → report.outcomes = t.group.actions.map (⟨·, .cancelled⟩)

namespace Deferred.Leaves

variable {d : Deferred} {requireFocus : Bool} {t : Ticket} {step step' : Step} {run run' : Run}
  {seen : List Event}

theorem of_dispatch (d : Deferred) (requireFocus : Bool) (t : Ticket) :
    d.Leaves requireFocus t
      (if (Run.dispatch requireFocus d t).needsFocus then .focusing else .opening)
      (Run.dispatch requireFocus d t) where
  id := rfl
  actions := (Run.dispatch_spec requireFocus d t).1
  cancelled := rfl
  hit := fun _ he hit => Run.dispatch_hit requireFocus d t he hit
  spared := Run.dispatch_spared requireFocus d t
  needsFocus := Run.dispatch_needsFocus requireFocus d t
  step := rfl

/-- An action that was hit has an entry that has ended as cancelled. -/
theorem entry (h : d.Leaves requireFocus t step run) {i : Nat} {a : Action}
    (ha : t.group.actions[i]? = some a) (hit : d.hits a = true) :
    ∃ e, run.entries[i]? = some e ∧ e.action = a ∧ e.progress = .ended .cancelled := by
  rw [← h.actions, Run.actions, List.getElem?_map] at ha
  obtain ⟨e, he, rfl⟩ := Option.map_eq_some_iff.1 ha
  exact ⟨e, he, rfl, (h.hit e (List.mem_of_getElem? he) hit).2⟩

/-- When everything was interrupted the run has no other actions than those of the group. -/
theorem actions_of_all (h : d.Leaves requireFocus t step run)
    (course : Run.Course step run seen step' run') (all : d.all = true) :
    run'.actions = t.group.actions :=
  (course.actions_of_cancelled (h.cancelled.trans all)).trans h.actions

theorem needsFocus_of_all (h : d.Leaves requireFocus t step run) (all : d.all = true) :
    run.needsFocus = false := by
  rw [h.needsFocus, ← Run.dispatch_needsFocus]
  exact Run.dispatch_all requireFocus t all

theorem silences (h : d.Leaves requireFocus t step run)
    (course : Run.Course step run seen step' run') : d.Silences t seen := by
  have spared : ∀ c a, .called c ∈ seen → t.group.actions[c.position]? = some a →
      d.hits a = false := by
    intro c a hc ha
    cases hit : d.hits a with
    | false => rfl
    | true =>
        obtain ⟨e, he, -, ended⟩ := h.entry ha hit
        have going := (course.called c hc).2 e he
        rw [ended] at going
        cases going
  refine ⟨spared, fun all c hc => ?_⟩
  have hlt : c.position < t.group.actions.length := by
    rw [← h.actions_of_all course all, Run.actions, List.length_map]
    exact (course.called c hc).1
  have := spared c _ hc (List.getElem?_eq_getElem hlt)
  simp [Deferred.hits, all] at this

theorem cancels (h : d.Leaves requireFocus t step run)
    (course : Run.Course step run seen step' run') : d.Cancels t run'.report := by
  have hit : ∀ (i : Nat) (a : Action), t.group.actions[i]? = some a → d.hits a = true →
      run'.report.outcomes[i]? = some ⟨a, .cancelled⟩ := by
    intro i a ha hit
    obtain ⟨e, he, rfl, ended⟩ := h.entry ha hit
    exact course.outcome he ended
  refine ⟨course.id.trans h.id, hit, ?_, fun all => ?_⟩
  · rintro (⟨a, ha, hhit⟩ | all)
    · obtain ⟨i, hi⟩ := List.mem_iff_getElem?.1 ha
      have houtcome := List.mem_of_getElem? (hit i a hi hhit)
      simp only [Run.report, Bool.or_eq_true, List.any_eq_true]
      exact .inr ⟨_, houtcome, rfl⟩
    · simp only [Run.report, Bool.or_eq_true]
      exact .inl (course.cancelled (h.cancelled.trans all))
  · have hlength : run'.report.outcomes.length = t.group.actions.length := by
      rw [← h.actions_of_all course all]
      simp [Run.report, Run.actions]
    apply List.ext_getElem?
    intro i
    rw [List.getElem?_map]
    cases ha : t.group.actions[i]? with
    | none =>
        refine List.getElem?_eq_none ?_
        rw [hlength]
        exact List.getElem?_eq_none_iff.1 ha
    | some a => exact hit i a ha (by simp [Deferred.hits, all])

end Deferred.Leaves

namespace Clockwork

variable {φ : Type} [Feed φ] {s : Clockwork φ}

/-- Where the feed has no group, the note of interrupts is dropped. -/
theorem work_miss {b : Bool} {d d' : Deferred} (hw : s.executor.worker = some ⟨b, .asking d'⟩)
    (empty : (Feed.next s.now s.feed).1 = .empty) : (s.defer d).move .work = s.move .work := by
  have gone : (s.move .work).deferred? = none := by
    rcases next : Feed.next s.now s.feed with ⟨handout, feed⟩
    rw [next] at empty
    cases empty
    simp [move, workerStep, workerReady, hw, ask, next, enter, Executor.setStage, deferred?,
      Stage.deferred?]
  rw [(work_defer hw d).1, defer_of_none gone]

/-- A dequeued group is dispatched under the interrupts that were noted. -/
theorem work_dispatch {b : Bool} {t : Ticket} {d : Deferred}
    (hw : s.executor.worker = some ⟨b, .taken t d⟩) :
    ∃ step run, (s.move .work).IsRunning step run ∧
      d.Leaves s.executor.target.requireFocus t step run :=
  ⟨_, _, isRunning_of_taken hw, .of_dispatch d s.executor.target.requireFocus t⟩

/-- From dispatch to its report, a group is rid of what a note of interrupts hits in it. -/
theorem leaves_course {d : Deferred} {requireFocus : Bool} {t : Ticket} {step : Step} {run : Run}
    (sound : s.executor.Sound) (running : s.IsRunning step run)
    (leaves : d.Leaves requireFocus t step run) (later : List Move)
    (whole : ∀ e ∈ s.journal later, e.isLoss = false) :
    (∃ step' run', (s.play later).IsRunning step' run' ∧ d.Silences t (s.journal later) ∧
      (d.all = true → step' ≠ .focusing)) ∨
    ∃ during rest report, later = during ++ rest ∧ d.Silences t (s.journal during) ∧
      d.Cancels t report ∧
      ((s.journal later = s.journal during ∧ (s.play later).IsReporting report) ∨
        ∃ after, s.journal later = s.journal during ++ .reported report :: after) := by
  rcases play_course sound running later whole with
    ⟨step', run', running', course⟩ | ⟨during, rest, final, hlater, closes, handed⟩
  · refine .inl ⟨step', run', running', leaves.silences course, fun all => ?_⟩
    rintro rfl
    have forward := course.forward
    rw [leaves.step, leaves.needsFocus_of_all all] at forward
    simp [Step.rank] at forward
  · obtain ⟨fault, -, course⟩ := closes.course
    exact .inr ⟨during, rest, final.report, hlater, leaves.silences course, leaves.cancels course,
      handed⟩

/-- A walk of some seconds. -/
def walk : Action := ⟨.moveForward, some "5", 5.0⟩

/-- The walk, with a jump at the same time. -/
def walkAndJump : Group := ⟨[walk, ⟨.jump, none, 0.05⟩], 5.0⟩

/-- A supply with the walk and jump to hand out. -/
def oneWalk : Supply where
  pending := [⟨3, walkAndJump⟩]

/-- Before the group is handed out, what conflicts with a walk is interrupted. -/
def untilTaken : List Move :=
  [.start, .work, .request (.interruptConflicting ⟨[⟨.moveBack, none, 1.0⟩], 1.0⟩), .work]

/-- What is left of the group is run to its report. -/
def untilReported : List Move := [.work, .work, .poll 1, .work, .work, .work, .work]

end Clockwork

end Combo
