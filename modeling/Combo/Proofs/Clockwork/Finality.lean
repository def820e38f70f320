-- SUMMARY: An interrupt of everything is final for the group: it sends nothing more, shows nothing more, and is reported as it was cut short.
import Combo.Proofs.Clockwork.Entries
import Combo.Proofs.Clockwork.Layering
import Combo.Proofs.Clockwork.LetGo

/-!
# Interrupts are final

When everything is interrupted, each action of the running group lets go and the
group is wound up without delay, wherever its run stands: while the window is
given time to settle, while actions are waited for, or with layered actions that
are not started yet. Only between the dispatch and the look at the window, where
the worker does not pause, is this different, because activating the window may
still fail. Whatever others call afterwards, nothing of the group can be seen
from outside until the next group is dispatched.
-/

namespace Combo

/-- Whether an executor shows no running group and takes nothing on. -/
structure Executor.ShowsNothing (x : Executor) : Prop where
  keys : x.keys = []
  current : x.current = none
  refuses : ∀ g, x.layer g = (x, false)

/--
Whether a report tells how a run was cut short: what had ended is reported as it ended, and every
other action let go in the course of some events.
-/
structure Report.IsCutShort (report : Report) (run : Run) (es : List Event) : Prop where
  id : report.id = run.id
  actions : report.group.actions = run.actions
  outcomes : report.outcomes.map (·.action) = run.actions
  interrupted : report.interrupted = true
  kept : ∀ (i : Nat) (e : Entry) (ending : Ending), run.entries[i]? = some e →
    e.progress = .ended ending → report.outcomes[i]? = some ⟨e.action, ending⟩
  cut : ∀ (i : Nat) (e : Entry), run.entries[i]? = some e → e.progress.isEnded = false →
    ∃ ending : Ending, report.outcomes[i]? = some ⟨e.action, ending⟩ ∧ ending.IsLetGo run.id i es

/-- A run that was cut short by an interrupt was cut short as it was before the interrupt. -/
theorem Report.IsCutShort.of_interruptAll {report : Report} {run : Run} {es : List Event}
    (h : report.IsCutShort run.interruptAll.1 es) : report.IsCutShort run es where
  id := h.id
  actions := h.actions.trans run.interruptAll_actions
  outcomes := h.outcomes.trans run.interruptAll_actions
  interrupted := h.interrupted
  kept := fun i e ending he => h.kept i e.cancel ending (by simp [Run.interruptAll, he])
  cut := fun i e he => h.cut i e.cancel (by simp [Run.interruptAll, he])

namespace Clockwork

variable {φ : Type} [Feed φ] {s : Clockwork φ} {step : Step} {run : Run}

/-! ## What is shown -/

omit [Feed φ] in
theorem showsNothing_of_not_running (h : s.executor.run? = none) : s.executor.ShowsNothing where
  keys := by simp [Executor.keys, h]
  current := by simp [Executor.current, h]
  refuses := by
    intro g
    rcases Executor.layer_cases g s.executor with ⟨b, run, hw, -⟩ | heq
    · rw [Executor.run?_of_some hw] at h
      cases h
    · exact heq

omit [Feed φ] in
theorem showsNothing_of_cancelled (sound : s.executor.Sound) (running : s.IsRunning step run)
    (cancelled : run.cancelled = true) : s.executor.ShowsNothing where
  keys := by
    obtain ⟨b, hw⟩ := running
    have unlisted : Run.listed run.entries = [] :=
      List.filter_eq_nil_iff.2 fun e he => by simp [(sound _ _ _ hw).2.1 cancelled e he]
    simp [Executor.keys, Executor.run?, hw, Run.keysOf, unlisted]
  current := by simp [Executor.current, running.run?, cancelled]
  refuses := by
    intro g
    obtain ⟨b, hw⟩ := running
    rcases Executor.layer_cases g s.executor with ⟨b', run', hw', alive, -⟩ | heq
    · cases hw.symm.trans hw'
      rw [cancelled] at alive
      cases alive
    · exact heq

/-! ## The run after the interrupt -/

/-- A cancelled run stays cancelled as long as it goes on, and no time passes. -/
theorem now_of_cancelled (sound : s.executor.Sound) (running : s.IsRunning step run)
    (cancelled : run.cancelled = true) (moves : List Move) {id : Nat}
    (own : ∀ e ∈ s.journal moves, e.isOf id = true) {step' : Step} {run' : Run}
    (running' : (s.play moves).IsRunning step' run') :
    run'.cancelled = true ∧ (s.play moves).now = s.now := by
  refine running_induct (Q := fun (s₁ : Clockwork φ) run₁ => run₁.cancelled = true ∧ s₁.now = s.now)
    sound running ⟨cancelled, rfl⟩ own running' ?_
  rintro s₁ m step₁ step₂ run₁ run₂ sound₁ running₁ ⟨cancelled₁, now⟩ - proceeds
  refine ⟨proceeds.change.cancelled cancelled₁, ?_⟩
  rcases (turn_move (s := s₁) m).now_cases with same | ⟨quiet, -⟩
  · exact same.trans now
  · rw [not_quiet_of_cancelled sound₁ running₁ cancelled₁] at quiet
    cases quiet

/-- A cancelled run that comes to its last step was cut short. -/
theorem isCutShort_of_closes (sound : s.executor.Sound) (running : s.IsRunning step run)
    (looked : step ≠ .focusing) (cancelled : run.cancelled = true) {during : List Move} {final : Run}
    (closes : s.Closes step run during final) : final.report.IsCutShort run (s.journal during) := by
  obtain ⟨fault, running', course⟩ := closes.course
  have actions := course.actions_of_cancelled cancelled
  have tells := Run.tellsOf_report closes.ended
  refine ⟨course.id, actions, tells.outcomes.trans actions, ?_, fun i e ending he => course.outcome he,
    fun i e he going => ?_⟩
  · simp [Run.report, course.cancelled cancelled]
  · obtain ⟨b, hw⟩ := running
    have hc := (sound _ _ _ hw).2.1 cancelled e (List.mem_of_getElem? he)
    cases tracks_letsGo sound (.going ⟨b, hw⟩ rfl looked he ⟨rfl, Entry.letsGo_nil run.id i hc going⟩)
      during course.own with
    | @going step' run' e' running'' id looked' he' holds =>
        obtain ⟨rfl, rfl⟩ := running'.unique running''
        obtain ⟨ending, hp, outcome⟩ := tells.ended i e' he'
        exact ⟨ending, by rw [outcome, holds.1], holds.2.ended ending hp⟩
    | done reporting => exact absurd running' reporting.not_isRunning

/--
A cancelled run goes on without delay until the schedule has made its report, or the report was made
at some moment and tells how the run was cut short.
-/
theorem cancelled_play (sound : s.executor.Sound) (running : s.IsRunning step run)
    (looked : step ≠ .focusing) (cancelled : run.cancelled = true) (later : List Move)
    (whole : ∀ e ∈ s.journal later, e.isLoss = false) :
    ((s.play later).now = s.now ∧ (s.play later).isQuiet = false ∧
      (∀ e ∈ s.journal later, e.isOf run.id = true) ∧
      (∃ step' run', (s.play later).IsRunning step' run' ∧ run'.cancelled = true ∧ step' ≠ .focusing) ∧
      ∃ moves report,
        (∀ interject, steps interject moves.length (s.play later) = (s.play later).play moves) ∧
        ((s.play later).play moves).IsReporting report ∧
        report.IsCutShort run (s.journal (later ++ moves))) ∨
    ∃ during rest report, later = during ++ rest ∧ report.IsCutShort run (s.journal during) ∧
      ((s.journal later = s.journal during ∧ (s.play later).IsReporting report) ∨
        ∃ after, s.journal later = s.journal during ++ .reported report :: after) := by
  rcases play_course sound running later whole with
    ⟨step', run', running', course⟩ | ⟨during, rest, final, heq, closes, handed⟩
  · left
    obtain ⟨cancelled', now⟩ := now_of_cancelled sound running cancelled later course.own running'
    have looked' : step' ≠ .focusing := by
      rintro rfl
      exact looked (Step.eq_focusing_of_rank course.forward)
    obtain ⟨moves, report, all, reporting, own⟩ :=
      exists_steps_of_cancelled (Sound.play sound later) running' looked' cancelled'
    have busy := not_quiet_of_cancelled (Sound.play sound later) running' cancelled'
    refine ⟨now, busy, course.own, ⟨step', run', running', cancelled', looked'⟩, moves, report, all, reporting, ?_⟩
    -- the report that the schedule makes is one that a whole play comes to
    have own' : ∀ e ∈ s.journal (later ++ moves), e.isOf run.id = true := by
      intro e he
      rw [journal_append] at he
      rcases List.mem_append.1 he with he | he
      · exact course.own e he
      · exact course.id ▸ own e he
    rw [← play_append] at reporting
    rcases play_course sound running (later ++ moves) fun e he => isLoss_of_isOf (own' e he) with
      ⟨step'', run'', running'', -⟩ |
      ⟨during, rest, final, -, closes, ⟨seen, reporting'⟩ | ⟨after, seen⟩⟩
    · exact absurd running'' reporting.not_isRunning
    · obtain rfl := reporting'.unique reporting
      rw [seen]
      exact isCutShort_of_closes sound running looked cancelled closes
    · cases own' (.reported final.report) (by rw [seen]; simp)
  · exact .inr ⟨during, rest, final.report, heq,
      isCutShort_of_closes sound running looked cancelled closes, handed⟩

/-- After the run of an action that is sent for was cancelled, another group was handed out. -/
theorem exists_since_of_acts (sound : s.executor.Sound) (running : s.IsRunning step run)
    (cancelled : run.cancelled = true) {moves : List Move} {before after : List Event} {c : Call}
    (seen : s.journal moves = before ++ .called c :: after) (acts : c.command.acts = true) :
    ∃ t, t.id = c.group ∧ IsSince before t := by
  obtain ⟨first, m, rest, run₁, e₁, rfl, rfl, sends⟩ := exists_poll_of_acts seen acts
  obtain ⟨accepting, running₁⟩ := sends.running
  have hid : (s.play first).groupId? = some c.group := running₁.groupId?.trans (by rw [sends.group])
  rcases groupId?_play first hid with ⟨-, own⟩ | since
  · -- the run is still the cancelled one, and a poll of its actions sends nothing of the kind
    have cancelled₁ := (now_of_cancelled sound running cancelled first own running₁).1
    obtain ⟨b, hw⟩ := running₁
    have hc := ((Sound.play sound first) _ _ _ hw).2.1 cancelled₁ e₁
      (List.mem_of_getElem? sends.entry)
    obtain ⟨progress, hpoll⟩ := sends.polled
    rw [hc] at hpoll
    rw [Progress.acts_of_poll_cancelled hpoll] at acts
    cases acts
  · exact since

/-- After a run was cancelled, nothing is shown until another group was handed out and dispatched. -/
theorem showsNothing_play (sound : s.executor.Sound) (running : s.IsRunning step run)
    (cancelled : run.cancelled = true) (moves : List Move) :
    (s.play moves).executor.ShowsNothing ∨ ∃ t step' run', IsSince (s.journal moves) t ∧
      (s.play moves).IsRunning step' run' ∧ run'.id = t.id := by
  cases hrun : (s.play moves).executor.run? with
  | none => exact .inl (showsNothing_of_not_running hrun)
  | some run' =>
      obtain ⟨step', running'⟩ := exists_isRunning hrun
      rcases groupId?_play moves running'.groupId? with ⟨-, own⟩ | ⟨t, hid, since⟩
      · have cancelled' := (now_of_cancelled sound running cancelled moves own running').1
        exact .inl (showsNothing_of_cancelled (Sound.play sound moves) running' cancelled')
      · exact .inr ⟨t, step', run', since, running', hid.symm⟩

/--
When everything is interrupted while a run goes on, and the worker is not just about to look at the
window, no command that holds or presses an input or moves the mouse is sent until another group is
handed out, and then for that group only. Unless the worker is lost, no time passes and the schedule
makes the report of the group, or it was made at some moment and is handed in. It tells of the same
actions: those that had ended are reported as they ended, the others as cancelled, or as failed by
the release of what they held; and it is marked as interrupted. Until another group is dispatched no
keys and no group are shown, and nothing is layered; and then only onto that group once it is
joined.
-/
theorem interrupt_final (sound : s.executor.Sound) (running : s.IsRunning step run)
    (looked : step ≠ .focusing) (later : List Move) :
    let s' := s.move (.request .interruptAll)
    (∀ before c after, s'.journal later = before ++ .called c :: after → c.command.acts = true →
      ∃ t, t.id = c.group ∧ IsSince before t) ∧
    ((∀ e ∈ s'.journal later, e.isLoss = false) →
      ((s'.play later).now = s'.now ∧ (s'.play later).isQuiet = false ∧
        (∀ e ∈ s'.journal later, e.isOf run.id = true) ∧
        (∃ step' run', (s'.play later).IsRunning step' run' ∧ run'.cancelled = true ∧ step' ≠ .focusing) ∧
        ∃ moves report,
          (∀ interject, steps interject moves.length (s'.play later) = (s'.play later).play moves) ∧
          ((s'.play later).play moves).IsReporting report ∧
          report.IsCutShort run (s'.journal (later ++ moves))) ∨
      ∃ during rest report, later = during ++ rest ∧ report.IsCutShort run (s'.journal during) ∧
        ((s'.journal later = s'.journal during ∧ (s'.play later).IsReporting report) ∨
          ∃ after, s'.journal later = s'.journal during ++ .reported report :: after)) ∧
    ((s'.play later).executor.ShowsNothing ∨ ∃ t step' run', IsSince (s'.journal later) t ∧
      (s'.play later).IsRunning step' run' ∧ run'.id = t.id ∧
      ∀ g, ((s'.play later).executor.layer g).2 = true → step' = .joining true) := by
  intro s'
  have sound' : s'.executor.Sound := (turn_move (.request .interruptAll)).sound sound
  have running' : s'.IsRunning step run.interruptAll.1 := by
    obtain ⟨b, hw⟩ := running
    simp only [s', move, Executor.serve, Executor.interruptAll_fst, Executor.mapStage_of_some hw]
    exact ⟨b, rfl⟩
  refine ⟨fun before c after seen acts => exists_since_of_acts sound' running' rfl seen acts,
    fun whole => ?_, ?_⟩
  · rcases cancelled_play sound' running' looked rfl later whole with
      ⟨now, busy, own, still, moves, report, all, reporting, cut⟩ | ⟨during, rest, report, heq, cut, handed⟩
    · exact .inl ⟨now, busy, own, still, moves, report, all, reporting, cut.of_interruptAll⟩
    · exact .inr ⟨during, rest, report, heq, cut.of_interruptAll, handed⟩
  · rcases showsNothing_play sound' running' rfl later with nothing | ⟨t, step', run', since, next, hid⟩
    · exact .inl nothing
    · refine .inr ⟨t, step', run', since, next, hid, fun g accepted => ?_⟩
      obtain ⟨b, hw⟩ := next
      rcases Executor.layer_cases g (s'.play later).executor with ⟨b', run'', hw', -⟩ | heq
      · cases hw.symm.trans hw'
        rfl
      · rw [heq] at accepted
        cases accepted

end Clockwork

end Combo
