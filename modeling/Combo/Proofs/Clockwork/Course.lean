-- SUMMARY: The course of a run: what becomes of it from any moment to its report, for every play of moves.
import Mathlib.Data.List.Induction
import Combo.Proofs.Clockwork.Rounds
import Combo.Proofs.Clockwork.Sound
import Combo.Proofs.Executor.Change

/-!
# The course of a run

A worker that is at a run goes on with it until it makes the report of it, and
nothing but the loss of the worker comes in between. `Run.Course` says what has
become of the run while some events were seen: it has the entries it had, in
their places, and those of the layered groups after them; the worker has not gone
back to an earlier step; and no command was sent for an action that had ended.

`play_course` follows a run through every play from any state the worker is at
it: either the worker is still at it, or at some moment all of its actions had
ended, and the report of that moment is the one the worker hands in.
-/

namespace Combo

/-- How far a step is on the way of the worker through a run. -/
def Step.rank : Step → Nat
  | .focusing => 0
  | .settling _ => 1
  | .opening => 2
  | .joining true => 3
  | .joining false => 4
  | .closing _ => 5

namespace Run

/-- What has become of a run, and of the worker's step in it, while some events were seen. -/
structure Course (step : Step) (r : Run) (es : List Event) (step' : Step) (r' : Run) : Prop where
  forward : step.rank ≤ step'.rank
  id : r'.id = r.id
  needsFocus : r'.needsFocus = r.needsFocus
  cancelled : r.cancelled = true → r'.cancelled = true
  actions : r'.actions = r.actions ++ es.flatMap Event.layeredActions
  kept : ∀ (i : Nat) (e : Entry), r.entries[i]? = some e →
    ∃ e', r'.entries[i]? = some e' ∧ e.Evolves e'
  own : ∀ e ∈ es, e.isOf r.id = true
  /-- Nothing is layered onto a cancelled run. -/
  closed : r.cancelled = true → ∀ g, Event.layered g ∉ es
  /-- Commands are sent for actions of the run that have not ended. -/
  called : ∀ c, Event.called c ∈ es → c.position < r'.entries.length ∧
    ∀ e, r.entries[c.position]? = some e → e.progress.isEnded = false

variable {step step' step'' : Step} {r r' r'' : Run} {es es' : List Event}

theorem course_refl (step : Step) (r : Run) : Course step r [] step r where
  forward := Nat.le_refl _
  id := rfl
  needsFocus := rfl
  cancelled := fun hc => hc
  actions := by simp
  kept := fun i e he => ⟨e, he, .refl e⟩
  own := by simp
  closed := by simp
  called := by simp

theorem Course.length_le (h : Course step r es step' r') : r.entries.length ≤ r'.entries.length := by
  have := congrArg List.length h.actions
  simp only [Run.actions, List.length_map, List.length_append] at this
  omega

theorem Course.trans (h : Course step r es step' r') (h' : Course step' r' es' step'' r'') :
    Course step r (es ++ es') step'' r'' where
  forward := Nat.le_trans h.forward h'.forward
  id := h'.id.trans h.id
  needsFocus := h'.needsFocus.trans h.needsFocus
  cancelled := fun hc => h'.cancelled (h.cancelled hc)
  actions := by rw [h'.actions, h.actions, List.flatMap_append, List.append_assoc]
  kept := by
    intro i e he
    obtain ⟨e', he', evolves⟩ := h.kept i e he
    obtain ⟨e'', he'', evolves'⟩ := h'.kept i e' he'
    exact ⟨e'', he'', evolves.trans evolves'⟩
  own := by
    intro e he
    rcases List.mem_append.1 he with he | he
    · exact h.own e he
    · exact h.id ▸ h'.own e he
  closed := by
    intro hc g hg
    rcases List.mem_append.1 hg with hg | hg
    · exact h.closed hc g hg
    · exact h'.closed (h.cancelled hc) g hg
  called := by
    intro c hmem
    rcases List.mem_append.1 hmem with hmem | hmem
    · exact ⟨Nat.lt_of_lt_of_le (h.called c hmem).1 h'.length_le, (h.called c hmem).2⟩
    · refine ⟨(h'.called c hmem).1, fun e he => ?_⟩
      obtain ⟨e', he', evolves⟩ := h.kept _ e he
      have going := (h'.called c hmem).2 e' he'
      cases ended : e.progress.isEnded with
      | false => rfl
      | true =>
          rw [evolves.ended ended, ended] at going
          cases going

/-- A cancelled run keeps the actions it has. -/
theorem Course.actions_of_cancelled (h : Course step r es step' r') (hc : r.cancelled = true) :
    r'.actions = r.actions := by
  have none_layered : es.flatMap Event.layeredActions = [] := by
    refine List.flatMap_eq_nil_iff.2 fun e he => ?_
    cases e with
    | layered g => exact absurd he (h.closed hc g)
    | asked | called | reported | left | aborted => rfl
  rw [h.actions, none_layered, List.append_nil]

/-- An action that has ended is reported as it ended. -/
theorem Course.outcome (h : Course step r es step' r') {i : Nat} {e : Entry}
    (he : r.entries[i]? = some e) {ending : Ending} (ended : e.progress = .ended ending) :
    r'.report.outcomes[i]? = some ⟨e.action, ending⟩ := by
  obtain ⟨e', he', evolves⟩ := h.kept i e he
  have hp : e'.progress = .ended ending := by
    rw [evolves.ended (by rw [ended]; rfl), ended]
  simp [report, he', Entry.outcome, Entry.ending, evolves.action, hp]

end Run

namespace Clockwork

variable {φ : Type} [Feed φ] {s s' : Clockwork φ} {es : List Event} {step step' : Step}
  {run run' : Run}

/-- Whether the worker of a system is at this step of this run. -/
def IsRunning (s : Clockwork φ) (step : Step) (run : Run) : Prop :=
  ∃ b, s.executor.worker = some ⟨b, .running step run⟩

/-- Whether the worker of a system is about to hand in this report. -/
def IsReporting (s : Clockwork φ) (report : Report) : Prop :=
  ∃ b faulty, s.executor.worker = some ⟨b, .reporting report faulty⟩

omit [Feed φ] in
theorem IsRunning.unique (h : s.IsRunning step run) (h' : s.IsRunning step' run') :
    step' = step ∧ run' = run := by
  obtain ⟨b, hw⟩ := h
  obtain ⟨b', hw'⟩ := h'
  cases hw.symm.trans hw'
  exact ⟨rfl, rfl⟩

omit [Feed φ] in
theorem IsReporting.unique {report report' : Report} (h : s.IsReporting report)
    (h' : s.IsReporting report') : report' = report := by
  obtain ⟨b, faulty, hw⟩ := h
  obtain ⟨b', faulty', hw'⟩ := h'
  cases hw.symm.trans hw'
  rfl

omit [Feed φ] in
theorem IsReporting.not_isRunning {report : Report} (h : s.IsReporting report) :
    ¬ s.IsRunning step run := by
  rintro ⟨b, hw⟩
  obtain ⟨b', faulty, hw'⟩ := h
  cases hw.symm.trans hw'

/-- A worker that holds a group dispatches it with its next step. -/
theorem isRunning_of_taken {b : Bool} {t : Ticket} {d : Deferred}
    (hw : s.executor.worker = some ⟨b, .taken t d⟩) :
    (s.move .work).IsRunning
      (if (Run.dispatch s.executor.target.requireFocus d t).needsFocus then .focusing else .opening)
      (Run.dispatch s.executor.target.requireFocus d t) := by
  refine ⟨b, ?_⟩
  simp [move, workerStep, workerReady, hw, dispatch, enter, Executor.setStage]

/-! ## One turn -/

/-- How a worker gets on with a run in one turn, and what is seen of it. -/
structure Proceeds (s : Clockwork φ) (step : Step) (run : Run) (es : List Event) (step' : Step)
    (run' : Run) : Prop where
  forward : step.rank ≤ step'.rank
  change : Run.Change s.executor.device s.executor.engine.attackMs s.now
    (es.flatMap Event.layeredActions) run run'
  own : ∀ e ∈ es, e.isOf run.id = true
  closed : run.cancelled = true → ∀ g, Event.layered g ∉ es
  called : ∀ c, Event.called c ∈ es →
    ∃ e, run.entries[c.position]? = some e ∧ e.runnable s.now = true

omit [Feed φ] in
theorem Proceeds.course (h : s.Proceeds step run es step' run') :
    Run.Course step run es step' run' where
  forward := h.forward
  id := h.change.id
  needsFocus := h.change.needsFocus
  cancelled := h.change.cancelled
  actions := h.change.actions
  kept := by
    intro i e he
    obtain ⟨e', he', change⟩ := h.change.kept i e he
    exact ⟨e', he', change.evolves⟩
  own := h.own
  closed := h.closed
  called := by
    intro c hc
    obtain ⟨e, he, ready⟩ := h.called c hc
    obtain ⟨e', he', -⟩ := h.change.kept _ e he
    refine ⟨(List.getElem?_eq_some_iff.1 he').1, fun e'' he'' => ?_⟩
    cases he.symm.trans he''
    exact Entry.isEnded_of_runnable ready

omit [Feed φ] in
/-- A turn in which nothing is seen. -/
theorem proceeds_silent (forward : step.rank ≤ step'.rank)
    (change : Run.Change s.executor.device s.executor.engine.attackMs s.now [] run run') :
    s.Proceeds step run [] step' run' :=
  ⟨forward, change, by simp, by simp, by simp⟩

/-- What a turn without a call from outside does at a run: it goes on, or makes the report. -/
theorem Stride.proceeds (stride : Stride s es s') (running : s.IsRunning step run) :
    (∃ step' run', s'.IsRunning step' run' ∧ s.Proceeds step run es step' run') ∨
    (es = [] ∧ s'.IsReporting run.report ∧ ∃ fault, step = .closing fault) := by
  obtain ⟨b, hw⟩ := running
  cases stride with
  | rest | tick | refocus | rewire =>
      exact .inl ⟨step, run, ⟨b, hw⟩, proceeds_silent (Nat.le_refl _) (Run.change_refl run)⟩
  | start hw' | hand hw' | miss hw' | crash hw' | dispatch hw' | handIn hw' =>
      cases hw.symm.trans hw'
  | leave hw' top =>
      cases hw.symm.trans hw'
      rcases top with top | ⟨due, top⟩ <;> cases top
  | begin hw' top =>
      cases hw.symm.trans hw'
      rcases top with top | ⟨due, top, -⟩ <;> cases top
  | focused hw' | activated hw' | settled hw' | closeEmpty hw' | joined hw' =>
      cases hw.symm.trans hw'
      exact .inl ⟨_, _, ⟨b, rfl⟩, proceeds_silent (by simp [Step.rank]) (Run.change_refl run)⟩
  | unfocused hw' =>
      cases hw.symm.trans hw'
      exact .inl ⟨_, _, ⟨b, rfl⟩, proceeds_silent (by simp [Step.rank]) (Run.change_failAll _ run)⟩
  | opened hw' | closeLate hw' =>
      cases hw.symm.trans hw'
      exact .inl ⟨_, _, ⟨b, rfl⟩, proceeds_silent (by simp [Step.rank]) (Run.change_releaseAll run)⟩
  | receive hw' =>
      cases hw.symm.trans hw'
      exact .inl ⟨_, _, ⟨b, rfl⟩, proceeds_silent (Nat.le_refl _) (Run.change_receive run)⟩
  | finish hw' =>
      cases hw.symm.trans hw'
      exact .inr ⟨rfl, ⟨b, _, rfl⟩, _, rfl⟩
  | @poll b' accepting run' position entry progress exchange hw' hentry ready hpoll =>
      cases hw.symm.trans hw'
      have change := Run.change_set run hentry (.poll ready hpoll)
      have sent : ∀ c, .called c ∈ (Exchange.calls s.now run.id position exchange).map Event.called →
          c.group = run.id ∧ c.position = position := by
        intro c hc
        rcases exchange with _ | ⟨command, response⟩ <;> simp [Exchange.calls] at hc
        rw [hc]
        exact ⟨rfl, rfl⟩
      refine .inl ⟨_, _, ⟨b, rfl⟩, Nat.le_refl _, ?_, ?_, ?_, ?_⟩
      · rcases exchange with _ | ⟨command, response⟩ <;> exact change
      · intro e he
        obtain ⟨c, -, rfl⟩ := List.mem_map.1 he
        exact beq_iff_eq.2 (sent c he).1
      · intro _ g hg
        obtain ⟨c, -, hc⟩ := List.mem_map.1 hg
        cases hc
      · intro c hc
        rw [(sent c hc).2]
        exact ⟨entry, hentry, ready⟩

/-- What a turn does at a run: it goes on, makes the report, or takes the worker away. -/
theorem Turn.proceeds (turn : Turn s es s') (running : s.IsRunning step run) :
    (∃ step' run', s'.IsRunning step' run' ∧ s.Proceeds step run es step' run') ∨
    (es = [] ∧ s'.IsReporting run.report ∧ ∃ fault, step = .closing fault) ∨
    (.aborted ∈ es ∧ s'.executor.worker = none) := by
  cases turn with
  | stride stride => exact (stride.proceeds running).imp_right .inl
  | bury hw' =>
      obtain ⟨b, hw⟩ := running
      cases hw.symm.trans hw'
  | interruptAll hw' =>
      obtain ⟨b, hw⟩ := running
      cases hw.symm.trans hw'
      exact .inl ⟨_, _, ⟨_, rfl⟩, proceeds_silent (Nat.le_refl _) (Run.change_interruptAll run)⟩
  | interruptConflicting group hw' =>
      obtain ⟨b, hw⟩ := running
      cases hw.symm.trans hw'
      exact .inl ⟨_, _, ⟨_, rfl⟩,
        proceeds_silent (Nat.le_refl _) (Run.change_interruptConflicting _ run)⟩
  | layer group hw' alive =>
      obtain ⟨b, hw⟩ := running
      cases hw.symm.trans hw'
      refine .inl ⟨_, _, ⟨_, rfl⟩, Nat.le_refl _, ?_, ?_, ?_, by simp⟩
      · simpa [Event.layeredActions] using Run.change_layer group.actions run
      · simp [Event.isOf]
      · intro hc
        rw [alive] at hc
        cases hc
  | abort | vanish => exact .inr (.inr ⟨by simp, rfl⟩)

/-- A move during which a run goes on is one with which the worker proceeds. -/
theorem proceeds_of_move {m : Move} (running : s.IsRunning step run)
    (running' : (s.move m).IsRunning step' run') : s.Proceeds step run (s.events m) step' run' := by
  rcases (turn_move m).proceeds running with ⟨step₁, run₁, running₁, proceeds⟩ | ⟨-, reporting, -⟩ | ⟨-, gone⟩
  · obtain ⟨rfl, rfl⟩ := running₁.unique running'
    exact proceeds
  · exact absurd running' reporting.not_isRunning
  · obtain ⟨b, hw⟩ := running'
    cases hw.symm.trans gone

/-- What a turn does when a report is about to be handed in: it waits, or it is handed in. -/
theorem Turn.reports {report : Report} (turn : Turn s es s')
    (whole : ∀ e ∈ es, e.isLoss = false) (reporting : s.IsReporting report) :
    (es = [] ∧ s'.IsReporting report) ∨ es = [.reported report] := by
  obtain ⟨b, faulty, hw⟩ := reporting
  cases turn with
  | stride stride =>
      cases stride with
      | rest | tick | refocus | rewire => exact .inl ⟨rfl, b, faulty, hw⟩
      | handIn hw' =>
          cases hw.symm.trans hw'
          exact .inr rfl
      | leave hw' top =>
          cases hw.symm.trans hw'
          rcases top with top | ⟨due, top⟩ <;> cases top
      | begin hw' top =>
          cases hw.symm.trans hw'
          rcases top with top | ⟨due, top, -⟩ <;> cases top
      | _ hw' => cases hw.symm.trans hw'
  | bury hw' | layer group hw' => cases hw.symm.trans hw'
  | interruptAll hw' | interruptConflicting group hw' =>
      cases hw.symm.trans hw'
      exact .inl ⟨rfl, _, faulty, rfl⟩
  | abort | vanish =>
      have := whole .aborted (by simp)
      cases this

/-! ## Whole plays -/

/-- A play from a sound system leaves it sound. -/
theorem Sound.play (h : s.executor.Sound) (moves : List Move) : (s.play moves).executor.Sound :=
  play_induct (P := fun _ s => s.executor.Sound) h (fun h turn => turn.sound h) moves

/-- How a run that a worker was at came to its report in the course of some moves. -/
structure Closes (s : Clockwork φ) (step : Step) (run : Run) (during : List Move) (final : Run) :
    Prop where
  course : ∃ fault, (s.play during).IsRunning (.closing fault) final ∧
    Run.Course step run (s.journal during) (.closing fault) final
  ended : ∀ e ∈ final.entries, e.progress.isEnded = true

/--
From any moment on a run that a worker is at is followed to its report: the worker is still at it,
or after some of the moves all of its actions had ended, and the report made then is handed in.
-/
theorem play_course (sound : s.executor.Sound) (running : s.IsRunning step run) (moves : List Move)
    (whole : ∀ e ∈ s.journal moves, e.isLoss = false) :
    (∃ step' run', (s.play moves).IsRunning step' run' ∧
      Run.Course step run (s.journal moves) step' run') ∨
    ∃ during rest final, moves = during ++ rest ∧ s.Closes step run during final ∧
      ((s.journal moves = s.journal during ∧ (s.play moves).IsReporting final.report) ∨
        ∃ after, s.journal moves = s.journal during ++ .reported final.report :: after) := by
  induction moves using List.reverseRecOn with
  | nil => exact .inl ⟨step, run, running, Run.course_refl step run⟩
  | append_singleton moves m ih =>
      have hplay : s.play (moves ++ [m]) = (s.play moves).move m := by
        rw [play_append, play_cons, play_nil]
      have hjournal : s.journal (moves ++ [m]) = s.journal moves ++ (s.play moves).events m := by
        rw [journal_append, journal_cons, journal_nil, List.append_nil]
      rw [hjournal] at whole
      have turn := turn_move (s := s.play moves) m
      have whole' := fun e he => whole e (List.mem_append_right _ he)
      rw [hplay, hjournal]
      rcases ih fun e he => whole e (List.mem_append_left _ he) with
        ⟨step', run', running', course⟩ |
        ⟨during, rest, final, rfl, closes, ⟨seen, reporting⟩ | ⟨after, seen⟩⟩
      · rcases turn.proceeds running' with
          ⟨step'', run'', running'', proceeds⟩ | ⟨hes, reporting, fault, rfl⟩ | ⟨aborted, -⟩
        · exact .inl ⟨step'', run'', running'', course.trans proceeds.course⟩
        · obtain ⟨b, hw⟩ := running'
          have ended := (Sound.play sound moves b _ run' hw).1
          refine .inr ⟨moves, [m], run', rfl, ⟨⟨fault, ⟨b, hw⟩, course⟩, ended⟩, .inl ⟨?_, reporting⟩⟩
          rw [hes, List.append_nil]
        · cases whole' .aborted aborted
      · refine .inr ⟨during, rest ++ [m], final, by simp, closes, ?_⟩
        rcases turn.reports whole' reporting with ⟨hes, reporting'⟩ | hes
        · exact .inl ⟨by rw [hes, List.append_nil, seen], reporting'⟩
        · exact .inr ⟨[], by rw [hes, seen]⟩
      · refine .inr ⟨during, rest ++ [m], final, by simp, closes, ?_⟩
        exact .inr ⟨after ++ (s.play (during ++ rest)).events m, by rw [seen]; simp⟩

end Clockwork

end Combo
