-- SUMMARY: A group whose window cannot be activated is reported as failed without a command, and the worker goes on after its rest.
import Combo.Proofs.Clockwork.Sight

/-!
# After a look that failed

From the moment a group is handed out until the worker looks at its window,
nothing is seen. When the window cannot be activated, every action that was not
cancelled at dispatch fails. `BacksOff` lists where the worker may be from then
on, with what was seen so far: about to report the group, resting, about to ask
for the next group at the instant at which the rest is over, or beyond that. It
leaves this path only when it is told to stop, or taken away.
-/

namespace Combo

/--
Whether a report tells that the window of a run could not be activated: what was cancelled at dispatch
is reported as that, and every other action as failed.
-/
structure Report.IsUnfocused (report : Report) (run : Run) (message : String) : Prop where
  id : report.id = run.id
  actions : report.group.actions = run.actions
  outcomes : report.outcomes.map (·.action) = run.actions
  failed : ∀ (i : Nat) (e : Entry), run.entries[i]? = some e → e.progress ≠ .ended .cancelled →
    report.outcomes[i]? = some ⟨e.action, .failed message⟩
  cancelled : ∀ (i : Nat) (e : Entry), run.entries[i]? = some e → e.progress = .ended .cancelled →
    report.outcomes[i]? = some ⟨e.action, .cancelled⟩

/-- Whether the actions of a run wait, but for those that were cancelled at dispatch. -/
def Run.IsUnbegun (r : Run) : Prop :=
  ∀ e ∈ r.entries, e.progress = .queued ∨ e.progress = .ended .cancelled

namespace Run

theorem isUnbegun_dispatch (requireFocus : Bool) (d : Deferred) (t : Ticket) :
    (dispatch requireFocus d t).IsUnbegun := by
  intro e he
  have dispatched := (dispatch_spec requireFocus d t).2 e he
  unfold Entry.IsDispatched at dispatched
  split at dispatched
  · exact .inr dispatched.2
  · exact .inl dispatched.2

/-- Runs whose actions are equally far are both unbegun or neither is. -/
theorem IsUnbegun.of_map {r r' : Run} (h : r.IsUnbegun)
    (same : r'.entries.map (·.progress) = r.entries.map (·.progress)) : r'.IsUnbegun := by
  intro e' he'
  have hmem : e'.progress ∈ r.entries.map (·.progress) := same ▸ List.mem_map_of_mem he'
  obtain ⟨e, he, heq⟩ := List.mem_map.1 hmem
  rw [← heq]
  exact h e he

/-- A run that is failed before it begins is reported as unfocused. -/
theorem IsUnbegun.report {r : Run} (h : r.IsUnbegun) (message : String) :
    (r.failAll message).report.IsUnfocused r message where
  id := rfl
  actions := r.failAll_actions message
  outcomes := by
    rw [← r.failAll_actions message]
    simp [Run.report, actions, Entry.outcome]
  failed := fun i e he going => by
    have queued := (h e (List.mem_of_getElem? he)).resolve_right going
    simp [Run.report, failAll, he, Entry.outcome, Entry.fail, Entry.ending, queued, Progress.isEnded]
  cancelled := fun i e he ended => by
    simp [Run.report, failAll, he, Entry.outcome, Entry.fail, Entry.ending, ended, Progress.isEnded]

end Run

/-- What a report tells of a failed window does not depend on whether the group was interrupted then. -/
theorem Report.IsUnfocused.of_outcomes {report report' : Report} {run : Run} {message : String}
    (h : report.IsUnfocused run message) (id : report'.id = report.id)
    (actions : report'.group.actions = report.group.actions)
    (outcomes : report'.outcomes = report.outcomes) : report'.IsUnfocused run message where
  id := id.trans h.id
  actions := actions.trans h.actions
  outcomes := outcomes ▸ h.outcomes
  failed := outcomes ▸ h.failed
  cancelled := outcomes ▸ h.cancelled

theorem Run.interruptAll_outcomes (r : Run) : r.interruptAll.1.report.outcomes = r.report.outcomes := by
  simp [report, interruptAll, Function.comp_def, Entry.outcome, Entry.ending, Entry.cancel]

theorem Run.interruptConflicting_outcomes (kinds : List Kind) (r : Run) :
    (r.interruptConflicting kinds).1.report.outcomes = r.report.outcomes := by
  simp only [report, interruptConflicting, List.map_map]
  refine List.map_congr_left fun e _ => ?_
  by_cases hit : Entry.hitBy kinds e = true <;> simp [hit, Entry.outcome, Entry.ending, Entry.cancel]

namespace Clockwork

variable {φ : Type} [Feed φ] {s s' : Clockwork φ} {es j : List Event} {m : Move} {moves : List Move}
  {b b' : Bool} {stage stage' : Stage} {run run' : Run}

/-! ## Before the look -/

/-- Where a worker that is to dispatch a group comes from. -/
theorem Turn.to_taken {t : Ticket} {d' : Deferred} (turn : Turn s es s')
    (hw' : s'.executor.worker = some ⟨b', .taken t d'⟩) :
    es = [.asked s.now (.group t)] ∨
      es = [] ∧ ∃ b d, s.executor.worker = some ⟨b, .taken t d⟩ := by
  cases turn with
  | stride stride =>
      cases stride with
      | rest | tick | refocus | rewire => exact .inr ⟨rfl, _, _, hw'⟩
      | hand hw next =>
          cases hw'
          exact .inl rfl
      | handIn hw hstage =>
          cases hw'
          split at hstage <;> cases hstage
      | _ => cases hw'
  | @interruptAll b stopping stage hw | @interruptConflicting b stage group hw =>
      cases stage <;> cases hw'
      exact .inr ⟨rfl, _, _, hw⟩
  | _ => cases hw'

/-- Where a worker that is to look at the window comes from. -/
theorem Turn.to_focusing (turn : Turn s es s') (running' : s'.IsRunning .focusing run') :
    es = [] ∧ ((∃ run, s.IsRunning .focusing run ∧ run'.id = run.id ∧
        run'.entries.map (·.progress) = run.entries.map (·.progress)) ∨
      ∃ b t d, s.executor.worker = some ⟨b, .taken t d⟩ ∧
        run' = Run.dispatch s.executor.target.requireFocus d t) := by
  obtain ⟨b', hw'⟩ := running'
  cases turn with
  | stride stride =>
      cases stride with
      | rest | tick | refocus | rewire => exact ⟨rfl, .inl ⟨run', ⟨b', hw'⟩, rfl, rfl⟩⟩
      | dispatch hw hrun =>
          obtain ⟨rfl, -, rfl⟩ : _ = b' ∧ _ ∧ _ = run' := by simpa using hw'
          exact ⟨rfl, .inr ⟨_, _, _, hw, hrun⟩⟩
      | handIn hw hstage =>
          cases hw'
          split at hstage <;> cases hstage
      | _ => cases hw'
  | @interruptAll b stopping stage hw =>
      cases stage with
      | running step run =>
          cases hw'
          exact ⟨rfl, .inl ⟨run, ⟨b, hw⟩, rfl, run.interruptAll_progress⟩⟩
      | _ => cases hw'
  | @interruptConflicting b stage group hw =>
      cases stage with
      | running step run =>
          cases hw'
          exact ⟨rfl, .inl ⟨run, ⟨_, hw⟩, rfl, run.interruptConflicting_progress _⟩⟩
      | _ => cases hw'
  | _ => cases hw'

/-- Whether a journal ends with the handout of a group. -/
def HandedLast (j : List Event) (t : Ticket) : Prop := ∃ earlier now, j = earlier ++ [.asked now (.group t)]

/-- Whether nothing was seen of a group since it was handed out, as long as the worker has not looked at its window. -/
structure Unseen (s : Clockwork φ) (j : List Event) : Prop where
  taken : ∀ b t d, s.executor.worker = some ⟨b, .taken t d⟩ → HandedLast j t
  focusing : ∀ run, s.IsRunning .focusing run → run.IsUnbegun ∧ ∃ t, t.id = run.id ∧ HandedLast j t

theorem Turn.unseen (turn : Turn s es s') (h : s.Unseen j) : s'.Unseen (j ++ es) where
  taken := by
    intro b' t d' hw'
    rcases turn.to_taken hw' with rfl | ⟨rfl, b, d, hw⟩
    · exact ⟨j, s.now, rfl⟩
    · rw [List.append_nil]
      exact h.taken b t d hw
  focusing := by
    intro run' running'
    obtain ⟨rfl, ⟨run, running, hid, same⟩ | ⟨b, t, d, hw, rfl⟩⟩ := turn.to_focusing running' <;>
      rw [List.append_nil]
    · obtain ⟨unbegun, handed⟩ := h.focusing run running
      exact ⟨unbegun.of_map same, hid ▸ handed⟩
    · exact ⟨Run.isUnbegun_dispatch _ d t, t, rfl, h.taken b t d hw⟩

/-! ## After the look -/

/-- Whether a worker is told to stop changes only with the call for it. -/
theorem stopping_move (hm : m ≠ .requestStop) (hw : s.executor.worker = some ⟨b, stage⟩)
    (hw' : (s.move m).executor.worker = some ⟨b', stage'⟩) : b' = b := by
  have of_stride {es : List Event} (stride : Stride s es (s.move m)) : b' = b := by
    generalize s.move m = s' at stride hw'
    cases stride with
    | rest | tick | refocus | rewire =>
        cases hw.symm.trans hw'
        rfl
    | start hw₁ => cases hw.symm.trans hw₁
    | leave => cases hw'
    | _ hw₁ =>
        cases hw.symm.trans hw₁
        cases hw'
        rfl
  have of_map {f : Stage → Stage} (h : (s.move m).executor = s.executor.mapStage f) : b' = b := by
    rw [h, Executor.mapStage_of_some hw] at hw'
    cases hw'
    rfl
  cases m with
  | work => exact of_stride stride_work
  | closeLate => exact of_stride stride_closeLate
  | poll position => exact of_stride (stride_poll position)
  | tick => exact of_stride stride_tick
  | start => exact of_stride stride_start
  | setFocus active failing => exact of_stride (.refocus _)
  | setDevice device => exact of_stride (.rewire device)
  | requestStop => exact absurd rfl hm
  | request r =>
      cases r with
      | interruptAll => exact of_map s.executor.interruptAll_fst
      | interruptConflicting g => exact of_map (s.executor.interruptConflicting_fst g)
      | layer g =>
          rcases Executor.layer_cases g s.executor with ⟨b₁, run, hw₁, -, -, heq⟩ | heq <;>
            simp only [move, Executor.serve, heq] at hw'
          · cases hw.symm.trans hw₁
            cases hw'
            rfl
          · cases hw.symm.trans hw'
            rfl
  | abort =>
      simp only [move, Executor.abort] at hw'
      split at hw' <;> cases hw'

/--
Where the worker may be after the window of a run could not be activated, and what was seen since: the
rest is over at an instant, and whether it was told to stop is known.
-/
inductive BacksOff (run : Run) (fault : InputError) (failed due : Nat) (told : Prop) :
    List Event → Clockwork φ → Prop where
  | closing {s : Clockwork φ} {b : Bool} {run' : Run}
      (hw : s.executor.worker = some ⟨b, .running (.closing (some fault)) run'⟩)
      (tells : run'.report.IsUnfocused run fault.message) (now : s.now = failed)
      (stop : b = true → told) : BacksOff run fault failed due told [] s
  | reporting {s : Clockwork φ} {b : Bool} {report : Report}
      (hw : s.executor.worker = some ⟨b, .reporting report true⟩)
      (tells : report.IsUnfocused run fault.message) (now : s.now = failed)
      (stop : b = true → told) : BacksOff run fault failed due told [] s
  | sleeping {s : Clockwork φ} {b : Bool} {report : Report}
      (hw : s.executor.worker = some ⟨b, .sleeping due⟩)
      (tells : report.IsUnfocused run fault.message) (early : s.now ≤ due)
      (stop : b = true → told) : BacksOff run fault failed due told [.reported report] s
  | asking {s : Clockwork φ} {b : Bool} {d : Deferred} {report : Report}
      (hw : s.executor.worker = some ⟨b, .asking d⟩)
      (tells : report.IsUnfocused run fault.message) (now : s.now = due)
      (stop : b = true → told) : BacksOff run fault failed due told [.reported report] s
  | asked {s : Clockwork φ} {report : Report} {handout : Handout} {after : List Event}
      (tells : report.IsUnfocused run fault.message) :
      BacksOff run fault failed due told (.reported report :: .asked due handout :: after) s
  | left {s : Clockwork φ} {report : Report} {after : List Event}
      (tells : report.IsUnfocused run fault.message) (stop : told) :
      BacksOff run fault failed due told (.reported report :: .left :: after) s
  | lost {s : Clockwork φ} {after : List Event} (stop : told) :
      BacksOff run fault failed due told (.aborted :: after) s
  | lostLater {s : Clockwork φ} {report : Report} {after : List Event}
      (tells : report.IsUnfocused run fault.message) (stop : told) :
      BacksOff run fault failed due told (.reported report :: .aborted :: after) s

namespace BacksOff

variable {fault : InputError} {failed due : Nat} {told : Prop} {report : Report}

/-- What a turn makes of a run that could not get the focus. -/
theorem turn_closing (hw : s.executor.worker = some ⟨b, .running (.closing (some fault)) run'⟩)
    (tells : run'.report.IsUnfocused run fault.message) (now : s.now = failed)
    (turn : Turn s es s') (whole : .aborted ∉ es)
    (stop : ∀ {b stage}, s'.executor.worker = some ⟨b, stage⟩ → b = true → told) :
    BacksOff run fault failed due told es s' := by
  cases turn with
  | stride stride =>
      cases stride with
      | rest | refocus | rewire => exact .closing hw tells now (stop hw)
      | tick quiet =>
          rw [not_quiet_of_ready ⟨b, hw⟩ rfl] at quiet
          cases quiet
      | finish hw₁ =>
          cases hw.symm.trans hw₁
          exact .reporting rfl tells now (stop rfl)
      | leave hw₁ top | begin hw₁ top =>
          cases hw.symm.trans hw₁
          rcases top with top | ⟨_, top⟩ <;> simp at top
      | _ hw₁ => cases hw.symm.trans hw₁
  | interruptAll hw₁ =>
      cases hw.symm.trans hw₁
      exact .closing rfl (tells.of_outcomes rfl run'.interruptAll_actions run'.interruptAll_outcomes)
        now (stop rfl)
  | interruptConflicting group hw₁ =>
      cases hw.symm.trans hw₁
      exact .closing rfl (tells.of_outcomes rfl (run'.interruptConflicting_actions group.kinds)
        (run'.interruptConflicting_outcomes group.kinds)) now (stop rfl)
  | bury hw₁ | layer group hw₁ => cases hw.symm.trans hw₁
  | abort | vanish => simp at whole

/-- What a turn makes of the report of such a run: it is handed in, and the worker rests. -/
theorem turn_reporting (hw : s.executor.worker = some ⟨b, .reporting report true⟩)
    (tells : report.IsUnfocused run fault.message) (now : s.now = failed)
    (rest : due = failed + s.executor.engine.backoffMs) (turn : Turn s es s') (whole : .aborted ∉ es)
    (stop : ∀ {b stage}, s'.executor.worker = some ⟨b, stage⟩ → b = true → told) :
    BacksOff run fault failed due told es s' := by
  cases turn with
  | stride stride =>
      cases stride with
      | rest | refocus | rewire => exact .reporting hw tells now (stop hw)
      | tick quiet => simp [isQuiet, workerReady, hw] at quiet
      | handIn hw₁ hstage =>
          cases hw.symm.trans hw₁
          subst hstage
          refine .sleeping ?_ tells ?_ (stop rfl)
          · rw [rest, ← now]
            rfl
          · rw [rest, ← now]
            exact Nat.le_add_right _ _
      | leave hw₁ top | begin hw₁ top =>
          cases hw.symm.trans hw₁
          rcases top with top | ⟨_, top⟩ <;> simp at top
      | _ hw₁ => cases hw.symm.trans hw₁
  | interruptAll hw₁ | interruptConflicting group hw₁ =>
      cases hw.symm.trans hw₁
      exact .reporting rfl tells now (stop rfl)
  | bury hw₁ | layer group hw₁ | abort hw₁ => cases hw.symm.trans hw₁
  | vanish => simp at whole

/-- What a turn makes of a worker that rests: it asks for a group when the rest is over. -/
theorem turn_sleeping (hw : s.executor.worker = some ⟨b, .sleeping due⟩)
    (tells : report.IsUnfocused run fault.message) (early : s.now ≤ due)
    (told_now : b = true → told) (turn : Turn s es s') (whole : .aborted ∉ es)
    (stop : ∀ {b stage}, s'.executor.worker = some ⟨b, stage⟩ → b = true → told) :
    BacksOff run fault failed due told (.reported report :: es) s' := by
  cases turn with
  | stride stride =>
      cases stride with
      | rest | refocus | rewire => exact .sleeping hw tells early (stop hw)
      | tick quiet =>
          simp only [isQuiet, workerReady, hw, Bool.and_eq_true, Bool.not_eq_true',
            Bool.or_eq_false_iff, decide_eq_false_iff_not] at quiet
          exact .sleeping hw tells (show s.now + 1 ≤ due by omega) (stop hw)
      | leave hw₁ top =>
          cases hw.symm.trans hw₁
          exact .left tells (told_now rfl)
      | begin hw₁ top =>
          cases hw.symm.trans hw₁
          rcases top with top | ⟨_, top, elapsed⟩ <;> cases top
          exact .asking rfl tells (Nat.le_antisymm early elapsed) (stop rfl)
      | _ hw₁ => cases hw.symm.trans hw₁
  | interruptAll hw₁ | interruptConflicting group hw₁ =>
      cases hw.symm.trans hw₁
      exact .sleeping rfl tells early (stop rfl)
  | bury hw₁ | layer group hw₁ | abort hw₁ => cases hw.symm.trans hw₁
  | vanish => simp at whole

/-- What a turn makes of a worker that has rested: it asks at that instant. -/
theorem turn_asking {d : Deferred} (hw : s.executor.worker = some ⟨b, .asking d⟩)
    (tells : report.IsUnfocused run fault.message) (now : s.now = due) (turn : Turn s es s')
    (whole : .aborted ∉ es) (stop : ∀ {b stage}, s'.executor.worker = some ⟨b, stage⟩ → b = true → told) :
    BacksOff run fault failed due told (.reported report :: es) s' := by
  cases turn with
  | stride stride =>
      cases stride with
      | rest | refocus | rewire => exact .asking hw tells now (stop hw)
      | tick quiet => simp [isQuiet, workerReady, hw] at quiet
      | hand | miss | crash =>
          subst now
          exact .asked tells
      | leave hw₁ top | begin hw₁ top =>
          cases hw.symm.trans hw₁
          rcases top with top | ⟨_, top⟩ <;> simp at top
      | _ hw₁ => cases hw.symm.trans hw₁
  | interruptAll hw₁ | interruptConflicting group hw₁ =>
      cases hw.symm.trans hw₁
      exact .asking rfl tells now (stop rfl)
  | bury hw₁ | layer group hw₁ | abort hw₁ => cases hw.symm.trans hw₁
  | vanish => simp at whole

/-- A move takes the worker on along its path. -/
theorem move (h : BacksOff run fault failed due told j s) (there : m ≠ .abort)
    (rest : due = failed + s.executor.engine.backoffMs)
    (told_ : m = .requestStop → told ∨ ∃ stage, s.executor.worker = some ⟨true, stage⟩) :
    BacksOff run fault failed due told (j ++ s.events m) (s.move m) := by
  have turn := turn_move (s := s) m
  have whole : .aborted ∉ s.events m := not_aborted there
  have stop {b : Bool} {stage : Stage} (hw : s.executor.worker = some ⟨b, stage⟩)
      (now : b = true → told) {b' : Bool} {stage' : Stage}
      (hw' : (s.move m).executor.worker = some ⟨b', stage'⟩) (hb' : b' = true) : told := by
    by_cases hm : m = .requestStop
    · rcases told_ hm with told | ⟨_, stopping⟩
      · exact told
      · cases hw.symm.trans stopping
        exact now rfl
    · exact now ((stopping_move hm hw hw').symm.trans hb')
  cases h with
  | closing hw tells now before => exact turn_closing hw tells now turn whole (stop hw before)
  | reporting hw tells now before => exact turn_reporting hw tells now rest turn whole (stop hw before)
  | sleeping hw tells early before => exact turn_sleeping hw tells early before turn whole (stop hw before)
  | asking hw tells now before => exact turn_asking hw tells now turn whole (stop hw before)
  | asked tells => exact .asked tells
  | left tells gone => exact .left tells gone
  | lost gone => exact .lost gone
  | lostLater tells gone => exact .lostLater tells gone

omit [Feed φ] in
/-- A worker on its path waits for no actions, so it gives none up. -/
theorem giveUp (h : BacksOff run fault failed due told j s) {accepting : Bool}
    (hw : s.executor.worker = some ⟨b, .running (.joining accepting) run'⟩) (worker : Option Worker) :
    BacksOff run fault failed due told j (s.withWorker worker) := by
  cases h with
  | closing hw₁ | reporting hw₁ | sleeping hw₁ | asking hw₁ => cases hw.symm.trans hw₁
  | asked tells => exact .asked tells
  | left tells gone => exact .left tells gone
  | lost gone => exact .lost gone
  | lostLater tells gone => exact .lostLater tells gone

omit [Feed φ] in
/-- A worker that was told to stop may be taken away on its path. -/
theorem abort (h : BacksOff run fault failed due told j s) (hw : s.executor.worker = some ⟨true, stage⟩) :
    BacksOff run fault failed due told (j ++ [.aborted]) (s.withWorker none) := by
  cases h with
  | closing hw₁ _ _ stop | reporting hw₁ _ _ stop =>
      cases hw.symm.trans hw₁
      exact .lost (stop rfl)
  | sleeping hw₁ tells _ stop | asking hw₁ tells _ stop =>
      cases hw.symm.trans hw₁
      exact .lostLater tells (stop rfl)
  | lost stop => exact .lost stop
  | lostLater tells stop => exact .lostLater tells stop
  | asked tells => exact .asked tells
  | left tells gone => exact .left tells gone

omit [Feed φ] in
theorem blind (h : BacksOff run fault failed due told j s) (calls : List Call) :
    BacksOff run fault failed due told j { s with executor := { s.executor with calls } } := by
  cases h with
  | closing hw tells now stop => exact .closing hw tells now stop
  | reporting hw tells now stop => exact .reporting hw tells now stop
  | sleeping hw tells early stop => exact .sleeping hw tells early stop
  | asking hw tells now stop => exact .asking hw tells now stop
  | asked tells => exact .asked tells
  | left tells gone => exact .left tells gone
  | lost gone => exact .lost gone
  | lostLater tells gone => exact .lostLater tells gone

omit [Feed φ] in
/-- The first that is seen is the report, unless the worker was told to stop and is taken away before. -/
theorem seen (h : BacksOff run fault failed due told j s) :
    j = [] ∨ (told ∧ ∃ after, j = .aborted :: after) ∨
      ∃ report after, report.IsUnfocused run fault.message ∧ j = .reported report :: after := by
  cases h with
  | closing | reporting => exact .inl rfl
  | sleeping _ tells | asking _ tells => exact .inr (.inr ⟨_, [], tells, rfl⟩)
  | asked tells | left tells | lostLater tells => exact .inr (.inr ⟨_, _, tells, rfl⟩)
  | lost stop => exact .inr (.inl ⟨stop, _, rfl⟩)

end BacksOff

/-- A look that fails sets the worker on that path. -/
theorem backsOff_of_look {fault : InputError} {told : Prop} (unbegun : run.IsUnbegun)
    (hw : s.executor.worker = some ⟨b, .running .focusing run⟩) (failed : s.executor.focus.sight = .failed fault)
    (now : b = true → told) :
    BacksOff run fault s.now (s.now + s.executor.engine.backoffMs) told [] (s.move .work) := by
  obtain ⟨still, -, hw'⟩ := work_focusing hw
  rw [failed] at hw'
  exact .closing hw' (unbegun.report fault.message) still now

end Clockwork

end Combo
