-- SUMMARY: What a move of the whole system comes to for one action, and that each entry of a run follows it.
import Combo.Proofs.Clockwork.Course
import Combo.Proofs.Clockwork.Release
import Combo.Proofs.Executor.Solo

/-!
# The impact of a move on one action

Most moves are about the worker or about other actions. What is left for the
action at a position of the run is its impact: its own polls, the milliseconds
that pass, and the requests that cancel it. `Meets` says what one move makes of an
entry: it is started, it fails because the window cannot be activated, or it
goes on as the action alone does under the impact of the move.
-/

namespace Combo

/-- The exchanges of the action at a position of a group, with their instants. -/
def exchangesAt (group position : Nat) (es : List Event) : List (Nat × Exchange) :=
  ((es.filterMap Event.call?).filter (Call.isAt group position)).map fun c =>
    (c.time, (c.command, c.response))

@[simp] theorem exchangesAt_nil (group position : Nat) : exchangesAt group position [] = [] := rfl

theorem exchangesAt_append (group position : Nat) (es es' : List Event) :
    exchangesAt group position (es ++ es') =
      exchangesAt group position es ++ exchangesAt group position es' := by
  simp [exchangesAt]

/-- An event that shows no command adds no exchange. -/
theorem exchangesAt_append_of_silent (group position : Nat) (es : List Event) {e : Event}
    (silent : e.call? = none) :
    exchangesAt group position (es ++ [e]) = exchangesAt group position es := by
  simp [exchangesAt, silent]

/-- The exchange of a poll belongs to the action that was polled. -/
theorem exchangesAt_calls (now group position other : Nat) (exchange : Option Exchange) :
    exchangesAt group other ((Exchange.calls now group position exchange).map .called) =
      if position = other then (exchange.map fun exchange => (now, exchange)).toList else [] := by
  rcases exchange with _ | ⟨command, response⟩
  · simp [exchangesAt, Exchange.calls]
  · by_cases h : position = other <;>
      simp [exchangesAt, Exchange.calls, Event.call?, Call.isAt, h]

/-- Where no command is seen nothing was exchanged. -/
theorem exchangesAt_eq_nil {group position : Nat} {es : List Event}
    (h : ∀ c, Event.called c ∈ es → c.group = group → c.position ≠ position) :
    exchangesAt group position es = [] := by
  rw [exchangesAt, List.map_eq_nil_iff, List.filter_eq_nil_iff]
  intro c hc hat
  obtain ⟨e, he, hcall⟩ := List.mem_filterMap.1 hc
  have hevent : e = .called c := by cases e <;> simp_all [Event.call?]
  simp only [Call.isAt, Bool.and_eq_true, beq_iff_eq] at hat
  exact h c (hevent ▸ he) hat.1 hat.2

namespace Clockwork

variable {φ : Type}

/-- The entry at a position of the run that the worker is at. -/
def entryAt? (s : Clockwork φ) (position : Nat) : Option Entry :=
  s.executor.run?.bind fun run => run.entries[position]?

/-- The action of an entry on its own, under the clock of the system. -/
def solo (s : Clockwork φ) (e : Entry) : Solo where
  action := e.action
  attackMs := s.executor.engine.attackMs
  now := s.now
  cancelled := e.cancelled
  progress := e.progress

/-- What a move comes to for the action at a position of the run that the worker is at. -/
def impact (s : Clockwork φ) (position : Nat) (a : Action) (m : Move) : Option Solo.Move :=
  if s.executor.run?.isNone then none
  else match m with
    | .poll other => if other = position then some (.poll s.executor.device.respond) else none
    | .tick => if s.isQuiet then some .tick else none
    | .request .interruptAll | .requestStop => some .cancel
    | .request (.interruptConflicting group) =>
      if a.kind.interrupted group.kinds then some .cancel else none
    | .work | .closeLate | .start | .request (.layer _) | .abort | .setFocus _ _ | .setDevice _ =>
      none

variable [Feed φ]

/-- What a play comes to for the action at a position of the run that the worker is at. -/
def impacts (s : Clockwork φ) (position : Nat) (a : Action) : List Move → List Solo.Move
  | [] => []
  | m :: moves => (s.impact position a m).toList ++ (s.move m).impacts position a moves

theorem impacts_append (s : Clockwork φ) (position : Nat) (a : Action) (first second : List Move) :
    s.impacts position a (first ++ second) =
      s.impacts position a first ++ (s.play first).impacts position a second := by
  induction first generalizing s with
  | nil => rfl
  | cons m first ih => simp [impacts, ih]

/-- The first instant at which the action at a position of the run has ended. -/
def endedAt (s : Clockwork φ) (position : Nat) (moves : List Move) : Option Nat :=
  firstSeen move (fun s => if (s.entryAt? position).any (·.progress.isEnded) then some s.now else none)
    s moves

/-! ## What one move makes of an entry -/

/-- What becomes of the entry at a position of the run in a move during which the run goes on. -/
inductive Meets (s : Clockwork φ) (m : Move) (step : Step) (group position : Nat) (e : Entry) :
    Entry → Prop where
  | started (queued : e.progress = .queued) (now : (s.move m).now = s.now)
      (silent : exchangesAt group position (s.events m) = []) :
      Meets s m step group position e { e with progress := .ready }
  | unfocused (fault : InputError) (hstep : step = .focusing) (queued : e.progress = .queued)
      (now : (s.move m).now = s.now) (silent : exchangesAt group position (s.events m) = []) :
      Meets s m step group position e { e with progress := .ended (.failed fault.message) }
  | alone {e' : Entry}
      (mirror : (s.move m).solo e' = (s.solo e).play (s.impact position e.action m).toList)
      (exchanged : exchangesAt group position (s.events m) =
        (s.solo e).exchanges (s.impact position e.action m).toList) :
      Meets s m step group position e e'

section Move

variable {s : Clockwork φ} {m : Move} {b : Bool} {step step' : Step} {run run' : Run}
  {group position : Nat} {e : Entry}

/-- No move changes the settings of an executor. -/
theorem engine_move (s : Clockwork φ) (m : Move) :
    (s.move m).executor.engine = s.executor.engine := by
  have turn := turn_move (s := s) m
  generalize s.events m = es, s.move m = s' at turn
  cases turn with
  | stride stride => cases stride <;> rfl
  | _ => rfl

theorem engine_play (s : Clockwork φ) (moves : List Move) :
    (s.play moves).executor.engine = s.executor.engine := by
  induction moves generalizing s with
  | nil => rfl
  | cons m moves ih => exact (ih (s.move m)).trans (engine_move s m)

/-- An entry that a move leaves alone goes on as the action alone does without a move. -/
theorem Meets.rest (now : (s.move m).now = s.now) (none_ : s.impact position e.action m = none)
    (silent : exchangesAt group position (s.events m) = []) :
    Meets s m step group position e e := by
  refine .alone ?_ ?_
  · rw [none_]
    simp [solo, now, engine_move]
  · rw [none_, silent]
    rfl

theorem Meets.release (now : (s.move m).now = s.now) (none_ : s.impact position e.action m = none)
    (silent : exchangesAt group position (s.events m) = []) :
    Meets s m step group position e e.release := by
  unfold Entry.release
  split
  · rename_i queued
    refine .started ?_ now silent
    cases hp : e.progress <;> simp_all [Progress.isQueued]
  · exact .rest now none_ silent

theorem Meets.fail {fault : InputError} (hat : e.progress.isQueued = true ∨ e.progress.isEnded = true)
    (now : (s.move m).now = s.now) (none_ : s.impact position e.action m = none)
    (silent : exchangesAt group position (s.events m) = []) :
    Meets s m .focusing group position e (e.fail fault.message) := by
  unfold Entry.fail
  split
  · exact .rest now none_ silent
  · rename_i going
    refine .unfocused fault rfl ?_ now silent
    cases hp : e.progress <;> simp_all [Progress.isQueued, Progress.isEnded]

/-- A worker that cannot go on with its run does nothing, else it takes the step it is at. -/
theorem move_work (hw : s.executor.worker = some ⟨b, .running step run⟩) :
    s.move .work = if stepReady s.now run step then s.stepRun run step else s := by
  simp [move, workerStep, workerReady, hw]

/-- What a step of the worker makes of a run that it stays at. -/
theorem work_cases (hw : s.executor.worker = some ⟨b, .running step run⟩)
    (running : (s.move .work).IsRunning step' run') :
    (s.move .work).now = s.now ∧
      (run' = run ∨ run' = run.releaseAll ∨ run' = run.receive ∨
        (step = .focusing ∧ ∃ fault : InputError, run' = run.failAll fault.message)) := by
  obtain ⟨b', hw'⟩ := running
  have hmove := move_work hw
  split at hmove
  · cases step with
    | focusing =>
        simp only [stepRun, seeToFocus] at hmove
        split at hmove
        · rw [setStage_of_some hw] at hmove
          rw [hmove] at hw' ⊢
          cases hw'
          exact ⟨rfl, .inl rfl⟩
        · rcases tried : s.executor.focus.activate with ⟨focus, _ | fault⟩ <;>
            simp only [tried, setStage, Executor.setStage, hw, Option.map_some] at hmove <;>
            rw [hmove] at hw' ⊢ <;> cases hw'
          · exact ⟨rfl, .inl rfl⟩
          · exact ⟨rfl, .inr (.inr (.inr ⟨rfl, fault, rfl⟩))⟩
    | settling due =>
        rw [stepRun, setStage_of_some hw] at hmove
        rw [hmove] at hw' ⊢
        cases hw'
        exact ⟨rfl, .inl rfl⟩
    | opening =>
        rw [stepRun, setStage_of_some hw] at hmove
        rw [hmove] at hw' ⊢
        cases hw'
        exact ⟨rfl, .inr (.inl rfl)⟩
    | joining accepting =>
        simp only [stepRun, join, setStage_of_some hw] at hmove
        split at hmove
        · split at hmove <;> rw [hmove] at hw' ⊢ <;> cases hw'
          · exact ⟨rfl, .inr (.inr (.inl rfl))⟩
          · exact ⟨rfl, .inl rfl⟩
        · rw [hmove] at hw' ⊢
          cases hw'
          exact ⟨rfl, .inl rfl⟩
    | closing fault =>
        rw [stepRun, enter_of_some hw] at hmove
        rw [hmove] at hw'
        cases hw'
  · rw [hmove, hw] at hw'
    cases hw'
    exact ⟨by rw [hmove], .inl rfl⟩

/-- What a worker makes of a run that it closes for layering while actions wait. -/
theorem closeLate_cases (hw : s.executor.worker = some ⟨b, .running step run⟩)
    (running : (s.move .closeLate).IsRunning step' run') :
    (s.move .closeLate).now = s.now ∧ (run' = run ∨ run' = run.releaseAll) := by
  obtain ⟨b', hw'⟩ := running
  have hmove : s.move .closeLate = s ∨ s.move .closeLate =
      s.withWorker (some ⟨b, .running (.joining false) run.releaseAll⟩) := by
    simp only [move, closeLate]
    split
    · rename_i hw₁
      cases hw.symm.trans hw₁
      split
      · exact .inr (setStage_of_some hw)
      · exact .inl rfl
    · exact .inl rfl
  rcases hmove with hmove | hmove
  · rw [hmove, hw] at hw'
    cases hw'
    exact ⟨by rw [hmove], .inl rfl⟩
  · rw [hmove] at hw' ⊢
    cases hw'
    exact ⟨rfl, .inr rfl⟩

/-- Until a run is joined, and from its closing on, none of its actions can go on. -/
theorem idle_of_isAt (hat : run.IsAt step) (hstep : ∀ accepting, step ≠ .joining accepting)
    (he : run.entries[position]? = some e) :
    e.progress.isQueued = true ∨ e.progress.isEnded = true := by
  have hmem := List.mem_of_getElem? he
  cases step with
  | joining accepting => exact absurd rfl (hstep accepting)
  | focusing | settling | opening => exact hat e hmem
  | closing fault => exact .inr (hat e hmem)

theorem meets_work (sound : s.executor.Sound)
    (hw : s.executor.worker = some ⟨b, .running step run⟩)
    (he : run.entries[position]? = some e) (running : (s.move .work).IsRunning step' run') :
    ∃ e', run'.entries[position]? = some e' ∧ Meets s .work step group position e e' := by
  have none_ : s.impact position e.action .work = none := by simp [impact]
  have silent : exchangesAt group position (s.events .work) = [] := by simp [events, workEvents, hw]
  obtain ⟨now, rfl | rfl | rfl | ⟨rfl, fault, rfl⟩⟩ := work_cases hw running
  · exact ⟨e, he, .rest now none_ silent⟩
  · exact ⟨e.release, by simp [Run.releaseAll, he], .release now none_ silent⟩
  · rcases run.receive_cases with heq | ⟨i, heq⟩
    · exact ⟨e, by rw [heq, he], .rest now none_ silent⟩
    · by_cases hi : i = position
      · exact ⟨e.release, by simp [heq, he, hi], .release now none_ silent⟩
      · exact ⟨e, by simp [heq, he, hi], .rest now none_ silent⟩
  · have idle := idle_of_isAt (sound _ _ _ hw).1 (by simp) he
    exact ⟨e.fail fault.message, by simp [Run.failAll, he], .fail idle now none_ silent⟩

/-- A poll that comes to nothing leaves every entry alone. -/
theorem Meets.poll_rest {other : Nat} (hmove : s.move (.poll other) = s)
    (still : other = position → (s.solo e).isRunnable = false) :
    Meets s (.poll other) step group position e e := by
  have silent : exchangesAt group position (s.events (.poll other)) = [] := by
    have hpoll : s.poll other = s := hmove
    simp [events, hpoll, callsSince]
  by_cases hother : other = position
  · subst hother
    by_cases hrun : s.executor.run?.isNone
    · exact .rest (by rw [hmove]) (by simp [impact, hrun]) silent
    · refine .alone ?_ ?_
      · simp [impact, hrun, Solo.move, still, hmove]
      · simp [impact, hrun, Solo.exchanges, Solo.sent, still, silent]
  · exact .rest (by rw [hmove]) (by simp [impact, hother]) silent

/-- What a poll of an action that can go on makes of the system, and what it sends. -/
theorem poll_of_runnable {accepting : Bool} {other : Nat} {entry : Entry} {progress : Progress}
    {exchange : Option Exchange} (hw : s.executor.worker = some ⟨b, .running (.joining accepting) run⟩)
    (hentry : run.entries[other]? = some entry) (ready : entry.runnable s.now = true)
    (hpoll : entry.progress.poll s.executor.device s.executor.engine.attackMs s.now entry.action
      entry.cancelled = (progress, exchange)) :
    s.move (.poll other) = { s with executor := { s.executor with
        calls := s.executor.calls ++ Exchange.calls s.now run.id other exchange
        worker := some ⟨b, .running (.joining accepting)
          { run with entries := run.entries.set other { entry with progress } }⟩ } } ∧
      s.events (.poll other) = (Exchange.calls s.now run.id other exchange).map .called := by
  have hmove : s.move (.poll other) = { s with executor := { s.executor with
      calls := s.executor.calls ++ Exchange.calls s.now run.id other exchange
      worker := some ⟨b, .running (.joining accepting)
        { run with entries := run.entries.set other { entry with progress } }⟩ } } := by
    simp only [move, poll, hw, hentry, ready, hpoll, if_true, setStage, Executor.setStage,
      Option.map_some]
    rfl
  exact ⟨hmove, callsSince_of_append _ (by rw [show s.poll other = _ from hmove])⟩

/-- A poll gets on with its own action as with the action alone, and leaves the others alone. -/
theorem meets_poll_of_runnable {accepting : Bool} {other : Nat} {entry : Entry}
    (hw : s.executor.worker = some ⟨b, .running (.joining accepting) run⟩)
    (he : run.entries[position]? = some e) (hentry : run.entries[other]? = some entry)
    (ready : entry.runnable s.now = true) (running : (s.move (.poll other)).IsRunning step' run') :
    ∃ e', run'.entries[position]? = some e' ∧ Meets s (.poll other) step run.id position e e' := by
  rcases hpoll : entry.progress.poll s.executor.device s.executor.engine.attackMs s.now
    entry.action entry.cancelled with ⟨progress, exchange⟩
  obtain ⟨hmove, hevents⟩ := poll_of_runnable hw hentry ready hpoll
  have hnow : (s.move (.poll other)).now = s.now := by rw [hmove]
  obtain ⟨b', hw'⟩ := running
  rw [hmove] at hw'
  cases hw'
  by_cases hother : other = position
  · subst hother
    cases he.symm.trans hentry
    have hpolled : (s.solo e).polled s.executor.device.respond = (progress, exchange) := by
      rw [← hpoll, Progress.poll_eq_settle]
      rfl
    have hready : (s.solo e).isRunnable = true := ready
    have himpact : s.impact other e.action (.poll other) =
        some (.poll s.executor.device.respond) := by
      simp [impact, Executor.run?, hw]
    refine ⟨{ e with progress }, by simp [(List.getElem?_eq_some_iff.1 he).1], .alone ?_ ?_⟩
    · rw [himpact, Option.toList_some, Solo.play_cons, Solo.play_nil, Solo.move, if_pos hready,
        hpolled]
      simp only [solo, hnow, engine_move]
    · rw [himpact, hevents, exchangesAt_calls, if_pos rfl]
      simp [Solo.exchanges, Solo.sent, hready, hpolled]
      rfl
  · refine ⟨e, by simp [hother, he], .rest hnow (by simp [impact, hother]) ?_⟩
    rw [hevents, exchangesAt_calls, if_neg hother]

theorem meets_poll (sound : s.executor.Sound)
    (hw : s.executor.worker = some ⟨b, .running step run⟩)
    (he : run.entries[position]? = some e) (other : Nat)
    (running : (s.move (.poll other)).IsRunning step' run') :
    ∃ e', run'.entries[position]? = some e' ∧ Meets s (.poll other) step run.id position e e' := by
  have rest (hmove : s.move (.poll other) = s)
      (still : other = position → (s.solo e).isRunnable = false) :
      ∃ e', run'.entries[position]? = some e' ∧
        Meets s (.poll other) step run.id position e e' := by
    obtain ⟨b', hw'⟩ := running
    rw [hmove, hw] at hw'
    cases hw'
    exact ⟨e, he, .poll_rest hmove still⟩
  by_cases joining : ∃ accepting, step = .joining accepting
  · obtain ⟨accepting, rfl⟩ := joining
    cases hentry : run.entries[other]? with
    | none =>
        refine rest (by simp [move, poll, hw, hentry]) ?_
        rintro rfl
        cases he.symm.trans hentry
    | some entry =>
        cases ready : entry.runnable s.now with
        | false =>
            refine rest (by simp [move, poll, hw, hentry, ready]) ?_
            rintro rfl
            cases he.symm.trans hentry
            exact ready
        | true => exact meets_poll_of_runnable hw he hentry ready running
  · refine rest ?_ fun _ => ?_
    · cases step with
      | joining accepting => exact absurd ⟨accepting, rfl⟩ joining
      | focusing | settling | opening | closing => simp [move, poll, hw]
    · exact Solo.not_runnable_of_idle
        (idle_of_isAt (sound _ _ _ hw).1 (fun accepting h => joining ⟨accepting, h⟩) he)

theorem meets_tick (sound : s.executor.Sound)
    (hw : s.executor.worker = some ⟨b, .running step run⟩)
    (he : run.entries[position]? = some e) : Meets s .tick step group position e e := by
  cases quiet : s.isQuiet with
  | false => exact .rest (by simp [move, tick, quiet]) (by simp [impact, quiet]) rfl
  | true =>
      have still : (s.solo e).isRunnable = false := by
        by_cases joining : ∃ accepting, step = .joining accepting
        · obtain ⟨accepting, rfl⟩ := joining
          have none_runnable : run.runnable? s.now = none := by
            simpa [isQuiet, runnable?, hw] using (Bool.and_eq_true_iff.1 quiet).2
          exact List.findIdx?_eq_none_iff.1 none_runnable e (List.mem_of_getElem? he)
        · exact Solo.not_runnable_of_idle
            (idle_of_isAt (sound _ _ _ hw).1 (fun accepting h => joining ⟨accepting, h⟩) he)
      have himpact : s.impact position e.action .tick = some .tick := by
        simp [impact, Executor.run?, hw, quiet]
      refine .alone ?_ ?_
      · rw [himpact, Option.toList_some, Solo.play_cons, Solo.play_nil, Solo.move, still]
        simp [solo, move, tick, quiet]
      · rw [himpact]
        rfl

/-- A request that cancels an action cancels it as the action alone is cancelled. -/
theorem Meets.cancel (now : (s.move m).now = s.now) (cancels : s.impact position e.action m = some .cancel)
    (silent : exchangesAt group position (s.events m) = []) :
    Meets s m step group position e e.cancel := by
  refine .alone ?_ ?_
  · rw [cancels]
    simp [solo, now, engine_move, Entry.cancel, Solo.move]
  · rw [cancels, silent]
    rfl

theorem meets_request (hw : s.executor.worker = some ⟨b, .running step run⟩)
    (he : run.entries[position]? = some e) (r : Request)
    (running : (s.move (.request r)).IsRunning step' run') :
    ∃ e', run'.entries[position]? = some e' ∧ Meets s (.request r) step group position e e' := by
  obtain ⟨b', hw'⟩ := running
  have at_run : s.executor.run?.isNone = false := by simp [Executor.run?, hw]
  cases r with
  | interruptAll =>
      simp only [move, Executor.serve, Executor.interruptAll_fst, Executor.mapStage_of_some hw] at hw'
      cases hw'
      exact ⟨e.cancel, by simp [Run.interruptAll, he], .cancel rfl (by simp [impact, at_run]) rfl⟩
  | interruptConflicting g =>
      simp only [move, Executor.serve, Executor.interruptConflicting_fst,
        Executor.mapStage_of_some hw] at hw'
      cases hw'
      cases hit : e.action.kind.interrupted g.kinds with
      | true =>
          refine ⟨e.cancel, ?_, .cancel rfl (by simp [impact, at_run, hit]) rfl⟩
          obtain ⟨a, key, cancelled, progress⟩ := e
          cases cancelled <;> simp_all [Run.interruptConflicting, Run.Entry.hitBy, Entry.cancel]
      | false =>
          refine ⟨e, ?_, .rest rfl (by simp [impact, hit]) rfl⟩
          simp [Run.interruptConflicting, Run.Entry.hitBy, he, hit]
  | layer g =>
      have silent : exchangesAt group position (s.events (.request (.layer g))) = [] := by
        simp only [events]
        split <;> rfl
      have rest : Meets s (.request (.layer g)) step group position e e :=
        .rest rfl (by simp [impact]) silent
      rcases Executor.layer_cases g s.executor with ⟨b'', run'', hw'', -, -, heq⟩ | heq
      · cases hw.symm.trans hw''
        obtain ⟨new, hnew, -⟩ := Run.exists_layer g.actions run
        simp only [move, Executor.serve, heq, hnew] at hw'
        cases hw'
        exact ⟨e, (List.getElem?_append_left (List.getElem?_eq_some_iff.1 he).1).trans he, rest⟩
      · simp only [move, Executor.serve, heq, hw] at hw'
        cases hw'
        exact ⟨e, he, rest⟩

/-- What a move makes of an entry of a run that the worker stays at. -/
theorem meets_move (sound : s.executor.Sound) (running : s.IsRunning step run)
    (he : run.entries[position]? = some e) (m : Move)
    (running' : (s.move m).IsRunning step' run') :
    ∃ e', run'.entries[position]? = some e' ∧ Meets s m step run.id position e e' := by
  obtain ⟨b, hw⟩ := running
  cases m with
  | work => exact meets_work sound hw he running'
  | poll other => exact meets_poll sound hw he other running'
  | request r => exact meets_request hw he r running'
  | closeLate =>
      have none_ : s.impact position e.action .closeLate = none := by simp [impact]
      obtain ⟨now, rfl | rfl⟩ := closeLate_cases hw running'
      · exact ⟨e, he, .rest now none_ rfl⟩
      · exact ⟨e.release, by simp [Run.releaseAll, he], .release now none_ rfl⟩
  | tick =>
      obtain ⟨b', hw'⟩ := running'
      have same : (s.move .tick).executor = s.executor := by
        simp only [move, tick]
        split <;> rfl
      rw [same, hw] at hw'
      cases hw'
      exact ⟨e, he, meets_tick sound hw he⟩
  | requestStop =>
      obtain ⟨b', hw'⟩ := running'
      have stopping : ({ s.executor with
          worker := some ⟨true, .running step run⟩ } : Executor).interruptAll.1 =
          (s.move .requestStop).executor := by
        simp [move, Executor.requestStop, hw]
      rw [← stopping, Executor.interruptAll_fst, Executor.mapStage_of_some rfl] at hw'
      cases hw'
      exact ⟨e.cancel, by simp [Run.interruptAll, he],
        .cancel rfl (by simp [impact, Executor.run?, hw]) rfl⟩
  | abort =>
      obtain ⟨b', hw'⟩ := running'
      simp [move, Executor.abort, Executor.run?, hw] at hw'
  | start =>
      obtain ⟨b', hw'⟩ := running'
      simp only [move, Executor.start, hw] at hw'
      cases hw'
      exact ⟨e, he, .rest rfl (by simp [impact]) rfl⟩
  | setFocus | setDevice =>
      obtain ⟨b', hw'⟩ := running'
      simp only [move, hw] at hw'
      cases hw'
      exact ⟨e, he, .rest rfl (by simp [impact]) rfl⟩

end Move

end Clockwork

end Combo
