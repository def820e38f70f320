-- SUMMARY: A cancelled action only lets go of what it holds, and a cancelled run is wound up without delay.
import Combo.Clockwork.Schedule
import Combo.Proofs.Clockwork.Track

/-!
# Letting go

From its cancellation on an action sends nothing but the release of the input it
holds. It ends as cancelled, or as failed if that release is refused; `LetsGo`
says so of an entry after some events. The one exception is a run whose window is
still to be looked at, because there an action may yet fail with the window.

In a cancelled run something is left to do until the report is made. Each move
of the schedule starts an action, ends one, or takes the worker a step on, so the
schedule makes the report after finitely many moves, and no time passes meanwhile.
-/

namespace Combo

/-- The release of an input is done or refused; no device crashes on it. -/
theorem Device.respond_up_ne_crashed (device : Device) (input : Input) :
    device.respond (.up input) ≠ .crashed := by
  simp only [respond, respondOn, Bool.false_and]
  split
  · simp
  · split
    · contradiction
    · split <;> simp

theorem mem_exchangesAt {group position now : Nat} {command : Command} {response : Response}
    {es : List Event} :
    (now, (command, response)) ∈ exchangesAt group position es ↔
      .called ⟨now, group, position, command, response⟩ ∈ es := by
  have called {e : Event} {c : Call} : e.call? = some c ↔ e = .called c := by
    cases e <;> simp [Event.call?]
  simp only [exchangesAt, List.mem_map, List.mem_filter, List.mem_filterMap, called]
  constructor
  · rintro ⟨⟨now', group', position', command', response'⟩, ⟨⟨e, he, rfl⟩, hat⟩, heq⟩
    simp only [Call.isAt, Bool.and_eq_true, beq_iff_eq] at hat
    cases heq
    rw [← hat.1, ← hat.2]
    exact he
  · intro h
    exact ⟨_, ⟨⟨_, h, rfl⟩, by simp [Call.isAt]⟩, rfl⟩

/-! ## One action -/

/-- Whether an action ended by letting go: as cancelled, or failed by the release of what it held. -/
def Ending.IsLetGo (group position : Nat) (es : List Event) (ending : Ending) : Prop :=
  ending = .cancelled ∨ ∃ now input err,
    .called ⟨now, group, position, .up input, .refused err⟩ ∈ es ∧
      ending = .failed (ExecutionError.input err).message

theorem Ending.IsLetGo.mono {group position : Nat} {es es' : List Event} {ending : Ending}
    (h : ending.IsLetGo group position es) (more : ∀ e ∈ es, e ∈ es') :
    ending.IsLetGo group position es' :=
  h.imp_right fun ⟨now, input, err, sent, ending⟩ => ⟨now, input, err, more _ sent, ending⟩

/-- Whether the cancelled action at a position has done nothing but let go in the course of some events. -/
structure Entry.LetsGo (group position : Nat) (es : List Event) (e : Entry) : Prop where
  cancelled : e.cancelled = true
  silent : ∀ now command response,
    .called ⟨now, group, position, command, response⟩ ∈ es → command.acts = false
  ended : ∀ ending, e.progress = .ended ending → ending.IsLetGo group position es

/-- An action that is cancelled while it is under way lets go from now on. -/
theorem Entry.letsGo_nil (group position : Nat) {e : Entry} (cancelled : e.cancelled = true)
    (going : e.progress.isEnded = false) : e.LetsGo group position [] where
  cancelled := cancelled
  silent := by simp
  ended := fun ending h => by
    rw [h] at going
    cases going

/-- Whether an outcome is that of an action which did nothing but let go in the course of some events. -/
structure Outcome.HasLetGo (group position : Nat) (a : Action) (es : List Event)
    (outcome : Outcome) : Prop where
  action : outcome.action = a
  silent : ∀ now command response,
    .called ⟨now, group, position, command, response⟩ ∈ es → command.acts = false
  ended : outcome.ending.IsLetGo group position es

/-- A poll that gets on with a cancelled action ends it, and sends at most a release. -/
theorem Progress.intent_of_cancelled {attackMs now : Nat} {a : Action} {p : Progress}
    (ready : p.runnable now true = true) :
    p.intent attackMs now a true = .silent (.ended .cancelled) ∨
      ∃ input, p.intent attackMs now a true = .send (.up input) (.ended .cancelled) := by
  cases p with
  | queued | ended => cases ready
  | ready | pressing | pausing => exact .inl rfl
  | holding input due => exact .inr ⟨input, rfl⟩

/-- To settle a release ends the action: as it was about to, or failed if the release is refused. -/
theorem Intent.settle_up (device : Device) (input : Input) (next : Progress) :
    ((Intent.send (.up input) next).settle device.respond =
        (next, some (.up input, .done))) ∨
      ∃ err, (Intent.send (.up input) next).settle device.respond =
        (.ended (.failed (ExecutionError.input err).message), some (.up input, .refused err)) := by
  simp only [settle]
  cases hr : device.respond (.up input) with
  | done => exact .inl rfl
  | refused err => exact .inr ⟨err, rfl⟩
  | crashed => exact absurd hr (device.respond_up_ne_crashed input)

namespace Entry.LetsGo

variable {group position : Nat} {es es' : List Event} {e e' : Entry}

/-- An action for which nothing is sent meanwhile, and which stays as far as it is, lets go. -/
theorem quiet (h : e.LetsGo group position es) (cancelled : e'.cancelled = true)
    (progress : e'.progress = e.progress) (silent : exchangesAt group position es' = []) :
    e'.LetsGo group position (es ++ es') where
  cancelled := cancelled
  silent := by
    intro now command response hmem
    rcases List.mem_append.1 hmem with hmem | hmem
    · exact h.silent now command response hmem
    · rw [← mem_exchangesAt, silent] at hmem
      cases hmem
  ended := fun ending hp => (h.ended ending (progress ▸ hp)).mono fun _ => List.mem_append_left _

/-- An action that has just been polled as a cancelled one is polled lets go. -/
theorem polled (h : e.LetsGo group position es) {now : Nat} {progress : Progress}
    {exchange : Option Exchange} (cancelled : e'.cancelled = true) (hp : e'.progress = progress)
    (sent : exchangesAt group position es' = (exchange.map fun x => (now, x)).toList)
    (hpolled : (progress, exchange) = (.ended .cancelled, none) ∨
      (∃ input, (progress, exchange) = (.ended .cancelled, some (.up input, .done))) ∨
      ∃ input err, (progress, exchange) =
        (.ended (.failed (ExecutionError.input err).message), some (.up input, .refused err))) :
    e'.LetsGo group position (es ++ es') where
  cancelled := cancelled
  silent := by
    intro now' command response hmem
    rcases List.mem_append.1 hmem with hmem | hmem
    · exact h.silent now' command response hmem
    · rw [← mem_exchangesAt, sent] at hmem
      rcases hpolled with heq | ⟨input, heq⟩ | ⟨input, err, heq⟩ <;> cases heq
      · cases hmem
      · cases List.mem_singleton.1 hmem
        rfl
      · cases List.mem_singleton.1 hmem
        rfl
  ended := by
    intro ending hended
    rw [hp] at hended
    rcases hpolled with heq | ⟨input, heq⟩ | ⟨input, err, heq⟩ <;> cases heq <;> cases hended
    · exact .inl rfl
    · exact .inl rfl
    · refine .inr ⟨now, input, err, List.mem_append_right _ ?_, rfl⟩
      rw [← mem_exchangesAt, sent]
      exact List.mem_singleton.2 rfl

end Entry.LetsGo

namespace Clockwork

variable {φ : Type} {s : Clockwork φ} {m : Move} {moves : List Move} {step step' : Step}
  {run run' : Run} {group position : Nat} {e e' : Entry} {es : List Event}

/-- What a poll makes of a cancelled action alone, and what it sends. -/
theorem polled_of_cancelled (cancelled : e.cancelled = true)
    (ready : (s.solo e).isRunnable = true) (device : Device) :
    (s.solo e).polled device.respond = (.ended .cancelled, none) ∨
    (∃ input, (s.solo e).polled device.respond = (.ended .cancelled, some (.up input, .done))) ∨
    ∃ input err, (s.solo e).polled device.respond =
      (.ended (.failed (ExecutionError.input err).message), some (.up input, .refused err)) := by
  have ready' : e.progress.runnable s.now true = true := cancelled ▸ ready
  have intent : (s.solo e).polled device.respond =
      (e.progress.intent s.executor.engine.attackMs s.now e.action true).settle device.respond := by
    rw [← cancelled]
    rfl
  rw [intent]
  rcases Progress.intent_of_cancelled ready' with heq | ⟨input, heq⟩ <;> rw [heq]
  · exact .inl rfl
  · rcases Intent.settle_up device input (.ended .cancelled) with hs | ⟨err, hs⟩
    · exact .inr (.inl ⟨input, hs⟩)
    · exact .inr (.inr ⟨input, err, hs⟩)

/-- The driver that polls an action is the device of the executor. -/
theorem eq_respond_of_impact {a : Action} {driver : Command → Response}
    (h : s.impact position a m = some (.poll driver)) : driver = s.executor.device.respond := by
  unfold impact at h
  split at h
  · cases h
  · cases m with
    | poll other =>
        dsimp only at h
        split at h <;> cases h
        rfl
    | request r => cases r <;> (dsimp only at h; try split at h) <;> cases h
    | tick =>
        dsimp only at h
        split at h <;> cases h
    | work | closeLate | start | requestStop | abort | setFocus | setDevice => cases h

variable [Feed φ]

/-- An action that goes on as it does alone goes on to let go. -/
theorem letsGo_alone (letsGo : e.LetsGo group position es)
    (mirror : (s.move m).solo e' = (s.solo e).play (s.impact position e.action m).toList)
    (exchanged : exchangesAt group position (s.events m) =
      (s.solo e).exchanges (s.impact position e.action m).toList) :
    e'.LetsGo group position (es ++ s.events m) := by
  have hc := congrArg Solo.cancelled mirror
  have hp := congrArg Solo.progress mirror
  cases himpact : s.impact position e.action m with
  | none =>
      rw [himpact] at hc hp exchanged
      exact letsGo.quiet (hc.trans letsGo.cancelled) hp exchanged
  | some x =>
      rw [himpact, Option.toList_some, Solo.play_cons, Solo.play_nil] at hc hp
      rw [himpact, Option.toList_some, Solo.exchanges, Solo.exchanges, List.append_nil] at exchanged
      cases x with
      | cancel => exact letsGo.quiet hc hp exchanged
      | tick =>
          have same : ((s.solo e).move .tick).cancelled = e.cancelled ∧
              ((s.solo e).move .tick).progress = e.progress := by
            simp only [Solo.move]
            split <;> exact ⟨rfl, rfl⟩
          exact letsGo.quiet (hc.trans (same.1.trans letsGo.cancelled)) (hp.trans same.2) exchanged
      | poll driver =>
          cases eq_respond_of_impact himpact
          simp only [Solo.move] at hc hp
          simp only [Solo.sent] at exchanged
          split at hc <;> rename_i ready
          · rw [if_pos ready] at hp exchanged
            exact letsGo.polled (hc.trans letsGo.cancelled) hp exchanged
              (polled_of_cancelled letsGo.cancelled ready s.executor.device)
          · rw [if_neg ready] at hp exchanged
            exact letsGo.quiet (hc.trans letsGo.cancelled) hp exchanged

/-- What a move makes of a cancelled action, once the window was looked at. -/
theorem letsGo_move (sound : s.executor.Sound) (running : s.IsRunning step run)
    (looked : step ≠ .focusing) (he : run.entries[position]? = some e)
    (letsGo : e.LetsGo run.id position es) (running' : (s.move m).IsRunning step' run') :
    ∃ e', run'.entries[position]? = some e' ∧ e'.LetsGo run.id position (es ++ s.events m) := by
  obtain ⟨e', he', meets⟩ := meets_move sound running he m running'
  refine ⟨e', he', ?_⟩
  cases meets with
  | started queued now silent =>
      refine ⟨letsGo.cancelled, fun now' command response hmem => ?_, fun ending h => ?_⟩
      · rcases List.mem_append.1 hmem with hmem | hmem
        · exact letsGo.silent now' command response hmem
        · rw [← mem_exchangesAt, silent] at hmem
          cases hmem
      · cases h
  | unfocused fault hstep => exact absurd hstep looked
  | alone mirror exchanged => exact letsGo_alone letsGo mirror exchanged

/-- Once the window was looked at, a cancelled action lets go until it is reported to have done so. -/
theorem tracks_letsGo {a : Action} (sound : s.executor.Sound)
    (h : s.Tracks (fun _ _ _ e => e.action = a ∧ e.LetsGo group position es)
      (Outcome.HasLetGo group position a es) group position) (moves : List Move)
    (own : ∀ e ∈ s.journal moves, e.isOf group = true) :
    (s.play moves).Tracks
      (fun _ _ _ e => e.action = a ∧ e.LetsGo group position (es ++ s.journal moves))
      (Outcome.HasLetGo group position a (es ++ s.journal moves)) group position := by
  refine Tracks.play (P := fun j _ _ _ e => e.action = a ∧ e.LetsGo group position j)
    (D := Outcome.HasLetGo group position a) sound h own ?_ ?_
  · rintro s₁ j m step₁ step₂ run₁ run₂ e₁ - sound₁ running₁ rfl looked₁ he₁ ⟨haction, letsGo⟩ running₂
    obtain ⟨e₂, he₂, letsGo₂⟩ := letsGo_move sound₁ running₁ looked₁ he₁ letsGo running₂
    obtain ⟨e₂', he₂', change⟩ := (proceeds_of_move running₁ running₂).change.kept position e₁ he₁
    cases he₂.symm.trans he₂'
    exact ⟨e₂, he₂, change.evolves.action.trans haction, letsGo₂⟩
  · rintro s₁ j step₁ run₁ e₁ ending ⟨haction, letsGo⟩ hp
    exact ⟨haction, letsGo.silent, letsGo.ended ending hp⟩

/-! ## Winding up -/

end Clockwork

/-- The moves a cancelled run takes at most to its last step: starts, polls and steps of the worker. -/
def Run.toGo (step : Step) (r : Run) : Nat :=
  r.entries.countP (·.progress.isQueued) + r.entries.countP (!·.progress.isEnded) + (5 - step.rank)

theorem Step.rank_le (step : Step) : step.rank ≤ 5 := by
  cases step with
  | joining accepting => cases accepting <;> simp [rank]
  | focusing | settling | opening | closing => simp [rank]

@[simp] theorem Entry.release_isEnded (e : Entry) :
    e.release.progress.isEnded = e.progress.isEnded := by
  unfold release
  cases hp : e.progress <;> simp [Progress.isQueued, Progress.isEnded, hp]

namespace Run

/-- A later step with no more to start and no more under way leaves less to do. -/
theorem toGo_lt_of_rank {step step' : Step} {r r' : Run} (further : step.rank < step'.rank)
    (queued : r'.entries.countP (·.progress.isQueued) ≤ r.entries.countP (·.progress.isQueued))
    (going : r'.entries.countP (!·.progress.isEnded) ≤ r.entries.countP (!·.progress.isEnded)) :
    r'.toGo step' < r.toGo step := by
  have := step'.rank_le
  unfold toGo
  omega

theorem countP_releaseAll (r : Run) :
    r.releaseAll.entries.countP (·.progress.isQueued) ≤ r.entries.countP (·.progress.isQueued) ∧
    r.releaseAll.entries.countP (!·.progress.isEnded) = r.entries.countP (!·.progress.isEnded) := by
  constructor
  · have none_queued : r.releaseAll.entries.countP (·.progress.isQueued) = 0 :=
      List.countP_eq_zero.2 fun e he => by simp [isAt_releaseAll r e he]
    rw [none_queued]
    exact Nat.zero_le _
  · simp [releaseAll, List.countP_map, Function.comp_def]

/-- To start an action or to end one leaves less to do. -/
theorem toGo_set {step : Step} {r : Run} {i : Nat} {e e' : Entry} (he : r.entries[i]? = some e)
    (going : e.progress.isEnded = false) (started : e'.progress.isQueued = false)
    (further : e.progress.isQueued = true ∨ e'.progress.isEnded = true) :
    toGo step { r with entries := r.entries.set i e' } < r.toGo step := by
  obtain ⟨hlt, rfl⟩ := List.getElem?_eq_some_iff.1 he
  have positive : 0 < r.entries.countP (!·.progress.isEnded) :=
    List.countP_pos_iff.2 ⟨_, List.getElem_mem hlt, by simp [going]⟩
  have positive' : r.entries[i].progress.isQueued = true →
      0 < r.entries.countP (·.progress.isQueued) :=
    fun queued => List.countP_pos_iff.2 ⟨_, List.getElem_mem hlt, queued⟩
  simp only [toGo, List.countP_set hlt, going, started]
  cases queued : r.entries[i].progress.isQueued with
  | true =>
      have := positive' queued
      cases e'.progress.isEnded <;>
        simp only [Bool.not_true, Bool.not_false, Bool.false_eq_true, reduceIte] <;> omega
  | false =>
      have ended : e'.progress.isEnded = true := further.resolve_left (by simp [queued])
      simp only [ended, Bool.not_true, Bool.not_false, Bool.false_eq_true, reduceIte]
      omega

theorem toGo_receive {step : Step} {r : Run} (queued : r.hasQueued = true) :
    r.receive.toGo step < r.toGo step := by
  obtain ⟨i, hi⟩ := Option.isSome_iff_exists.1
    ((List.findIdx?_isSome (p := fun e : Entry => e.progress.isQueued)).trans queued)
  obtain ⟨hlt, waits, -⟩ := List.findIdx?_eq_some_iff_getElem.1 hi
  have he := List.getElem?_eq_getElem hlt
  have going : r.entries[i].progress.isEnded = false := by
    cases hp : r.entries[i].progress <;> simp_all [Progress.isQueued, Progress.isEnded]
  have hreceive : r.receive = { r with entries := r.entries.set i r.entries[i].release } := by
    unfold receive
    simp only [hi, List.modify_eq_set, he, Option.getD_some]
  rw [hreceive]
  exact toGo_set he going (Entry.release_isQueued _) (.inl waits)

end Run

namespace Clockwork

variable {φ : Type} [Feed φ] {s : Clockwork φ} {step : Step} {run : Run}

/-- A poll of a cancelled action that can go on leaves less to do. -/
theorem exists_toGo_poll {accepting : Bool} {position : Nat} {e : Entry}
    (he : run.entries[position]? = some e) (cancelled : e.cancelled = true)
    (ready : e.runnable s.now = true) (running : s.IsRunning (.joining accepting) run) :
    ∃ run', (s.move (.poll position)).IsRunning (.joining accepting) run' ∧
      run'.cancelled = run.cancelled ∧ run'.toGo (.joining accepting) < run.toGo (.joining accepting) := by
  rcases hpoll : e.progress.poll s.executor.device s.executor.engine.attackMs s.now e.action
    e.cancelled with ⟨progress, exchange⟩
  obtain ⟨b, hw⟩ := running
  obtain ⟨hmove, -⟩ := poll_of_runnable hw he ready hpoll
  have ended : progress.isEnded = true := by
    have hpolled : (s.solo e).polled s.executor.device.respond = (progress, exchange) := by
      rw [← hpoll, Progress.poll_eq_settle]
      rfl
    rcases polled_of_cancelled (s := s) cancelled ready s.executor.device with
      heq | ⟨input, heq⟩ | ⟨input, err, heq⟩ <;> cases hpolled.symm.trans heq <;> rfl
  refine ⟨{ run with entries := run.entries.set position { e with progress } }, ?_, rfl,
    Run.toGo_set he (Entry.isEnded_of_runnable ready)
      (Progress.poll_polled ready hpoll).isQueued_eq_false (.inr ended)⟩
  rw [hmove]
  exact ⟨b, rfl⟩

/-- A step of the worker at a run that it can go on with leads to the report, or leaves less to do. -/
theorem exists_toGo_work (looked : step ≠ .focusing) (running : s.IsRunning step run)
    (ready : stepReady s.now run step = true) :
    (s.move .work).IsReporting run.report ∨ ∃ step' run', (s.move .work).IsRunning step' run' ∧
      step' ≠ .focusing ∧ run'.cancelled = run.cancelled ∧ run'.toGo step' < run.toGo step := by
  obtain ⟨b, hw⟩ := running
  have on (step' : Step) (further : step.rank < step'.rank) : step' ≠ .focusing ∧
      run.cancelled = run.cancelled ∧ run.toGo step' < run.toGo step :=
    ⟨by rintro rfl; simp [Step.rank] at further, rfl,
      Run.toGo_lt_of_rank further (Nat.le_refl _) (Nat.le_refl _)⟩
  rw [move_work hw, if_pos ready]
  cases step with
  | focusing => exact absurd rfl looked
  | settling due =>
      rw [stepRun, setStage_of_some hw]
      exact .inr ⟨.opening, run, ⟨b, rfl⟩, on _ (by simp [Step.rank])⟩
  | opening =>
      rw [stepRun, setStage_of_some hw]
      obtain ⟨queued, going⟩ := run.countP_releaseAll
      exact .inr ⟨.joining true, run.releaseAll, ⟨b, rfl⟩, by simp, rfl,
        Run.toGo_lt_of_rank (by simp [Step.rank]) queued (Nat.le_of_eq going)⟩
  | joining accepting =>
      cases accepting with
      | false =>
          simp only [stepRun, join, Bool.false_eq_true, if_false, setStage_of_some hw]
          exact .inr ⟨.closing none, run, ⟨b, rfl⟩, on _ (by simp [Step.rank])⟩
      | true =>
          simp only [stepRun, join, if_true, setStage_of_some hw]
          split
          · rename_i queued
            exact .inr ⟨.joining true, run.receive, ⟨b, rfl⟩, by simp, run.receive_cancelled,
              Run.toGo_receive queued⟩
          · exact .inr ⟨.joining false, run, ⟨b, rfl⟩, on _ (by simp [Step.rank])⟩
  | closing fault =>
      rw [stepRun, enter_of_some hw]
      exact .inl ⟨b, _, rfl⟩

omit [Feed φ] in
/-- As long as a cancelled run goes on, something is left to do. -/
theorem not_quiet_of_cancelled (sound : s.executor.Sound) (running : s.IsRunning step run)
    (cancelled : run.cancelled = true) : s.isQuiet = false := by
  cases step with
  | focusing | opening | closing => exact not_quiet_of_ready running rfl
  | settling due => exact not_quiet_of_ready running (by simp [stepReady, cancelled])
  | joining accepting =>
      obtain ⟨b, hw⟩ := running
      have still := congrArg Clockwork.now (tick_of_cancelled sound hw cancelled)
      cases quiet : s.isQuiet with
      | false => rfl
      | true => simp [tick, quiet] at still

/-- While a cancelled run goes on, the schedule has a move that leads to the report, or leaves less to do. -/
theorem exists_next_of_cancelled (sound : s.executor.Sound) (running : s.IsRunning step run)
    (looked : step ≠ .focusing) (cancelled : run.cancelled = true) :
    ∃ m, (∀ interject, s.next? interject = some (s.move m)) ∧
      ((s.move m).IsReporting run.report ∨ ∃ step' run', (s.move m).IsRunning step' run' ∧
        step' ≠ .focusing ∧ run'.cancelled = true ∧ run'.toGo step' < run.toGo step) := by
  obtain ⟨b, hw⟩ := running
  have away : s.isAsking = false := by simp [isAsking, hw]
  cases hpoll : s.runnable? with
  | some position =>
      have next : s.nextMove? = some (.poll position) := by simp [nextMove?, hpoll]
      refine ⟨.poll position, fun interject => by simp [next?, next], .inr ?_⟩
      cases step with
      | joining accepting =>
          simp only [runnable?, hw] at hpoll
          obtain ⟨hlt, ready, -⟩ := List.findIdx?_eq_some_iff_getElem.1 hpoll
          obtain ⟨run', running', same, less⟩ := exists_toGo_poll (List.getElem?_eq_getElem hlt)
            ((sound _ _ _ hw).2.1 cancelled _ (List.getElem_mem hlt)) ready ⟨b, hw⟩
          exact ⟨_, run', running', by simp, same.trans cancelled, less⟩
      | focusing | settling | opening | closing => simp [runnable?, hw] at hpoll
  | none =>
      have ready : stepReady s.now run step = true := by
        have busy := not_quiet_of_cancelled sound ⟨b, hw⟩ cancelled
        simpa [isQuiet, workerReady, hw, hpoll] using busy
      have next : s.nextMove? = some .work := by simp [nextMove?, hpoll, workerReady, hw, ready]
      refine ⟨.work, fun interject => by simp [next?, next, away], ?_⟩
      rcases exists_toGo_work looked ⟨b, hw⟩ ready with
        reporting | ⟨step', run', running', looked', same, less⟩
      · exact .inl reporting
      · exact .inr ⟨step', run', running', looked', same.trans cancelled, less⟩

/-- Nothing is seen of the move that makes a report. -/
theorem silent_of_reporting {report : Report} {m : Move} (running : s.IsRunning step run)
    (reporting : (s.move m).IsReporting report) : s.events m = [] := by
  rcases (turn_move m).proceeds running with ⟨_, _, running', _⟩ | ⟨silent, -⟩ | ⟨-, gone⟩
  · exact absurd running' reporting.not_isRunning
  · exact silent
  · obtain ⟨b, faulty, hw⟩ := reporting
    cases hw.symm.trans gone

/--
The schedule winds a cancelled run up: after some moves of it the report is made, and only events of
the run are seen meanwhile.
-/
theorem exists_steps_of_cancelled (sound : s.executor.Sound) (running : s.IsRunning step run)
    (looked : step ≠ .focusing) (cancelled : run.cancelled = true) :
    ∃ moves report, (∀ interject, steps interject moves.length s = s.play moves) ∧
      (s.play moves).IsReporting report ∧ ∀ e ∈ s.journal moves, e.isOf run.id = true := by
  induction hn : run.toGo step using Nat.strongRecOn generalizing s step run with
  | ind n ih =>
      obtain ⟨m, next, left⟩ := exists_next_of_cancelled sound running looked cancelled
      have first : ∀ interject fuel, steps interject (fuel + 1) s = steps interject fuel (s.move m) :=
        fun interject fuel => by rw [steps, next]
      rcases left with reporting | ⟨step', run', running', looked', cancelled', less⟩
      · refine ⟨[m], _, fun interject => first interject 0, reporting, ?_⟩
        rw [journal_cons, journal_nil, List.append_nil, silent_of_reporting running reporting]
        simp
      · have proceeds := proceeds_of_move running running'
        obtain ⟨moves, report, all, reporting, own⟩ :=
          ih _ (hn ▸ less) ((turn_move m).sound sound) running' looked' cancelled' rfl
        refine ⟨m :: moves, report, fun interject => (first interject _).trans (all interject),
          reporting, fun e he => ?_⟩
        rcases List.mem_append.1 he with he | he
        · exact proceeds.own e he
        · exact proceeds.change.id ▸ own e he

end Clockwork

end Combo
