-- SUMMARY: A group runs as its actions run alone: each from its start on, and the report comes when the last one has ended.
import Mathlib.Data.List.Induction
import Combo.Proofs.Clockwork.Fate

/-!
# Groups as parallel compositions

The run of a group is made of the fates of its actions and nothing else: `Apart`
gives each entry its fate, and every move keeps that. A run can only be reported
when all its actions have ended, and as the worker then has something to do, no
time passes between the end of the last action and the report.
-/

namespace Combo

namespace Clockwork

variable {φ : Type} [Feed φ] {s : Clockwork φ} {m : Move} {moves : List Move}
  {step step' : Step} {run run' : Run} {position : Nat}

/-! ## Time -/

/-- A turn leaves the clock alone, or a millisecond passes because nothing is left to do. -/
theorem Turn.now_cases {es : List Event} {s' : Clockwork φ} (turn : Turn s es s') :
    s'.now = s.now ∨ (s.isQuiet = true ∧ s' = { s with now := s.now + 1 }) := by
  cases turn with
  | stride stride =>
      cases stride with
      | tick quiet => exact .inr ⟨quiet, rfl⟩
      | _ => exact .inl rfl
  | _ => exact .inl rfl

theorem now_le_play (s : Clockwork φ) (moves : List Move) : s.now ≤ (s.play moves).now := by
  induction moves generalizing s with
  | nil => exact Nat.le_refl _
  | cons m moves ih =>
      refine Nat.le_trans ?_ (ih (s.move m))
      rcases (turn_move (s := s) m).now_cases with now | ⟨-, heq⟩
      · exact Nat.le_of_eq now.symm
      · rw [heq]
        exact Nat.le_succ _

/-- No action has ended at an instant to come. -/
theorem endedAt_le {n : Nat} (h : s.endedAt position moves = some n) : n ≤ (s.play moves).now := by
  have here {c : Bool} {now : Nat} (h : (if c then some now else none) = some n) : n ≤ now := by
    split at h
    · exact Nat.le_of_eq (Option.some.inj h).symm
    · cases h
  induction moves using List.reverseRecOn with
  | nil => exact here h
  | append_singleton moves m ih =>
      rw [endedAt_append_singleton, Option.or_eq_some_iff] at h
      rcases h with earlier | ⟨-, now⟩
      · rw [play_append]
        exact Nat.le_trans (ih earlier) (now_le_play _ _)
      · exact here now

omit [Feed φ] in
/-- While the worker has something to do, the system is not quiet. -/
theorem not_quiet_of_ready (running : s.IsRunning step run) (ready : stepReady s.now run step = true) :
    s.isQuiet = false := by
  obtain ⟨b, hw⟩ := running
  simp [isQuiet, workerReady, hw, ready]

omit [Feed φ] in
/-- A worker at a run whose actions have all ended has something to do. -/
theorem not_quiet_of_ended (running : s.IsRunning step run)
    (waits : step.rank ≤ 1 → run.hasQueued = true)
    (ended : ∀ e ∈ run.entries, e.progress.isEnded = true) : s.isQuiet = false := by
  apply not_quiet_of_ready running
  cases step with
  | focusing | opening | closing => rfl
  | settling due =>
      obtain ⟨e, he, queued⟩ := List.any_eq_true.1 (waits (Nat.le_refl _))
      have finished := ended e he
      cases hp : e.progress <;> simp_all [Progress.isQueued, Progress.isEnded]
  | joining accepting =>
      have drained : run.isDrained = true :=
        List.all_eq_true.2 fun e he => by rw [ended e he, Bool.or_true]
      simp [stepReady, drained]

/-! ## The actions of a run apart -/

/-- What holds of the run of a group some moves after its dispatch. -/
structure Apart (s : Clockwork φ) (t : Ticket) (moves : List Move) (step : Step) (run : Run) :
    Prop where
  id : run.id = t.id
  actions : run.actions = t.group.actions ++ (s.journal moves).flatMap Event.layeredActions
  fates : ∀ (i : Nat) (e : Entry), run.entries[i]? = some e → s.Fate t.id i moves e
  finished : ∀ (i : Nat) (e : Entry), run.entries[i]? = some e →
    (s.endedAt i moves).isSome = e.progress.isEnded
  /-- Nothing was seen of actions that are not layered yet. -/
  blank : ∀ i : Nat, run.entries[i]? = none →
    exchangesAt t.id i (s.journal moves) = [] ∧ s.endedAt i moves = none
  /-- No time passes before the window is looked at. -/
  early : step = .focusing → (s.play moves).now = s.now
  /-- The window is only seen to for an action that waits. -/
  waits : step.rank ≤ 1 → run.hasQueued = true
  /-- The last action to end has ended just now. -/
  latest : (∀ e ∈ run.entries, e.progress.isEnded = true) → (s.play moves).now = s.now ∨
    ∃ i : Nat, i < run.entries.length ∧ s.endedAt i moves = some (s.play moves).now

theorem hasQueued_of_map {r r' : Run}
    (h : r'.entries.map (·.progress) = r.entries.map (·.progress)) : r'.hasQueued = r.hasQueued := by
  have through (r : Run) : r.hasQueued = (r.entries.map (·.progress)).any (·.isQueued) := by
    simp [Run.hasQueued, List.any_map, Function.comp_def]
  rw [through, through, h]

/-- A run whose window is seen to keeps an action that waits until it is opened. -/
theorem Turn.hasQueued {es : List Event} {s' : Clockwork φ} (turn : Turn s es s')
    (running : s.IsRunning step run) (running' : s'.IsRunning step' run') (unopened : step'.rank ≤ 1)
    (queued : run.hasQueued = true) : run'.hasQueued = true := by
  obtain ⟨b, hw⟩ := running
  obtain ⟨b', hw'⟩ := running'
  cases turn with
  | stride stride =>
      cases stride with
      | rest | tick | refocus | rewire =>
          cases hw.symm.trans hw'
          exact queued
      | focused h | activated h | settled h =>
          cases hw.symm.trans h
          cases hw'
          exact queued
      | leave | finish | begin | start | hand | miss | crash => cases hw'
      | dispatch h | handIn h => cases hw.symm.trans h
      | unfocused | opened | receive | closeEmpty | closeLate | joined =>
          cases hw'
          simp [Step.rank] at unopened
      | @poll _ accepting =>
          cases hw'
          cases accepting <;> simp [Step.rank] at unopened
  | bury | vanish | abort => cases hw'
  | layer =>
      cases hw'
      simp [Step.rank] at unopened
  | interruptAll h =>
      cases hw.symm.trans h
      cases hw'
      rw [hasQueued_of_map (Run.interruptAll_progress run), queued]
  | interruptConflicting g h =>
      cases hw.symm.trans h
      cases hw'
      rw [hasQueued_of_map (Run.interruptConflicting_progress _ run), queued]

theorem endedAt_nil (running : s.IsRunning step run) (position : Nat) :
    s.endedAt position [] =
      if run.entries[position]?.any (·.progress.isEnded) then some s.now else none := by
  simp only [endedAt, firstSeen, entryAt?_of_running running]

/-- When a run is dispatched, each of its actions waits or was skipped. -/
theorem apart_of_dispatch (requireFocus : Bool) (d : Deferred) (t : Ticket)
    (running : s.IsRunning
      (if (Run.dispatch requireFocus d t).needsFocus then .focusing else .opening)
      (Run.dispatch requireFocus d t)) :
    s.Apart t [] (if (Run.dispatch requireFocus d t).needsFocus then .focusing else .opening)
      (Run.dispatch requireFocus d t) where
  id := rfl
  actions := by simpa using (Run.dispatch_spec requireFocus d t).1
  fates := by
    intro i e he
    have ended := endedAt_nil running i
    have dispatched := (Run.dispatch_spec requireFocus d t).2 e (List.mem_of_getElem? he)
    rw [he, Option.any_some] at ended
    unfold Entry.IsDispatched at dispatched
    split at dispatched
    · refine .unstarted .cancelled dispatched.2 (.inl rfl) rfl ?_
      rw [ended, dispatched.2]
      rfl
    · refine .waiting dispatched.2 rfl ?_
      rw [ended, dispatched.2]
      rfl
  finished := by
    intro i e he
    rw [endedAt_nil running i, he, Option.any_some]
    split <;> simp_all
  blank := by
    intro i he
    rw [endedAt_nil running i, he]
    exact ⟨rfl, rfl⟩
  early := fun _ => rfl
  waits := by
    intro unopened
    cases focus : (Run.dispatch requireFocus d t).needsFocus with
    | false =>
        simp [focus, Step.rank] at unopened
    | true =>
        simp only [Run.dispatch, Bool.and_eq_true, List.any_eq_true] at focus
        obtain ⟨-, e, he, -⟩ := focus
        obtain ⟨hmem, live⟩ := List.mem_filter.1 he
        have dispatched := (Run.dispatch_spec requireFocus d t).2 e hmem
        unfold Entry.IsDispatched at dispatched
        split at dispatched
        · rw [dispatched.1] at live
          cases live
        · exact List.any_eq_true.2 ⟨e, hmem, by rw [dispatched.2]; rfl⟩
  latest := fun _ => .inl rfl

/-- As long as the worker stays at a run, it proceeds with it. -/
theorem proceeds_of_running (running : (s.play moves).IsRunning step run)
    (running' : (s.play (moves ++ [m])).IsRunning step' run') :
    (s.play moves).Proceeds step run ((s.play moves).events m) step' run' := by
  rw [play_append_singleton] at running'
  exact proceeds_of_move running running'

theorem Step.eq_focusing_of_rank {step : Step} (h : step.rank ≤ Step.focusing.rank) :
    step = .focusing := by
  cases step with
  | focusing => rfl
  | joining accepting => cases accepting <;> simp [Step.rank] at h
  | settling | opening | closing => simp [Step.rank] at h

section Move

variable {t : Ticket} (apart : s.Apart t moves step run)
  (running : (s.play moves).IsRunning step run)
  (running' : (s.play (moves ++ [m])).IsRunning step' run')
include apart running running'

/-- In one more move nothing is sent for an action that was not layered before it. -/
theorem Apart.unseen {i : Nat} (he : run.entries[i]? = none) :
    exchangesAt t.id i (s.journal (moves ++ [m])) = [] := by
  rw [exchangesAt_append_singleton, (apart.blank i he).1, List.nil_append]
  refine exchangesAt_eq_nil fun c hc _ hposition => ?_
  obtain ⟨e, hcalled, -⟩ := (proceeds_of_running running running').called c hc
  rw [hposition, he] at hcalled
  cases hcalled

/-- One more move makes fates of the fates of the actions, and lets those layered in it wait. -/
theorem Apart.fates_move (sound : (s.play moves).executor.Sound) {i : Nat} {e' : Entry}
    (he' : run'.entries[i]? = some e') : s.Fate t.id i (moves ++ [m]) e' := by
  have change := (proceeds_of_running running running').change
  cases he : run.entries[i]? with
  | none =>
      have fresh := (change.fresh i e' he he').2
      refine .waiting fresh (apart.unseen running running' he) ?_
      rw [endedAt_append_of_running running', he', (apart.blank i he).2, Option.any_some, fresh]
      rfl
  | some e =>
      have running₁ := running'
      rw [play_append_singleton] at running₁
      obtain ⟨e'', he'', meets⟩ := meets_move sound running he m running₁
      cases he'.symm.trans he''
      exact (apart.fates i e he).move running he running' he' (apart.id ▸ meets) apart.early

/-- The instant of the end of an action is known as soon as it has ended. -/
theorem Apart.finished_move {i : Nat} {e' : Entry} (he' : run'.entries[i]? = some e') :
    (s.endedAt i (moves ++ [m])).isSome = e'.progress.isEnded := by
  rw [endedAt_append_of_running running', he', Option.any_some]
  cases he : run.entries[i]? with
  | none =>
      rw [(apart.blank i he).2, Option.none_or]
      split <;> simp_all
  | some e =>
      obtain ⟨e'', he'', change⟩ := (proceeds_of_running running running').change.kept i e he
      cases he'.symm.trans he''
      have finished := apart.finished i e he
      cases hend : s.endedAt i moves with
      | none =>
          rw [Option.none_or]
          split <;> simp_all
      | some n =>
          rw [hend, Option.isSome_some] at finished
          rw [change.evolves.ended finished.symm, ← finished, Option.some_or, Option.isSome_some]

theorem Apart.blank_move {i : Nat} (he' : run'.entries[i]? = none) :
    exchangesAt t.id i (s.journal (moves ++ [m])) = [] ∧ s.endedAt i (moves ++ [m]) = none := by
  have he : run.entries[i]? = none := by
    cases he : run.entries[i]? with
    | none => rfl
    | some e =>
        obtain ⟨e', he'', -⟩ := (proceeds_of_running running running').change.kept i e he
        cases he'.symm.trans he''
  refine ⟨apart.unseen running running' he, ?_⟩
  rw [endedAt_append_of_running running', he', (apart.blank i he).2]
  rfl

/-- No time passes between two moves at which the window is still to be looked at. -/
theorem Apart.early_move (unseen : step' = .focusing) : (s.play (moves ++ [m])).now = s.now := by
  subst unseen
  have hstep := Step.eq_focusing_of_rank (proceeds_of_running running running').forward
  subst hstep
  rw [play_append_singleton]
  rcases (turn_move (s := s.play moves) m).now_cases with now | ⟨quiet, -⟩
  · exact now.trans (apart.early rfl)
  · rw [not_quiet_of_ready running rfl] at quiet
    cases quiet

/-- When all actions have ended, the last one has done so in this move or earlier at this instant. -/
theorem Apart.latest_move (ended' : ∀ e ∈ run'.entries, e.progress.isEnded = true) :
    (s.play (moves ++ [m])).now = s.now ∨
      ∃ i : Nat, i < run'.entries.length ∧
        s.endedAt i (moves ++ [m]) = some (s.play (moves ++ [m])).now := by
  have proceeds := proceeds_of_running running running'
  have turn := turn_move (s := s.play moves) m
  rw [← play_append_singleton] at turn
  rcases turn.now_cases with now | ⟨quiet, heq⟩
  · by_cases ended : ∀ e ∈ run.entries, e.progress.isEnded = true
    · rcases apart.latest ended with first | ⟨i, hi, last⟩
      · exact .inl (now.trans first)
      · refine .inr ⟨i, Nat.lt_of_lt_of_le hi proceeds.course.length_le, ?_⟩
        rw [endedAt_append_of_running running', last, Option.some_or, now]
    · -- the action that was still under way has ended in this move
      simp only [not_forall] at ended
      obtain ⟨e, hmem, going⟩ := ended
      obtain ⟨i, he⟩ := List.mem_iff_getElem?.1 hmem
      obtain ⟨e', he', -⟩ := proceeds.change.kept i e he
      have unended : s.endedAt i moves = none := by
        have finished := apart.finished i e he
        rw [eq_false_of_ne_true going, Option.isSome_eq_false_iff] at finished
        exact Option.isNone_iff_eq_none.1 finished
      refine .inr ⟨i, (List.getElem?_eq_some_iff.1 he').1, ?_⟩
      rw [endedAt_append_of_running running', unended, he', Option.none_or, Option.any_some,
        if_pos (ended' e' (List.mem_of_getElem? he'))]
  · -- time does not pass once all actions have ended
    have same : run' = run := by
      obtain ⟨b, hw⟩ := running
      obtain ⟨b', hw'⟩ := running'
      rw [heq] at hw'
      cases hw.symm.trans hw'
      rfl
    rw [not_quiet_of_ended running apart.waits (same ▸ ended')] at quiet
    cases quiet

/-- What is said of the actions of a run apart is still true after one more move. -/
theorem Apart.move (sound : (s.play moves).executor.Sound) : s.Apart t (moves ++ [m]) step' run' where
  id := (proceeds_of_running running running').change.id.trans apart.id
  actions := by
    rw [(proceeds_of_running running running').change.actions, apart.actions, journal_append,
      journal_cons, journal_nil, List.append_nil, List.flatMap_append, List.append_assoc]
  fates := fun _ _ he' => apart.fates_move running running' sound he'
  finished := fun _ _ he' => apart.finished_move running running' he'
  blank := fun _ he' => apart.blank_move running running' he'
  early := apart.early_move running running'
  waits := by
    intro unopened
    have turn := turn_move (s := s.play moves) m
    rw [← play_append_singleton] at turn
    exact turn.hasQueued running running' unopened
      (apart.waits (Nat.le_trans (proceeds_of_running running running').forward unopened))
  latest := apart.latest_move running running'

end Move

/-! ## The report -/

/-- The move that makes the report of a run comes to nothing for its actions. -/
theorem impact_of_finish {fault : Option InputError} {report : Report}
    (running : s.IsRunning (.closing fault) run) (reporting : (s.move m).IsReporting report)
    (position : Nat) (a : Action) : s.impact position a m = none := by
  obtain ⟨b, hw⟩ := running
  obtain ⟨b', faulty, hw'⟩ := reporting
  cases m with
  | work | closeLate | start | abort | setFocus | setDevice => simp [impact]
  | poll other => simp [move, poll, hw] at hw'
  | tick =>
      have same : (s.move .tick).executor = s.executor := by
        simp only [move, tick]
        split <;> rfl
      rw [same, hw] at hw'
      cases hw'
  | request r =>
      cases r with
      | layer g => simp [impact]
      | interruptAll =>
          simp only [move, Executor.serve, Executor.interruptAll_fst, Executor.mapStage_of_some hw]
            at hw'
          cases hw'
      | interruptConflicting g =>
          simp only [move, Executor.serve, Executor.interruptConflicting_fst,
            Executor.mapStage_of_some hw] at hw'
          cases hw'
  | requestStop =>
      simp [move, Executor.requestStop, hw, Executor.interruptAll, Executor.setStage] at hw'

/-- What holds of the report of a group until it is handed in. -/
structure Reported (s : Clockwork φ) (t : Ticket) (moves : List Move) (report : Report)
    (entries : List Entry) : Prop where
  outcomes : report.outcomes = entries.map Entry.outcome
  actions : entries.map (·.action) =
    t.group.actions ++ (s.journal moves).flatMap Event.layeredActions
  fates : ∀ (i : Nat) (e : Entry), entries[i]? = some e →
    s.Fate t.id i moves e ∧ (s.endedAt i moves).isSome = true
  latest : (s.play moves).now =
    ((List.range entries.length).filterMap (s.endedAt · moves)).foldl max s.now

/-- The latest of some instants, when none is later than the clock and one is as late. -/
theorem foldl_max_eq {first now : Nat} {ends : List Nat} (hfirst : first ≤ now)
    (hends : ∀ n ∈ ends, n ≤ now) (h : now = first ∨ now ∈ ends) : now = ends.foldl max first := by
  induction ends generalizing first with
  | nil => exact h.resolve_right List.not_mem_nil
  | cons n ends ih =>
      have hn := hends n List.mem_cons_self
      refine ih (Nat.max_le.2 ⟨hfirst, hn⟩) (fun n' hn' => hends n' (List.mem_cons_of_mem _ hn')) ?_
      rcases h with rfl | h
      · exact .inl (Nat.max_eq_left hn).symm
      · rcases List.mem_cons.1 h with rfl | h
        · exact .inl (Nat.max_eq_right hfirst).symm
        · exact .inr h

/-- A worker with a report has no entries, so no action is seen to end. -/
theorem endedAt_of_reporting {report : Report}
    (reporting : (s.play (moves ++ [m])).IsReporting report) (position : Nat) :
    s.endedAt position (moves ++ [m]) = s.endedAt position moves := by
  obtain ⟨b, faulty, hw⟩ := reporting
  have gone : (s.play (moves ++ [m])).entryAt? position = none := by
    simp [entryAt?, Executor.run?, hw]
  rw [endedAt_append_singleton, gone]
  exact Option.or_none

/-- The report is made at the instant at which the last action has ended. -/
theorem Apart.reported {t : Ticket} {report : Report} (apart : s.Apart t moves step run)
    (sound : (s.play moves).executor.Sound) (running : (s.play moves).IsRunning step run)
    (reporting : (s.play (moves ++ [m])).IsReporting report) :
    s.Reported t (moves ++ [m]) report run.entries := by
  have ended := endedAt_of_reporting reporting
  rw [play_append_singleton] at reporting
  have turn := turn_move (s := s.play moves) m
  obtain ⟨silent, hreport, fault, rfl⟩ : (s.play moves).events m = [] ∧ report = run.report ∧
      ∃ fault, step = .closing fault := by
    obtain ⟨b, faulty, hw⟩ := reporting
    rcases turn.proceeds running with
      ⟨_, _, ⟨_, hw'⟩, -⟩ | ⟨silent, ⟨_, _, hw'⟩, fault⟩ | ⟨-, gone⟩
    · cases hw.symm.trans hw'
    · cases hw.symm.trans hw'
      exact ⟨silent, rfl, fault⟩
    · cases hw.symm.trans gone
  subst hreport
  have now : (s.play (moves ++ [m])).now = (s.play moves).now := by
    rw [play_append_singleton]
    refine turn.now_cases.resolve_right ?_
    rintro ⟨quiet, -⟩
    obtain ⟨b, hw⟩ := running
    simp [isQuiet, workerReady, hw, stepReady] at quiet
  have finished : ∀ e ∈ run.entries, e.progress.isEnded = true := by
    obtain ⟨b, hw⟩ := running
    exact (sound _ _ _ hw).1
  refine ⟨rfl, ?actions, ?fates, ?latest⟩
  case actions =>
    rw [journal_append, journal_cons, journal_nil, silent, List.append_nil, List.append_nil]
    exact apart.actions
  case fates =>
    intro i e he
    refine ⟨(apart.fates i e he).rest now silent (impact_of_finish running reporting i) (ended i), ?_⟩
    rw [ended, apart.finished i e he]
    exact finished e (List.mem_of_getElem? he)
  case latest =>
    simp only [now, ended]
    refine foldl_max_eq (now_le_play s moves) ?_ ?_
    · intro n hn
      obtain ⟨i, -, hi⟩ := List.mem_filterMap.1 hn
      exact endedAt_le hi
    · rcases apart.latest finished with first | ⟨i, hi, last⟩
      · exact .inl first
      · exact .inr (List.mem_filterMap.2 ⟨i, List.mem_range.2 hi, last⟩)

/-- Until the report is handed in nothing more comes of the actions. -/
theorem Reported.rest {t : Ticket} {report : Report} {entries : List Entry}
    (reported : s.Reported t moves report entries) (reporting : (s.play moves).IsReporting report)
    (silent : (s.play moves).events m = [])
    (reporting' : (s.play (moves ++ [m])).IsReporting report) :
    s.Reported t (moves ++ [m]) report entries := by
  have ended := endedAt_of_reporting reporting'
  obtain ⟨b, faulty, hw⟩ := reporting
  have now : (s.play (moves ++ [m])).now = (s.play moves).now := by
    rw [play_append_singleton]
    refine (turn_move (s := s.play moves) m).now_cases.resolve_right ?_
    rintro ⟨quiet, -⟩
    simp [isQuiet, workerReady, hw] at quiet
  have idle (i : Nat) (a : Action) : (s.play moves).impact i a m = none := by
    simp [impact, Executor.run?, hw]
  refine ⟨reported.outcomes, ?actions, ?fates, ?latest⟩
  case actions =>
    rw [journal_append, journal_cons, journal_nil, silent, List.append_nil, List.append_nil]
    exact reported.actions
  case fates =>
    intro i e he
    obtain ⟨fate, finished⟩ := reported.fates i e he
    exact ⟨fate.rest now silent (idle i) (ended i), by rw [ended, finished]⟩
  case latest =>
    simp only [now, ended]
    exact reported.latest

/-- From its dispatch to its report a group is followed action by action. -/
theorem apart_play {t : Ticket} (sound : s.executor.Sound) (running : s.IsRunning step run)
    (apart : s.Apart t [] step run) (later : List Move)
    (own : ∀ e ∈ s.journal later, e.isOf t.id = true) :
    (∃ step' run', (s.play later).IsRunning step' run' ∧ s.Apart t later step' run') ∨
    ∃ report entries, (s.play later).IsReporting report ∧ s.Reported t later report entries := by
  induction later using List.reverseRecOn with
  | nil => exact .inl ⟨step, run, running, apart⟩
  | append_singleton moves m ih =>
      rw [journal_append, journal_cons, journal_nil, List.append_nil] at own
      have own' := fun e he => own e (List.mem_append_right _ he)
      have turn := turn_move (s := s.play moves) m
      rw [← play_append_singleton] at turn
      rcases ih fun e he => own e (List.mem_append_left _ he) with
        ⟨step', run', running', apart'⟩ | ⟨report, entries, reporting, reported⟩
      · rcases turn.proceeds running' with
          ⟨step'', run'', running'', -⟩ | ⟨-, reporting, -⟩ | ⟨aborted, -⟩
        · exact .inl ⟨step'', run'', running'', apart'.move running' running'' (Sound.play sound moves)⟩
        · exact .inr ⟨_, _, reporting, apart'.reported (Sound.play sound moves) running' reporting⟩
        · cases own' _ aborted
      · have whole : ∀ e ∈ (s.play moves).events m, e.isLoss = false := by
          intro e he
          have mine := own' e he
          cases e <;> simp_all [Event.isOf, Event.isLoss]
        rcases turn.reports whole reporting with ⟨silent, reporting'⟩ | handed
        · exact .inr ⟨report, entries, reporting', reported.rest reporting silent reporting'⟩
        · cases own' (.reported report) (by rw [handed]; exact List.mem_singleton.2 rfl)

/--
Follow a group from its dispatch on, as long as it is not reported and its worker is not taken away.
Its actions are those it was handed out with and those layered onto it. Each of them waits to be
started; or it never was, because an interrupt hit it before its dispatch or the window could not
be activated; or it was started at some moment. Since then it is what it would be alone, started
at that instant: with the same exchanges at the same instants, cancelled by the same moves and
answered alike, it has come as far and ended at the same instant. When the report is made it gives
each action as it ended, at the latest of the instants at which they ended.
-/
theorem group_runs_apart {b : Bool} {t : Ticket} {d : Deferred}
    (taken : s.executor.worker = some ⟨b, .taken t d⟩) (later : List Move) :
    let s' := s.move .work
    (∀ e ∈ s'.journal later, e.isOf t.id = true) →
      (∃ step run, (s'.play later).IsRunning step run ∧
        run.actions = t.group.actions ++ (s'.journal later).flatMap Event.layeredActions ∧
        ∀ (i : Nat) (e : Entry), run.entries[i]? = some e → s'.Fate t.id i later e) ∨
      ∃ report entries, (s'.play later).IsReporting report ∧ s'.Reported t later report entries := by
  intro s' own
  have sound : s'.executor.Sound := (turn_move .work).sound (sound_idle (by simp [taken]))
  have running : s'.IsRunning
      (if (Run.dispatch s.executor.target.requireFocus d t).needsFocus then .focusing else .opening)
      (Run.dispatch s.executor.target.requireFocus d t) := by
    refine ⟨b, ?_⟩
    simp [s', Clockwork.move, workerStep, workerReady, taken, dispatch, enter, Executor.setStage]
  rcases apart_play sound running (apart_of_dispatch _ d t running) later own with
    ⟨step, run, running', apart⟩ | reported
  · exact .inl ⟨step, run, running', apart.actions, apart.fates⟩
  · exact .inr reported

end Clockwork

end Combo
