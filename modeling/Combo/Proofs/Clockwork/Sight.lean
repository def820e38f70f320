-- SUMMARY: What the worker finds when it looks at the game window, and what it may do after that.
import Combo.Proofs.Clockwork.Entries
import Combo.Proofs.Clockwork.Handout
import Combo.Proofs.Clockwork.Parallel

/-!
# Looks at the window

The worker looks at the game window in one step only, the first of a run that
needs the focus. `sight?` is what it finds there: the window is active, or it
could be activated, or it could not. `Sight.Allows` says where the worker may be
afterwards: anywhere, or nowhere before the window had time to settle unless the
run was cancelled, or at the end of the run; and a worker that is allowed to be
somewhere is allowed to be where it gets to.

A run that needs no focus has only actions that need none, or were cancelled
before it began, and none that need it are layered onto it.
-/

namespace Combo

/-- What the worker finds when it looks at the game window. -/
inductive Sight where
  | active
  /-- The window was not active, and could be activated. -/
  | activated
  /-- The window was not active, and could not be activated. -/
  | failed (fault : InputError)
  deriving DecidableEq

/-- What a look at the window would find. -/
def Focus.sight (f : Focus) : Sight :=
  if f.isActive then .active
  else match f.activate.2 with
    | none => .activated
    | some fault => .failed fault

/--
Whether the worker may be at a step at some instant after a look at the window, which is given time to
settle after it was activated.
-/
inductive Sight.Allows (looked settleMs now : Nat) (cancelled : Bool) : Sight → Step → Prop where
  | active {step : Step} : Allows looked settleMs now cancelled .active step
  | settling : Allows looked settleMs now cancelled .activated (.settling (looked + settleMs))
  | settled {step : Step} (elapsed : cancelled = true ∨ looked + settleMs ≤ now) :
      Allows looked settleMs now cancelled .activated step
  | failed {fault : InputError} {cause : Option InputError} :
      Allows looked settleMs now cancelled (.failed fault) (.closing cause)

/-- Whether a run that needs no focus has no action left that needs it. -/
def Run.IsModest (r : Run) : Prop :=
  r.needsFocus = false → ∀ e ∈ r.entries, e.action.kind.needsFocus = true →
    e.progress = .ended .cancelled

/-- A group that is dispatched without need of the focus has no action left that needs it. -/
theorem Run.isModest_dispatch (d : Deferred) (t : Ticket) : (dispatch true d t).IsModest := by
  intro needsNone e he needs
  have dispatched := (dispatch_spec true d t).2 e he
  have unlisted : e.cancelled = true := by
    have hidden : ¬(e ∈ listed (dispatch true d t).entries) := by
      intro hmem
      have : (dispatch true d t).needsFocus = true := List.any_eq_true.2 ⟨e, hmem, needs⟩
      rw [needsNone] at this
      cases this
    cases hc : e.cancelled with
    | true => rfl
    | false => exact absurd (List.mem_filter.2 ⟨he, by simp [hc]⟩) hidden
  unfold Entry.IsDispatched at dispatched
  split at dispatched
  · exact dispatched.2
  · rw [dispatched.1] at unlisted
    cases unlisted

/-- Whether an action is never between two presses if it needs no focus. -/
def Entry.IsStill (e : Entry) : Prop :=
  e.action.kind.needsFocus = false → ∀ left due, e.progress ≠ .pressing left due

theorem Kind.eq_wait_of_needsFocus {kind : Kind} (h : kind.needsFocus = false) : kind = .wait := by
  simpa [needsFocus] using h

/-- What a poll of a pause makes of it. -/
theorem Action.poll_of_wait {device : Device} {attackMs now : Nat} {a : Action} {cancelled : Bool}
    {p p' : Progress} {exchange : Option Exchange} (wait : a.kind = .wait)
    (still : ∀ left due, p ≠ .pressing left due)
    (h : p.poll device attackMs now a cancelled = (p', exchange)) :
    (∀ left due, p' ≠ .pressing left due) ∧ ∀ x ∈ exchange, x.1.acts = false := by
  have released (input : Input) {ending : Ending}
      (h : device.ask (.up input) (.ended ending) = (p', exchange)) :
      (∀ left due, p' ≠ .pressing left due) ∧ ∀ x ∈ exchange, x.1.acts = false := by
    rcases device.ask_cases (.up input) (.ended ending) with heq | ⟨message, response, -, heq⟩ <;>
      (rw [heq] at h; cases h; simp [Command.acts])
  cases p with
  | queued | ended =>
      cases h
      simp
  | ready =>
      have plan : a.plan attackMs = .pause a.millis := by simp [plan, wait]
      simp only [Progress.poll, plan, Plan.start] at h
      split at h <;> (cases h; simp)
  | pressing left due => exact absurd rfl (still left due)
  | holding input due =>
      simp only [Progress.poll] at h
      split at h
      · exact released input h
      · split at h
        · exact released input h
        · cases h
          simp
  | pausing due =>
      simp only [Progress.poll] at h
      split at h
      · cases h
        simp
      · split at h <;> (cases h; simp)

/-- Whatever happens to an action, it is not between presses if it needs no focus. -/
theorem Entry.Change.isStill {device : Device} {attackMs now : Nat} {e e' : Entry}
    (change : Change device attackMs now e e') (h : e.IsStill) : e'.IsStill := by
  intro needsNone
  rw [change.evolves.action] at needsNone
  have still := h needsNone
  cases change with
  | stay | cancel => exact still
  | release =>
      unfold Entry.release
      split
      · simp
      · exact still
  | fail message =>
      unfold Entry.fail
      split
      · exact still
      · simp
  | poll ready hpoll => exact (Action.poll_of_wait (Kind.eq_wait_of_needsFocus needsNone) still hpoll).1

namespace Clockwork

variable {φ : Type}

/-- What the worker finds in its next step, if it looks at the window in it. -/
def sight? (s : Clockwork φ) : Option Sight :=
  match s.executor.worker with
  | some ⟨_, .running .focusing _⟩ => some s.executor.focus.sight
  | _ => none

variable [Feed φ] {s s' : Clockwork φ} {es : List Event} {m : Move} {moves : List Move} {b : Bool}
  {step step' : Step} {run run' : Run} {id : Nat} {sight : Sight}

omit [Feed φ] in
theorem sight?_of_some (hw : s.executor.worker = some ⟨b, .running .focusing run⟩) :
    s.sight? = some s.executor.focus.sight := by
  simp [sight?, hw]

omit [Feed φ] in
theorem sight?_of_running (running : s.IsRunning step run) (away : step ≠ .focusing) :
    s.sight? = none := by
  obtain ⟨b, hw⟩ := running
  cases step with
  | focusing => exact absurd rfl away
  | settling | opening | joining | closing => simp [sight?, hw]

omit [Feed φ] in
theorem sight?_of_run? (h : s.executor.run? = none) : s.sight? = none := by
  unfold sight?
  split
  · rename_i b run hw
    rw [Executor.run?_of_some hw] at h
    cases h
  · rfl

/-! ## One move -/

/-- No turn changes which window the executor is for. -/
theorem Turn.target (turn : Turn s es s') : s'.executor.target = s.executor.target := by
  cases turn with
  | stride stride => cases stride <;> rfl
  | _ => rfl

/-- What comes of a look at the window: nothing is seen of it, and it takes no time. -/
theorem work_focusing (hw : s.executor.worker = some ⟨b, .running .focusing run⟩) :
    (s.move .work).now = s.now ∧ s.events .work = [] ∧
      (s.move .work).executor.worker = some ⟨b, match s.executor.focus.sight with
        | .active => .running .opening run
        | .activated => .running (.settling (s.now + s.executor.target.settleMs)) run
        | .failed fault => .running (.closing (some fault)) (run.failAll fault.message)⟩ := by
  have hmove : s.move .work = s.seeToFocus run := by
    rw [move_work hw]
    rfl
  refine ⟨?_, by simp [events, workEvents, hw], ?_⟩ <;> rw [hmove, seeToFocus]
  · split
    · rfl
    · rcases s.executor.focus.activate with ⟨focus, _ | fault⟩ <;> rfl
  · rw [Focus.sight]
    split
    · simp [setStage, Executor.setStage, hw]
    · rcases s.executor.focus.activate with ⟨focus, _ | fault⟩ <;>
        simp [setStage, Executor.setStage, hw]

/-- A worker that is about to look at the window gets on with the run only by a look. -/
theorem eq_work_of_focusing (running : s.IsRunning .focusing run)
    (running' : (s.move m).IsRunning step' run') (away : step' ≠ .focusing) : m = .work := by
  obtain ⟨b, hw⟩ := running
  obtain ⟨b', hw'⟩ := running'
  cases m with
  | work => rfl
  | closeLate | poll | start =>
      simp only [move, closeLate, poll, Executor.start, hw] at hw'
      cases hw'
      exact absurd rfl away
  | tick =>
      simp only [move, tick] at hw'
      split at hw' <;> (cases hw.symm.trans hw'; exact absurd rfl away)
  | setFocus | setDevice =>
      cases hw.symm.trans hw'
      exact absurd rfl away
  | request r =>
      cases r with
      | interruptAll =>
          simp only [move, Executor.serve, Executor.interruptAll_fst, Executor.mapStage_of_some hw] at hw'
          cases hw'
          exact absurd rfl away
      | interruptConflicting g =>
          simp only [move, Executor.serve, Executor.interruptConflicting_fst,
            Executor.mapStage_of_some hw] at hw'
          cases hw'
          exact absurd rfl away
      | layer g =>
          simp only [move, Executor.serve, Executor.layer, hw] at hw'
          cases hw'
          exact absurd rfl away
  | requestStop =>
      simp only [move, Executor.requestStop, hw, Executor.interruptAll_fst, Executor.mapStage] at hw'
      cases hw'
      exact absurd rfl away
  | abort =>
      simp only [move, Executor.abort, Executor.run?_of_some hw, Stage.run?] at hw'
      cases hw'

/-- A window that is given time to settle is left to itself until it had it, or the run is cancelled. -/
theorem Turn.settling {due : Nat} (turn : Turn s es s') (running : s.IsRunning (.settling due) run)
    (running' : s'.IsRunning step' run') :
    step' = .settling due ∨ run'.cancelled = true ∨ due ≤ s'.now := by
  obtain ⟨b, hw⟩ := running
  obtain ⟨b', hw'⟩ := running'
  have same (h : s'.executor.worker = s.executor.worker) : step' = .settling due := by
    rw [h] at hw'
    cases hw.symm.trans hw'
    rfl
  cases turn with
  | stride stride =>
      cases stride with
      | rest | tick | refocus | rewire => exact .inl (same rfl)
      | settled hw₁ ready =>
          cases hw.symm.trans hw₁
          cases hw'
          exact .inr ready
      | leave hw₁ top | begin hw₁ top =>
          cases hw.symm.trans hw₁
          rcases top with top | ⟨_, top⟩ <;> simp at top
      | _ hw₁ => cases hw.symm.trans hw₁
  | interruptAll hw₁ | interruptConflicting group hw₁ =>
      cases hw.symm.trans hw₁
      cases hw'
      exact .inl rfl
  | bury hw₁ | layer group hw₁ => cases hw.symm.trans hw₁
  | abort | vanish => cases hw'

/-- What a look allowed is allowed on as long as the run goes on. -/
theorem allows_move {looked settleMs : Nat} (running : s.IsRunning step run)
    (away : step ≠ .focusing) (allowed : sight.Allows looked settleMs s.now run.cancelled step)
    (running' : (s.move m).IsRunning step' run') :
    sight.Allows looked settleMs (s.move m).now run'.cancelled step' := by
  have proceeds := proceeds_of_move running running'
  have later : s.now ≤ (s.move m).now := now_le_play s [m]
  cases allowed with
  | active => exact .active
  | settling =>
      rcases (turn_move m).settling running running' with rfl | elapsed
      · exact .settling
      · exact .settled elapsed
  | settled elapsed =>
      exact .settled (elapsed.imp proceeds.change.cancelled fun passed => Nat.le_trans passed later)
  | failed =>
      have forward := proceeds.forward
      cases step' with
      | closing cause => exact .failed
      | joining accepting => cases accepting <;> simp [Step.rank] at forward
      | focusing | settling | opening => simp [Step.rank] at forward

/-- Whether a run that is past its look was so before, and what the look allowed then it allows on. -/
structure LooksOn (settleMs now now' : Nat) (es : List Event) (step : Step) (run : Run) (step' : Step)
    (run' : Run) : Prop where
  away : step ≠ .focusing
  needs : run.needsFocus = true
  id : run.id = run'.id
  own : ∀ e ∈ es, e.isOf run'.id = true
  allows : ∀ {sight : Sight} {looked : Nat}, sight.Allows looked settleMs now run.cancelled step →
    sight.Allows looked settleMs now' run'.cancelled step'

/-- A run that needs the focus is past its look after a move if that was the look, or it was so before. -/
theorem look_move (running' : (s.move m).IsRunning step' run') (needs : run'.needsFocus = true)
    (away : step' ≠ .focusing) :
    (m = .work ∧ s.events m = [] ∧ ∃ run, s.IsRunning .focusing run ∧ run.id = run'.id ∧
      s.executor.focus.sight.Allows s.now s.executor.target.settleMs (s.move m).now run'.cancelled step') ∨
    ∃ step run, s.IsRunning step run ∧
      LooksOn s.executor.target.settleMs s.now (s.move m).now (s.events m) step run step' run' := by
  cases before : s.executor.run? with
  | none =>
      obtain ⟨-, -, -, -, -, hstep⟩ := (turn_move m).dispatches_to before running'
      rw [needs] at hstep
      exact absurd hstep away
  | some run =>
      obtain ⟨step, running⟩ := exists_isRunning before
      have proceeds := proceeds_of_move running running'
      by_cases looking : step = .focusing
      · subst looking
        cases eq_work_of_focusing running running' away
        obtain ⟨b, hw⟩ := id running
        obtain ⟨now, silent, hw'⟩ := work_focusing hw
        refine .inl ⟨rfl, silent, run, running, proceeds.change.id.symm, ?_⟩
        obtain ⟨b', hw₁⟩ := running'
        rw [hw₁] at hw'
        rw [now]
        cases found : s.executor.focus.sight <;> rw [found] at hw' <;> cases hw'
        · exact .active
        · exact .settling
        · exact .failed
      · exact .inr ⟨step, run, running, looking, proceeds.change.needsFocus.symm.trans needs,
          proceeds.change.id.symm, proceeds.change.id ▸ proceeds.own,
          fun allowed => allows_move running looking allowed running'⟩

/-! ## Without need of the focus -/

/-- A group that needs the focus is layered only onto a run that needed it. -/
theorem Turn.needsFocus_of_layered (turn : Turn s es s') (running : s.IsRunning step run)
    {g : Group} (layered : .layered g ∈ es) (needs : s.executor.needsFocus g = true) :
    run.needsFocus = true := by
  obtain ⟨b, hw⟩ := running
  cases turn with
  | stride stride => cases stride <;> simp at layered
  | layer group hw₁ alive focus =>
      cases hw.symm.trans hw₁
      cases List.mem_singleton.1 layered
      exact focus needs
  | bury | interruptAll | interruptConflicting | abort | vanish => simp at layered

/-- Of an executor that requires the focus every run stays modest. -/
theorem Turn.isModest (turn : Turn s es s') (required : s.executor.target.requireFocus = true)
    (h : ∀ run, s.executor.run? = some run → run.IsModest) :
    ∀ run', s'.executor.run? = some run' → run'.IsModest := by
  intro run' after
  cases before : s.executor.run? with
  | none =>
      obtain ⟨b, t, d, -, rfl⟩ := turn.dispatches before after
      rw [required]
      exact Run.isModest_dispatch d t
  | some run =>
      obtain ⟨step, running⟩ := exists_isRunning before
      obtain ⟨step', running'⟩ := exists_isRunning after
      rcases turn.proceeds running with ⟨step₁, run₁, running₁, proceeds⟩ | ⟨-, reporting, -⟩ | ⟨-, gone⟩
      · obtain ⟨rfl, rfl⟩ := running₁.unique running'
        intro needsNone e' he' needs
        rw [proceeds.change.needsFocus] at needsNone
        obtain ⟨i, hi⟩ := List.mem_iff_getElem?.1 he'
        cases he : run.entries[i]? with
        | some e =>
            obtain ⟨e'', hi'', change⟩ := proceeds.change.kept i e he
            cases hi.symm.trans hi''
            rw [change.evolves.action] at needs
            have ended := h run before needsNone e (List.mem_of_getElem? he) needs
            rw [change.evolves.ended (by rw [ended]; rfl), ended]
        | none =>
            -- a layered action needs the focus only if the run does
            have added : e'.action ∈ es.flatMap Event.layeredActions := by
              have hactions := congrArg (fun actions : List Action => actions[i]?) proceeds.change.actions
              simp only [Run.actions, List.getElem?_map, hi, Option.map_some] at hactions
              rw [List.getElem?_append_right (by simpa using he)] at hactions
              exact List.mem_of_getElem? hactions.symm
            obtain ⟨event, hevent, ha⟩ := List.mem_flatMap.1 added
            cases event with
            | layered g =>
                have needs' : s.executor.needsFocus g = true := by
                  simp only [Executor.needsFocus, required, Bool.true_and, List.any_eq_true]
                  exact ⟨_, List.mem_map_of_mem ha, needs⟩
                rw [turn.needsFocus_of_layered running hevent needs'] at needsNone
                cases needsNone
            | asked | called | reported | left | aborted => cases ha
      · exact absurd running' reporting.not_isRunning
      · obtain ⟨b, hw⟩ := running'
        cases hw.symm.trans gone

/-- No turn leaves an action between two presses that needs no focus. -/
theorem Turn.isStill (turn : Turn s es s')
    (h : ∀ run, s.executor.run? = some run → ∀ e ∈ run.entries, e.IsStill) :
    ∀ run', s'.executor.run? = some run' → ∀ e ∈ run'.entries, e.IsStill := by
  refine turn.forall_entries (fun _ _ _ _ _ change => change.isStill) ?_ ?_ h
  · intro e isFresh _
    simp [isFresh.2]
  · intro e _ ended _
    simp [ended]

end Clockwork

/-- A command that holds, presses or moves something is sent only in a run that needed the focus. -/
theorem Run.needsFocus_of_polled {run : Run} {e : Entry} {device : Device} {attackMs now : Nat} {p : Progress}
    {command : Command} {response : Response} (modest : run.IsModest) (he : e ∈ run.entries) (still : e.IsStill)
    (ready : e.runnable now = true)
    (hpoll : e.progress.poll device attackMs now e.action e.cancelled = (p, some (command, response)))
    (acts : command.acts = true) : run.needsFocus = true := by
  cases needs : run.needsFocus with
  | true => rfl
  | false =>
      cases kind : e.action.kind.needsFocus with
      | true =>
          have ended := modest needs e he kind
          simp [Entry.runnable, ended, Progress.runnable] at ready
      | false =>
          have silent := (Action.poll_of_wait (Kind.eq_wait_of_needsFocus kind) (still kind) hpoll).2
            _ rfl
          rw [acts] at silent
          cases silent

end Combo
