-- SUMMARY: What holds of every entry of every run: an action holds no input but the one its kind drives.
import Combo.Proofs.Clockwork.Course

/-!
# All entries of all runs

A worker comes to a run only when it dispatches a group. So a property of entries
that holds of those that are dispatched or layered, and survives every change,
holds of all entries of the run of every executor; `Turn.forall_entries` says so
for one turn. That an action holds only its own input is such a property.
-/

namespace Combo

namespace Clockwork

variable {φ : Type} [Feed φ] {s s' : Clockwork φ} {es : List Event}

omit [Feed φ] in
theorem exists_isRunning {run : Run} (h : s.executor.run? = some run) :
    ∃ step, s.IsRunning step run := by
  unfold Executor.run? at h
  split at h
  · rename_i b step run' hw
    cases h
    exact ⟨step, b, hw⟩
  · cases h

/-- A worker that comes to a run has dispatched it, and looks at the window first if the run needs it. -/
theorem Turn.dispatches_to (turn : Turn s es s') (before : s.executor.run? = none) {step : Step}
    {run : Run} (after : s'.IsRunning step run) :
    ∃ b t d, s.executor.worker = some ⟨b, .taken t d⟩ ∧
      run = Run.dispatch s.executor.target.requireFocus d t ∧
      step = if run.needsFocus then .focusing else .opening := by
  obtain ⟨b', after⟩ := after
  have same : s'.executor.worker = s.executor.worker → False := by
    intro hw
    rw [hw] at after
    rw [Executor.run?_of_some after] at before
    cases before
  cases turn with
  | stride stride =>
      cases stride with
      | dispatch hw hrun =>
          cases after
          exact ⟨_, _, _, hw, hrun, rfl⟩
      | rest | tick | refocus | rewire => exact (same rfl).elim
      | handIn hw hstage =>
          cases after
          split at hstage <;> cases hstage
      | start | leave | begin | hand | miss | crash | finish => cases after
      | focused hw | activated hw | unfocused hw | settled hw | opened hw | receive hw
      | closeEmpty hw | closeLate hw | joined hw | poll hw => simp [Executor.run?, hw] at before
  | @interruptAll b stopping stage hw | @interruptConflicting b stage group hw =>
      cases stage <;>
        simp_all [Executor.run?, Stage.interruptAll, Stage.interruptConflicting]
  | layer group hw => simp [Executor.run?, hw] at before
  | bury | abort | vanish => cases after

/-- A worker that comes to a run has dispatched it. -/
theorem Turn.dispatches (turn : Turn s es s') (before : s.executor.run? = none) {run : Run}
    (after : s'.executor.run? = some run) :
    ∃ b t d, s.executor.worker = some ⟨b, .taken t d⟩ ∧
      run = Run.dispatch s.executor.target.requireFocus d t := by
  obtain ⟨step, running⟩ := exists_isRunning after
  obtain ⟨b, t, d, hw, hrun, -⟩ := turn.dispatches_to before running
  exact ⟨b, t, d, hw, hrun⟩

/-- A property of new entries that survives every change survives a turn in the whole run. -/
theorem Turn.forall_entries {P : Entry → Prop} (turn : Turn s es s')
    (stable : ∀ device attackMs now e e', Entry.Change device attackMs now e e' → P e → P e')
    (fresh : ∀ e : Entry, e.IsFresh → P e)
    (skipped : ∀ e : Entry, e.cancelled = true → e.progress = .ended .cancelled → P e)
    (h : ∀ run, s.executor.run? = some run → ∀ e ∈ run.entries, P e) :
    ∀ run, s'.executor.run? = some run → ∀ e ∈ run.entries, P e := by
  intro run' after
  cases before : s.executor.run? with
  | none =>
      obtain ⟨b, t, d, -, rfl⟩ := turn.dispatches before after
      intro e he
      have dispatched := (Run.dispatch_spec s.executor.target.requireFocus d t).2 e he
      unfold Entry.IsDispatched at dispatched
      split at dispatched
      · exact skipped e dispatched.1 dispatched.2
      · exact fresh e dispatched
  | some run =>
      obtain ⟨step, running⟩ := exists_isRunning before
      rcases turn.proceeds running with
        ⟨step', run'', ⟨b, hw⟩, proceeds⟩ | ⟨-, ⟨b, faulty, hw⟩, -⟩ | ⟨-, hw⟩
      · rw [Executor.run?_of_some hw] at after
        cases after
        exact proceeds.change.forall_entries (fun e e' => stable _ _ _ e e') fresh (h run before)
      · rw [Executor.run?_of_some hw] at after
        cases after
      · rw [Executor.run?_of_none hw] at after
        cases after

end Clockwork

/-! ## Inputs of one's own -/

/-- Whether an entry holds no input but the one its kind drives. -/
def Entry.HoldsOwn (e : Entry) : Prop :=
  ∀ input, e.progress.held? = some input → e.action.kind.input? = some input

/-- An action that is planned to hold an input holds the one its kind drives. -/
theorem Action.input?_of_plan {a : Action} {attackMs : Nat} {input : Input} {ms : Nat}
    (h : a.plan attackMs = .hold input ms) : a.kind.input? = some input := by
  unfold Action.plan at h
  cases hk : a.kind with
  | moveForward | moveLeft | moveBack | moveRight | charge | burst | jump | interact
  | altInteract | wait =>
      rw [hk] at h
      cases h
      try rfl
  | skill | dash =>
      rw [hk] at h
      dsimp only at h
      split at h
      · cases h
        rfl
      · cases h
  | switch | moveBy =>
      rw [hk] at h
      dsimp only at h
      split at h <;> cases h
  | attack =>
      rw [hk] at h
      dsimp only [Action.attackPlan] at h
      split at h
      · cases h
        rfl
      · split at h <;> cases h

/-- When a device is asked for a command, an action goes on as planned, or holds nothing. -/
theorem Device.ask_held? {device : Device} {command : Command} {next : Progress} {input : Input}
    (h : (device.ask command next).1.held? = some input) : next.held? = some input := by
  rcases device.ask_cases command next with heq | ⟨message, response, -, heq⟩
  · rwa [heq] at h
  · rw [heq] at h
    cases h

/-- After its first poll an action holds an input only if that was its plan. -/
theorem Plan.exists_of_start {device : Device} {attackMs now : Nat} {a : Action} {plan : Plan}
    {input : Input} (h : (plan.start device attackMs now a).1.held? = some input) :
    ∃ ms, plan = .hold input ms := by
  cases plan with
  | hold input' ms =>
      have hnext := Device.ask_held? h
      cases hnext
      exact ⟨ms, rfl⟩
  | press input' => cases Device.ask_held? h
  | repeatPress presses =>
      cases presses with
      | zero => cases h
      | succ left => cases Device.ask_held? h
  | pause ms => cases h
  | move dx dy => cases Device.ask_held? h
  | invalid => cases h

/-- After a poll an action holds what it held before, or what it is planned to hold. -/
theorem Progress.poll_held? {device : Device} {attackMs now : Nat} {a : Action} {cancelled : Bool}
    {p : Progress} {input : Input}
    (h : (p.poll device attackMs now a cancelled).1.held? = some input) :
    p.held? = some input ∨ ∃ ms, a.plan attackMs = .hold input ms := by
  cases p with
  | queued => cases h
  | ended ending => cases h
  | ready =>
      simp only [poll] at h
      split at h
      · cases h
      · exact .inr (Plan.exists_of_start h)
  | holding input' due =>
      simp only [poll] at h
      split at h
      · cases Device.ask_held? h
      · split at h
        · cases Device.ask_held? h
        · exact .inl h
  | pressing left due =>
      simp only [poll] at h
      split at h
      · cases h
      · split at h
        · cases left with
          | zero => cases h
          | succ left => cases Device.ask_held? h
        · cases h
  | pausing due =>
      simp only [poll] at h
      split at h
      · cases h
      · split at h <;> cases h

namespace Entry

theorem holdsOwn_of_none {e : Entry} (h : e.progress.held? = none) : e.HoldsOwn := by
  intro input held
  rw [h] at held
  cases held

/-- Whatever happens to an action, it goes on to hold its own input only. -/
theorem Change.holdsOwn {device : Device} {attackMs now : Nat} {e e' : Entry}
    (change : Change device attackMs now e e') (h : e.HoldsOwn) : e'.HoldsOwn := by
  cases change with
  | stay => exact h
  | cancel => exact h
  | release =>
      intro input held
      rw [release_held?] at held
      rw [release_action]
      exact h input held
  | fail message => exact holdsOwn_of_none (Progress.held?_of_isEnded (fail_isEnded message e))
  | poll ready hpoll =>
      intro input held
      have hpolled := congrArg (fun result => result.1.held?) hpoll
      rcases Progress.poll_held? (hpolled.trans held) with held' | ⟨ms, hplan⟩
      · exact h input held'
      · exact Action.input?_of_plan hplan

end Entry

/-- Whether the actions of an executor hold their own inputs only. -/
def Executor.HoldsOwn (x : Executor) : Prop :=
  ∀ run, x.run? = some run → ∀ e ∈ run.entries, e.HoldsOwn

/-- Every turn keeps that actions hold their own inputs only. -/
theorem Clockwork.Turn.holdsOwn {φ : Type} [Feed φ] {s s' : Clockwork φ} {es : List Event}
    (turn : Turn s es s') (h : s.executor.HoldsOwn) : s'.executor.HoldsOwn := by
  refine turn.forall_entries (fun _ _ _ _ _ change => change.holdsOwn) ?_ ?_ h
  · intro e fresh
    exact Entry.holdsOwn_of_none (by rw [fresh.2]; rfl)
  · intro e _ ended
    exact Entry.holdsOwn_of_none (by rw [ended]; rfl)

end Combo
