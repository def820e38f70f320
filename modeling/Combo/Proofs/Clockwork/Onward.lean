-- SUMMARY: What one move makes of a run that goes on: an interrupt cancels what it hits, and every other move only gets on with actions.
import Combo.Proofs.Clockwork.Course
import Combo.Proofs.Clockwork.Window
import Combo.Proofs.Executor.Dispatch

/-!
# Runs that go on

A move during which the worker stays at its run either interrupts, and then it
marks the actions it hits as cancelled and leaves them as far as they are, or it
cancels nothing and gets on with some of the actions. `Onward` says both at once,
by the note of what the move asks to interrupt, and `Advances` lists how far one
action may come in a move.
-/

namespace Combo

namespace Clockwork

variable {φ : Type}

/--
How far the action at a position of a group may be after a move that takes the worker to a step of
the run while some events are seen.
-/
inductive Advances (s : Clockwork φ) (group position : Nat) (es : List Event) (step' : Step)
    (e : Entry) : Progress → Prop where
  | rest : Advances s group position es step' e e.progress
  | started (queued : e.progress.isQueued = true) : Advances s group position es step' e .ready
  /-- The window could not be activated. -/
  | unfocused (fault : InputError) (going : e.progress.isEnded = false)
      (closing : step' = .closing (some fault)) :
      Advances s group position es step' e (.ended (.failed fault.message))
  | polled {progress : Progress} {exchange : Option Exchange} (ready : e.runnable s.now = true)
      (hpoll : e.progress.poll s.executor.device s.executor.engine.attackMs s.now e.action
        e.cancelled = (progress, exchange))
      (seen : es = (Exchange.calls s.now group position exchange).map .called) :
      Advances s group position es step' e progress

/-- What becomes of the action at a position in a move that asks to interrupt something. -/
structure Follows (s : Clockwork φ) (asked : Deferred) (group position : Nat) (es : List Event)
    (step' : Step) (e e' : Entry) : Prop where
  action : e'.action = e.action
  cancelled : e'.cancelled = (e.cancelled || asked.hits e.action)
  /-- An interrupt leaves the action as far as it is. -/
  still : asked.hits e.action = true → e'.progress = e.progress
  advances : s.Advances group position es step' e e'.progress

/-- What becomes of a run in a move that asks to interrupt something. -/
structure Onward (s : Clockwork φ) (asked : Deferred) (step : Step) (run : Run) (es : List Event)
    (step' : Step) (run' : Run) : Prop where
  cancelled : run'.cancelled = (run.cancelled || asked.all)
  closing : ∀ fault, step = .closing fault → step' = .closing fault
  entries : ∀ (i : Nat) (e : Entry), run.entries[i]? = some e →
    ∃ e', run'.entries[i]? = some e' ∧ s.Follows asked run.id i es step' e e'

variable {s s' : Clockwork φ} {asked : Deferred} {es : List Event} {group position : Nat}
  {step step' : Step} {run run' : Run} {e : Entry}

/-- An action that has ended comes no further. -/
theorem Advances.of_ended {p : Progress} (h : s.Advances group position es step' e p)
    (ended : e.progress.isEnded = true) : p = e.progress := by
  cases h with
  | rest => rfl
  | started queued =>
      cases hp : e.progress <;> simp_all [Progress.isQueued, Progress.isEnded]
  | unfocused fault going =>
      rw [ended] at going
      cases going
  | polled ready =>
      rw [Entry.isEnded_of_runnable ready] at ended
      cases ended

/-- An action that is not cancelled does not come to be reported as that. -/
theorem Advances.ne_cancelled {p : Progress} (h : s.Advances group position es step' e p)
    (own : e.progress.isEnded = false → e.cancelled = false)
    (honest : e.progress ≠ .ended .cancelled) : p ≠ .ended .cancelled := by
  cases h with
  | rest => exact honest
  | started => simp
  | unfocused => simp
  | polled ready hpoll =>
      rw [own (Entry.isEnded_of_runnable ready)] at hpoll
      exact Progress.poll_ne_cancelled honest hpoll

/-! ## Moves that interrupt nothing -/

theorem follows_rest (s : Clockwork φ) (group position : Nat) (es : List Event) (step' : Step)
    (e : Entry) : s.Follows {} group position es step' e e where
  action := rfl
  cancelled := by simp
  still := fun _ => rfl
  advances := .rest

theorem follows_release (s : Clockwork φ) (group position : Nat) (es : List Event) (step' : Step)
    (e : Entry) : s.Follows {} group position es step' e e.release := by
  unfold Entry.release
  split
  · rename_i queued
    exact ⟨rfl, by simp, by simp, .started queued⟩
  · exact follows_rest s group position es step' e

theorem follows_fail (s : Clockwork φ) (group position : Nat) (es : List Event) (e : Entry)
    (fault : InputError) :
    s.Follows {} group position es (.closing (some fault)) e (e.fail fault.message) := by
  unfold Entry.fail
  split
  · exact follows_rest s group position es _ e
  · rename_i going
    exact ⟨rfl, by simp, by simp, .unfocused fault (by simpa using going) rfl⟩

/-- A run whose entries follow in their places while nothing is interrupted goes on. -/
theorem onward_inPlace {r : Run} {entries : List Entry}
    (closing : ∀ fault, step = .closing fault → step' = .closing fault) (f : Nat → Entry → Entry)
    (heq : ∀ i : Nat, entries[i]? = r.entries[i]?.map (f i))
    (hf : ∀ (i : Nat) (e : Entry), r.entries[i]? = some e →
      s.Follows {} r.id i es step' e (f i e)) :
    s.Onward {} step r es step' { r with entries } where
  cancelled := by simp
  closing := closing
  entries := fun i e he => ⟨f i e, by rw [heq, he]; rfl, hf i e he⟩

theorem onward_rest (closing : ∀ fault, step = .closing fault → step' = .closing fault) :
    s.Onward {} step run es step' run :=
  onward_inPlace closing (fun _ e => e) (by simp) fun i e _ => follows_rest s run.id i es step' e

theorem onward_releaseAll (closing : ∀ fault, step = .closing fault → step' = .closing fault) :
    s.Onward {} step run es step' run.releaseAll :=
  onward_inPlace closing (fun _ => Entry.release) (by simp)
    fun i e _ => follows_release s run.id i es step' e

theorem onward_receive (closing : ∀ fault, step = .closing fault → step' = .closing fault) :
    s.Onward {} step run es step' run.receive := by
  rcases run.receive_cases with heq | ⟨position, heq⟩
  · rw [heq]
    exact onward_rest closing
  · rw [heq]
    refine onward_inPlace closing (fun i e => if position = i then e.release else e) ?_ ?_
    · intro i
      rw [List.getElem?_modify]
      rfl
    · intro i e _
      split
      · exact follows_release s run.id i es step' e
      · exact follows_rest s run.id i es step' e

/-- Layered actions come after the entries of the run. -/
theorem onward_layer (actions : List Action)
    (closing : ∀ fault, step = .closing fault → step' = .closing fault) :
    s.Onward {} step run es step' (run.layer actions) := by
  obtain ⟨new, heq, -⟩ := Run.exists_layer actions run
  rw [heq]
  refine ⟨by simp, closing, fun i e he => ⟨e, ?_, follows_rest s run.id i es step' e⟩⟩
  exact (List.getElem?_append_left (List.getElem?_eq_some_iff.1 he).1).trans he

/-! ## Interrupts -/

/-- An interrupt of everything cancels every action. -/
theorem onward_interruptAll : s.Onward { all := true } step run es step run.interruptAll.1 where
  cancelled := by simp [Run.interruptAll]
  closing := fun _ => id
  entries := by
    intro i e he
    refine ⟨e.cancel, by simp [Run.interruptAll, he], rfl, ?_, fun _ => rfl, .rest⟩
    simp [Deferred.hits]

/-- An interrupt by incoming kinds cancels the actions they displace. -/
theorem onward_interruptConflicting (kinds : List Kind) :
    s.Onward { kinds := kinds } step run es step (run.interruptConflicting kinds).1 where
  cancelled := by simp [Run.interruptConflicting]
  closing := fun _ => id
  entries := by
    intro i e he
    refine ⟨if Run.Entry.hitBy kinds e then e.cancel else e,
      by simp [Run.interruptConflicting, he], ?_⟩
    split
    · rename_i hit
      simp only [Run.Entry.hitBy, Bool.and_eq_true] at hit
      exact ⟨rfl, by simp [Deferred.hits, hit.2], fun _ => rfl, .rest⟩
    · rename_i spared
      refine ⟨rfl, ?_, fun _ => rfl, .rest⟩
      cases hc : e.cancelled <;> simp_all [Run.Entry.hitBy, Deferred.hits]

/-! ## All moves -/

variable [Feed φ]

/-- What happens without a call from outside cancels nothing. -/
theorem Stride.onward (stride : Stride s es s') (running : s.IsRunning step run)
    (running' : s'.IsRunning step' run') : s.Onward {} step run es step' run' := by
  obtain ⟨b, hw⟩ := running
  obtain ⟨b', hw'⟩ := running'
  cases stride with
  | rest | tick | refocus | rewire =>
      cases hw.symm.trans hw'
      exact onward_rest fun _ => id
  | start hw₁ | hand hw₁ | miss hw₁ | crash hw₁ | dispatch hw₁ | handIn hw₁ =>
      cases hw.symm.trans hw₁
  | leave hw₁ | begin hw₁ | finish hw₁ => cases hw'
  | focused hw₁ | activated hw₁ | settled hw₁ | closeEmpty hw₁ | joined hw₁ =>
      cases hw.symm.trans hw₁
      cases hw'
      exact onward_rest nofun
  | unfocused hw₁ =>
      cases hw.symm.trans hw₁
      cases hw'
      exact onward_inPlace nofun (fun _ => Entry.fail _) (by simp)
        fun i e _ => follows_fail s run.id i _ e _
  | opened hw₁ | closeLate hw₁ =>
      cases hw.symm.trans hw₁
      cases hw'
      exact onward_releaseAll nofun
  | receive hw₁ =>
      cases hw.symm.trans hw₁
      cases hw'
      exact onward_receive nofun
  | @poll b₁ accepting run₁ position entry progress exchange hw₁ hentry ready hpoll =>
      cases hw.symm.trans hw₁
      cases hw'
      refine onward_inPlace nofun (fun i e => if position = i then { entry with progress } else e) ?_ ?_
      · intro i
        rw [List.getElem?_set]
        split
        · rename_i hi
          subst hi
          simp [(List.getElem?_eq_some_iff.1 hentry).1]
        · cases run.entries[i]? <;> rfl
      · intro i e he
        split
        · rename_i hi
          subst hi
          cases hentry.symm.trans he
          exact ⟨rfl, by simp, by simp, .polled ready hpoll rfl⟩
        · exact follows_rest s run.id i _ _ e

omit [Feed φ] in
/-- A worker that goes on at this step of this run is at this step of this run. -/
theorem IsRunning.of_worker {b : Bool} {step₁ : Step} {run₁ : Run}
    (hw : s.executor.worker = some ⟨b, .running step₁ run₁⟩) (running : s.IsRunning step run) :
    step = step₁ ∧ run = run₁ :=
  IsRunning.unique ⟨b, hw⟩ running

/-- What a move makes of a run that goes on, by what it asks to interrupt. -/
theorem onward_of_move {m : Move} (running : s.IsRunning step run)
    (running' : (s.move m).IsRunning step' run') :
    s.Onward m.deferral step run (s.events m) step' run' := by
  cases m with
  | work => exact stride_work.onward running running'
  | closeLate => exact stride_closeLate.onward running running'
  | poll position => exact (stride_poll position).onward running running'
  | tick => exact stride_tick.onward running running'
  | start => exact stride_start.onward running running'
  | setFocus active failing => exact (Stride.refocus _).onward running running'
  | setDevice device => exact (Stride.rewire device).onward running running'
  | abort =>
      obtain ⟨b, hw⟩ := running
      obtain ⟨b', hw'⟩ := running'
      simp [move, Executor.abort, Executor.run?_of_some hw, Stage.run?] at hw'
  | requestStop =>
      obtain ⟨b, hw⟩ := running
      have hw' : (s.move .requestStop).executor.worker =
          some ⟨true, .running step run.interruptAll.1⟩ := by
        simp [move, Executor.requestStop, hw, Executor.interruptAll_fst, Executor.mapStage,
          Stage.interruptAll]
      obtain ⟨rfl, rfl⟩ := running'.of_worker hw'
      exact onward_interruptAll
  | request r =>
      cases r with
      | interruptAll =>
          obtain ⟨b, hw⟩ := running
          have hw' : (s.move (.request .interruptAll)).executor.worker =
              some ⟨b, .running step run.interruptAll.1⟩ := by
            simp [move, Executor.serve, Executor.interruptAll_fst, Executor.mapStage_of_some hw,
              Stage.interruptAll]
          obtain ⟨rfl, rfl⟩ := running'.of_worker hw'
          exact onward_interruptAll
      | interruptConflicting g =>
          obtain ⟨b, hw⟩ := running
          have hw' : (s.move (.request (.interruptConflicting g))).executor.worker =
              some ⟨b, .running step (run.interruptConflicting g.kinds).1⟩ := by
            simp [move, Executor.serve, Executor.interruptConflicting_fst,
              Executor.mapStage_of_some hw, Stage.interruptConflicting]
          obtain ⟨rfl, rfl⟩ := running'.of_worker hw'
          exact onward_interruptConflicting g.kinds
      | layer g =>
          rcases Executor.layer_cases g s.executor with ⟨b, r, hw, -, -, heq⟩ | heq
          · obtain ⟨rfl, rfl⟩ := running.of_worker hw
            have hw' : (s.move (.request (.layer g))).executor.worker =
                some ⟨b, .running (.joining true) (run.layer g.actions)⟩ := by
              simp [move, Executor.serve, heq]
            obtain ⟨rfl, rfl⟩ := running'.of_worker hw'
            exact onward_layer g.actions (by simp)
          · simp only [move, Executor.serve, heq] at running'
            obtain ⟨rfl, rfl⟩ := running.unique running'
            exact onward_rest fun _ => id

end Clockwork

end Combo
