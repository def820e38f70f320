-- SUMMARY: The fate of an action after its dispatch: it waits, is never started, or goes on from its start as it does alone.
import Combo.Proofs.Clockwork.Impact

/-!
# The fate of one action

From its dispatch on, the action at a position of a run waits to be started, was
never started, or was started at some moment. From that moment on it is what it
would be alone under its own impacts: `GoesAlone` compares the clock, the token
and the progress, what was exchanged, and the instant of the end. No other
action has a part in it. `Fate.move` follows the fate through one move.
-/

namespace Combo

namespace Clockwork

variable {φ : Type} [Feed φ]

/-- Whether the action at a position is what it is alone from some moment on. -/
structure GoesAlone (s : Clockwork φ) (group position : Nat) (before after : List Move)
    (cancelled : Bool) (e : Entry) : Prop where
  mirror : (s.play (before ++ after)).solo e =
    (Solo.start e.action s.executor.engine.attackMs (s.play before).now cancelled).play
      ((s.play before).impacts position e.action after)
  exchanged : exchangesAt group position (s.journal (before ++ after)) =
    (Solo.start e.action s.executor.engine.attackMs (s.play before).now cancelled).exchanges
      ((s.play before).impacts position e.action after)
  ended : s.endedAt position (before ++ after) =
    (Solo.start e.action s.executor.engine.attackMs (s.play before).now cancelled).endedAt
      ((s.play before).impacts position e.action after)

/-- What has become of the action at a position of a group some moves after its dispatch. -/
inductive Fate (s : Clockwork φ) (group position : Nat) (moves : List Move) (e : Entry) : Prop where
  | waiting (progress : e.progress = .queued)
      (silent : exchangesAt group position (s.journal moves) = [])
      (ended : s.endedAt position moves = none)
  /-- An interrupt hit the action before its dispatch, or the window could not be activated. -/
  | unstarted (ending : Ending) (progress : e.progress = .ended ending)
      (reason : ending = .cancelled ∨ ∃ fault : InputError, ending = .failed fault.message)
      (silent : exchangesAt group position (s.journal moves) = [])
      (ended : s.endedAt position moves = some s.now)
  | started (before : List Move) (m : Move) (after : List Move) (e₀ : Entry)
      (hmoves : moves = before ++ [m] ++ after) (action : e₀.action = e.action)
      (waited : (s.play before).entryAt? position = some { e₀ with progress := .queued })
      (spawned : (s.play (before ++ [m])).entryAt? position = some { e₀ with progress := .ready })
      (alone : s.GoesAlone group position (before ++ [m]) after e₀.cancelled e)

variable {s : Clockwork φ} {m : Move} {moves : List Move} {step step' : Step} {run run' : Run}
  {group position : Nat} {e e' : Entry}

omit [Feed φ] in
theorem entryAt?_of_running (running : s.IsRunning step run) (position : Nat) :
    s.entryAt? position = run.entries[position]? := by
  obtain ⟨b, hw⟩ := running
  simp [entryAt?, Executor.run?, hw]

theorem endedAt_append_singleton (s : Clockwork φ) (position : Nat) (moves : List Move) (m : Move) :
    s.endedAt position (moves ++ [m]) = (s.endedAt position moves).or
      (if ((s.play (moves ++ [m])).entryAt? position).any (·.progress.isEnded) then
        some (s.play (moves ++ [m])).now else none) :=
  firstSeen_append_singleton s moves m

/-- While the run goes on, one more move can only add the instant after it. -/
theorem endedAt_append_of_running (running' : (s.play (moves ++ [m])).IsRunning step' run')
    (position : Nat) :
    s.endedAt position (moves ++ [m]) = (s.endedAt position moves).or
      (if run'.entries[position]?.any (·.progress.isEnded) then
        some (s.play (moves ++ [m])).now else none) := by
  rw [endedAt_append_singleton, entryAt?_of_running running']

theorem exchangesAt_append_singleton (s : Clockwork φ) (group position : Nat) (moves : List Move)
    (m : Move) :
    exchangesAt group position (s.journal (moves ++ [m])) =
      exchangesAt group position (s.journal moves) ++
        exchangesAt group position ((s.play moves).events m) := by
  rw [journal_append, journal_cons, journal_nil, List.append_nil, exchangesAt_append]

theorem impacts_append_singleton (s : Clockwork φ) (position : Nat) (a : Action)
    (moves : List Move) (m : Move) :
    s.impacts position a (moves ++ [m]) =
      s.impacts position a moves ++ ((s.play moves).impact position a m).toList := by
  rw [impacts_append]
  simp [impacts]

theorem play_append_singleton (s : Clockwork φ) (moves : List Move) (m : Move) :
    s.play (moves ++ [m]) = (s.play moves).move m := by
  rw [play_append, play_cons, play_nil]

/-- An action that was just started has sent nothing yet, neither here nor alone. -/
theorem GoesAlone.of_spawned {before : List Move}
    (silent : exchangesAt group position (s.journal before) = [])
    (ended : s.endedAt position before = none) :
    s.GoesAlone group position before [] e.cancelled { e with progress := .ready } := by
  refine ⟨?_, ?_, ?_⟩ <;> rw [List.append_nil]
  · simp [impacts, solo, Solo.start, engine_play]
  · exact silent
  · exact ended

/-- An action that goes on as it does alone under one more move has gone on so all the time. -/
theorem GoesAlone.move {before after : List Move} {cancelled : Bool}
    (alone : s.GoesAlone group position before after cancelled e)
    (mirror : ((s.play (before ++ after)).move m).solo e' = ((s.play (before ++ after)).solo e).play
      ((s.play (before ++ after)).impact position e.action m).toList)
    (exchanged : exchangesAt group position ((s.play (before ++ after)).events m) =
      ((s.play (before ++ after)).solo e).exchanges
        ((s.play (before ++ after)).impact position e.action m).toList)
    (ended : s.endedAt position (before ++ after ++ [m]) =
      (s.endedAt position (before ++ after)).or (if e'.progress.isEnded then
        some (s.play (before ++ after ++ [m])).now else none)) :
    s.GoesAlone group position before (after ++ [m]) cancelled e' := by
  have haction : e'.action = e.action := by
    have := congrArg Solo.action mirror
    rwa [Solo.play_action] at this
  have himpacts : (s.play before).impacts position e.action (after ++ [m]) =
      (s.play before).impacts position e.action after ++
        ((s.play (before ++ after)).impact position e.action m).toList := by
    rw [impacts_append_singleton, play_append]
  have hmirror : (s.play (before ++ after ++ [m])).solo e' =
      (Solo.start e.action s.executor.engine.attackMs (s.play before).now cancelled).play
        ((s.play before).impacts position e.action after ++
          ((s.play (before ++ after)).impact position e.action m).toList) := by
    rw [play_append_singleton, mirror, alone.mirror, Solo.play_append]
  refine ⟨?_, ?_, ?_⟩ <;> rw [← List.append_assoc, haction, himpacts]
  · exact hmirror
  · rw [Solo.exchanges_append, ← alone.mirror, ← alone.exchanged, ← exchanged,
      exchangesAt_append_singleton]
  · rw [ended, alone.ended, Solo.endedAt_append_toList, ← hmirror]
    rfl

/-- An action that waits or has ended is left alone by what does not start it. -/
theorem rest_of_mirror (idle : e.progress.isQueued = true ∨ e.progress.isEnded = true)
    {xs : List Solo.Move} (mirror : (s.move m).solo e' = (s.solo e).play xs)
    (exchanged : exchangesAt group position (s.events m) = (s.solo e).exchanges xs) :
    e'.progress = e.progress ∧ exchangesAt group position (s.events m) = [] := by
  obtain ⟨progress, silent⟩ := Solo.play_of_idle (x := s.solo e) idle xs
  exact ⟨(congrArg Solo.progress mirror).trans progress, exchanged.trans silent⟩

/-- One more move makes of the fate of an action the fate of what it makes of the action. -/
theorem Fate.move (fate : s.Fate group position moves e)
    (running : (s.play moves).IsRunning step run) (he : run.entries[position]? = some e)
    (running' : (s.play (moves ++ [m])).IsRunning step' run')
    (he' : run'.entries[position]? = some e')
    (meets : (s.play moves).Meets m step group position e e')
    (early : step = .focusing → (s.play moves).now = s.now) :
    s.Fate group position (moves ++ [m]) e' := by
  have hentry := entryAt?_of_running running position
  have hentry' := entryAt?_of_running running' position
  rw [he] at hentry
  rw [he'] at hentry'
  have hended : s.endedAt position (moves ++ [m]) = (s.endedAt position moves).or
      (if e'.progress.isEnded then some (s.play (moves ++ [m])).now else none) := by
    rw [endedAt_append_of_running running', he', Option.any_some]
  have hexchanged := exchangesAt_append_singleton s group position moves m
  cases fate with
  | waiting progress silent ended =>
      rw [silent, List.nil_append] at hexchanged
      rw [ended, Option.none_or] at hended
      cases meets with
      | started queued now quiet =>
          refine .started moves m [] e (List.append_nil _).symm rfl ?_ hentry' ?_
          · rw [hentry, ← queued]
          · exact .of_spawned (hexchanged.trans quiet) hended
      | unfocused fault hstep queued now quiet =>
          refine .unstarted _ rfl (.inr ⟨fault, rfl⟩) (hexchanged.trans quiet) ?_
          rw [hended, play_append_singleton, now, early hstep]
          rfl
      | alone mirror exchanged =>
          obtain ⟨same, quiet⟩ := rest_of_mirror (.inl (by rw [progress]; rfl)) mirror exchanged
          refine .waiting (same.trans progress) (hexchanged.trans quiet) ?_
          rw [hended, same, progress]
          rfl
  | unstarted ending progress reason silent ended =>
      rw [silent, List.nil_append] at hexchanged
      rw [ended, Option.some_or] at hended
      cases meets with
      | started queued => cases queued.symm.trans progress
      | unfocused _ _ queued => cases queued.symm.trans progress
      | alone mirror exchanged =>
          obtain ⟨same, quiet⟩ := rest_of_mirror (.inr (by rw [progress]; rfl)) mirror exchanged
          exact .unstarted ending (same.trans progress) reason (hexchanged.trans quiet) hended
  | started before m₀ after e₀ hmoves action waited spawned alone =>
      subst hmoves
      have going : e.progress ≠ .queued := by
        intro queued
        have started := Solo.isQueued_play (x := Solo.start e.action s.executor.engine.attackMs
          (s.play (before ++ [m₀])).now e₀.cancelled) rfl
          ((s.play (before ++ [m₀])).impacts position e.action after)
        rw [← alone.mirror, solo, queued] at started
        cases started
      cases meets with
      | started queued => exact absurd queued going
      | unfocused _ _ queued => exact absurd queued going
      | alone mirror exchanged =>
          have haction : e'.action = e.action := by
            have := congrArg Solo.action mirror
            rwa [Solo.play_action] at this
          exact .started before m₀ (after ++ [m]) e₀ (List.append_assoc _ _ _)
            (action.trans haction.symm) waited spawned (alone.move mirror exchanged hended)

/-- What nothing more comes of stays as it is. -/
theorem Fate.rest (fate : s.Fate group position moves e)
    (now : (s.play (moves ++ [m])).now = (s.play moves).now)
    (silent : (s.play moves).events m = [])
    (none_ : ∀ a, (s.play moves).impact position a m = none)
    (ended : s.endedAt position (moves ++ [m]) = s.endedAt position moves) :
    s.Fate group position (moves ++ [m]) e := by
  have exchanged : exchangesAt group position (s.journal (moves ++ [m])) =
      exchangesAt group position (s.journal moves) := by
    rw [exchangesAt_append_singleton, silent, exchangesAt_nil, List.append_nil]
  cases fate with
  | waiting progress quiet past => exact .waiting progress (exchanged.trans quiet) (ended.trans past)
  | unstarted ending progress reason quiet past =>
      exact .unstarted ending progress reason (exchanged.trans quiet) (ended.trans past)
  | started before m₀ after e₀ hmoves action waited spawned alone =>
      subst hmoves
      have himpacts : (s.play (before ++ [m₀])).impacts position e.action (after ++ [m]) =
          (s.play (before ++ [m₀])).impacts position e.action after := by
        rw [impacts_append_singleton, ← play_append, none_, Option.toList_none, List.append_nil]
      refine .started before m₀ (after ++ [m]) e₀ (List.append_assoc _ _ _) action waited spawned
        ⟨?_, ?_, ?_⟩ <;> rw [← List.append_assoc, himpacts]
      · rw [← alone.mirror]
        simp only [solo, now, engine_play]
      · rw [exchanged, alone.exchanged]
      · rw [ended, alone.ended]

end Clockwork

end Combo
