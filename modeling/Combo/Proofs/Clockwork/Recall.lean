-- SUMMARY: The record of commands is only written: with an older record a system does, shows and answers the same.
import Combo.Proofs.Clockwork.Turn

/-!
# The record of commands

An executor keeps a record of the commands it sent, and never looks at it. A
system that remembers older commands is therefore told apart from one that does
not by the record alone: the same moves have the same effects and the same
events, and every call is answered the same.
-/

namespace Combo

namespace Executor

/-- The executor with older commands on its record. -/
def recalling (older : List Call) (x : Executor) : Executor := { x with calls := older ++ x.calls }

variable (older : List Call) (x : Executor)

theorem recalling_interruptAll :
    (x.recalling older).interruptAll = (x.interruptAll.1.recalling older, x.interruptAll.2) := by
  simp only [interruptAll, recalling]
  split <;> rfl

theorem recalling_interruptConflicting (g : Group) :
    (x.recalling older).interruptConflicting g =
      ((x.interruptConflicting g).1.recalling older, (x.interruptConflicting g).2) := by
  simp only [interruptConflicting, recalling]
  split <;> rfl

theorem recalling_layer (g : Group) :
    (x.recalling older).layer g = ((x.layer g).1.recalling older, (x.layer g).2) := by
  have worker : (x.recalling older).worker = x.worker := rfl
  have focus : (x.recalling older).needsFocus g = x.needsFocus g := rfl
  unfold layer
  rw [worker]
  split
  · simp only [focus]
    split <;> rfl
  · rfl

/-- Every request is answered the same. -/
theorem recalling_serve (r : Request) :
    (x.recalling older).serve r = ((x.serve r).1.recalling older, (x.serve r).2) := by
  cases r with
  | interruptAll => simp only [serve, recalling_interruptAll]
  | interruptConflicting g => simp only [serve, recalling_interruptConflicting]
  | layer g => simp only [serve, recalling_layer]

theorem recalling_start : (x.recalling older).start = x.start.recalling older := by
  unfold start
  split <;> simp_all [recalling]

theorem recalling_requestStop :
    (x.recalling older).requestStop = x.requestStop.recalling older := by
  simp only [requestStop, recalling]
  split
  · rfl
  · rfl
  · simp only [interruptAll_fst]
    rfl

theorem recalling_abort (now : Nat) :
    (x.recalling older).abort now = (x.abort now).recalling older := by
  have hrun : (x.recalling older).run? = x.run? := rfl
  unfold abort
  rw [hrun]
  cases x.run? with
  | none => rfl
  | some run => simp [recalling]

end Executor

namespace Clockwork

variable {φ : Type}

/-- The system with older commands on its record. -/
def recalling (older : List Call) (s : Clockwork φ) : Clockwork φ :=
  { s with executor := s.executor.recalling older }

variable [Feed φ] (older : List Call) (s : Clockwork φ)

theorem recalling_workerStep :
    (s.recalling older).workerStep = s.workerStep.recalling older := by
  have ready : (s.recalling older).workerReady = s.workerReady := rfl
  have worker : (s.recalling older).executor.worker = s.executor.worker := rfl
  unfold workerStep
  rw [ready, worker]
  split
  · split
    · rfl
    · split
      · simp only [beginRound]
        split <;> rfl
      · simp only [ask]
        have next : Feed.next (s.recalling older).now (s.recalling older).feed =
          Feed.next s.now s.feed := rfl
        rw [next]
        split <;> rfl
      · rfl
      · rename_i w hw step run hstage
        cases step with
        | focusing =>
            simp only [stepRun, seeToFocus]
            have focus : (s.recalling older).executor.focus = s.executor.focus := rfl
            rw [focus]
            split
            · rfl
            · split <;> rfl
        | joining accepting =>
            simp only [stepRun, join]
            split
            · split <;> rfl
            · rfl
        | settling due | opening | closing fault => rfl
      · rfl
      · simp only [beginRound]
        split <;> rfl
      · rfl
  · rfl

omit [Feed φ] in
theorem recalling_closeLate : (s.recalling older).closeLate = s.closeLate.recalling older := by
  have worker : (s.recalling older).executor.worker = s.executor.worker := rfl
  unfold closeLate
  rw [worker]
  split
  · split <;> rfl
  · rfl

omit [Feed φ] in
theorem recalling_poll (position : Nat) :
    (s.recalling older).poll position = (s.poll position).recalling older := by
  have worker : (s.recalling older).executor.worker = s.executor.worker := rfl
  have now : (s.recalling older).now = s.now := rfl
  unfold poll
  simp only [worker, now]
  split
  · split
    · rfl
    · split
      · simp [recalling, Executor.recalling, setStage, Executor.setStage]
      · rfl
  · rfl

omit [Feed φ] in
theorem recalling_tick : (s.recalling older).tick = s.tick.recalling older := by
  have quiet : (s.recalling older).isQuiet = s.isQuiet := rfl
  unfold tick
  rw [quiet]
  split <;> rfl

/-- Every move has the same effect. -/
theorem recalling_move (m : Move) : (s.recalling older).move m = (s.move m).recalling older := by
  cases m with
  | work => exact recalling_workerStep older s
  | closeLate => exact recalling_closeLate older s
  | poll position => exact recalling_poll older s position
  | tick => exact recalling_tick older s
  | start => simp only [move, recalling, Executor.recalling_start]
  | request r => simp only [move, recalling, Executor.recalling_serve]
  | requestStop => simp only [move, recalling, Executor.recalling_requestStop]
  | abort => simp only [move, recalling, Executor.recalling_abort]
  | setFocus | setDevice => rfl

omit [Feed φ] in
theorem callsSince_recalling (s' : Clockwork φ) :
    callsSince (s.recalling older) (s'.recalling older) = callsSince s s' := by
  simp [callsSince, recalling, Executor.recalling, List.drop_append]

/-- Every move is seen the same. -/
theorem events_recalling (m : Move) : (s.recalling older).events m = s.events m := by
  cases m with
  | work => rfl
  | poll position =>
      simp only [events, recalling_poll, callsSince_recalling]
  | abort =>
      have worker : (s.recalling older).executor.worker = s.executor.worker := rfl
      simp only [events, recalling_move, callsSince_recalling, worker]
  | request r =>
      cases r with
      | layer g =>
          have executor : (s.recalling older).executor = s.executor.recalling older := rfl
          simp only [events, executor, Executor.recalling_layer]
      | interruptAll | interruptConflicting g => rfl
  | closeLate | tick | start | requestStop | setFocus | setDevice => rfl

/-- Every play has the same effect and is seen the same. -/
theorem recalling_play (moves : List Move) :
    (s.recalling older).play moves = (s.play moves).recalling older ∧
      (s.recalling older).journal moves = s.journal moves := by
  induction moves generalizing s with
  | nil => exact ⟨rfl, rfl⟩
  | cons m moves ih =>
      rw [play_cons, play_cons, journal_cons, journal_cons, recalling_move, events_recalling]
      obtain ⟨hplay, hjournal⟩ := ih (s.move m)
      exact ⟨hplay, by rw [hjournal]⟩

end Clockwork

end Combo
