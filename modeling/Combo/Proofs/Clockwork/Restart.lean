-- SUMMARY: A worker that lives and leaves in its own time when it is told to stop leaves the executor idle.
import Combo.Proofs.Clockwork.Handout

/-!
# Workers that leave

A worker that is told to stop winds up the group it is at, hands in the report
and leaves between two rounds, where the phase is idle. Only a worker that died in a
crash of its feed, or that is taken away, leaves the phase as it was.
-/

namespace Combo

namespace Clockwork

variable {φ : Type} {s s' : Clockwork φ} {es : List Event}

/-- Whether the worker did not die in a crash of the feed. -/
def Lives (s : Clockwork φ) : Prop := ∀ b, s.executor.worker ≠ some ⟨b, .crashed⟩

theorem lives_of_some {b : Bool} {stage : Stage} (h : s.executor.worker = some ⟨b, stage⟩)
    (alive : stage ≠ .crashed) : s.Lives := by
  intro b' hw
  cases h.symm.trans hw
  exact alive rfl

theorem lives_of_none (h : s.executor.worker = none) : s.Lives := by
  intro b hw
  cases h.symm.trans hw

variable [Feed φ]

theorem Stride.lives (stride : Stride s es s') (whole : ∀ now, .asked now .crash ∉ es)
    (h : s.Lives) : s'.Lives := by
  cases stride with
  | rest | tick | refocus | rewire => exact h
  | leave => exact lives_of_none rfl
  | crash => simp at whole
  | @handIn b report faulty stage hw hstage =>
      have alive : stage ≠ .crashed := by cases faulty <;> simp [hstage]
      exact lives_of_some rfl alive
  | _ => exact lives_of_some rfl (by simp)

/-- The worker dies in no turn but a crash of the feed. -/
theorem Turn.lives (turn : Turn s es s') (whole : ∀ now, .asked now .crash ∉ es) (h : s.Lives) :
    s'.Lives := by
  cases turn with
  | stride stride => exact stride.lives whole h
  | bury | abort | vanish => exact lives_of_none rfl
  | @interruptAll b stopping stage hw | @interruptConflicting b stage group hw =>
      refine lives_of_some rfl ?_
      intro crashed
      cases stage <;> cases crashed
      exact h b hw
  | layer => exact lives_of_some rfl (by simp)

/-- Whether the worker lives, and the phase is idle if there is none. -/
structure LeavesIdle (s : Clockwork φ) : Prop where
  lives : s.Lives
  idle : s.executor.worker = none → s.executor.phase = .idle

/-- A worker that lives and is not taken away leaves between two rounds. -/
theorem Turn.leavesIdle (turn : Turn s es s') (whole : ∀ e ∈ es, e.isLoss = false) (h : s.LeavesIdle) :
    s'.LeavesIdle := by
  refine ⟨turn.lives (fun now crash => by cases whole _ crash) h.lives, ?_⟩
  cases turn with
  | stride stride =>
      cases stride with
      | rest | tick | refocus | rewire => exact h.idle
      | leave => exact fun _ => rfl
      | _ => intro gone; cases gone
  | bury hw => exact absurd hw (h.lives _)
  | abort | vanish => cases whole .aborted (by simp)
  | _ => intro gone; cases gone

/-- To tell a worker that lives to stop is to interrupt what it is at. -/
theorem requestStop_of_some {b : Bool} {stage : Stage} (h : s.executor.worker = some ⟨b, stage⟩)
    (lives : s.Lives) :
    s.move .requestStop = s.withWorker (some ⟨true, stage.interruptAll⟩) := by
  cases stage with
  | crashed => exact absurd h (lives b)
  | _ => simp [move, Executor.requestStop, h, Executor.interruptAll_fst, Executor.mapStage]

/-- A dead worker is gone when it is told to stop. -/
theorem requestStop_of_crashed {b : Bool} (h : s.executor.worker = some ⟨b, .crashed⟩) :
    (s.move .requestStop).executor.worker = none := by
  simp [move, Executor.requestStop, h]

/-- A started worker that lives is there after it was told to stop. -/
theorem leavesIdle_requestStop (lives : s.Lives) (started : s.executor.isStarted = true) :
    (s.move .requestStop).LeavesIdle := by
  refine ⟨(turn_move (s := s) .requestStop).lives (by simp [events]) lives, fun gone => ?_⟩
  rcases hw : s.executor.worker with _ | ⟨b, stage⟩
  · simp [Executor.isStarted, hw] at started
  · rw [requestStop_of_some hw lives] at gone
    cases gone

end Clockwork

end Combo
