-- SUMMARY: The calls others make to an executor, as functions on the stage of its worker.
import Combo.Executor.Basic

/-!
# Calls as functions on stages

An interrupt changes nothing but the stage of the worker. `Executor.mapStage`
says so once, and the lemmas here bring the calls into that form.
-/

namespace Combo

namespace Stage

/-- The stage after everything was interrupted. -/
def interruptAll : Stage → Stage
  | .asking d => .asking { d with all := true }
  | .taken t d => .taken t { d with all := true }
  | .running step run => .running step run.interruptAll.1
  | stage => stage

/-- The stage after what conflicts with incoming kinds was interrupted. -/
def interruptConflicting (kinds : List Kind) : Stage → Stage
  | .asking d => .asking { d with kinds := d.kinds ++ kinds }
  | .taken t d => .taken t { d with kinds := d.kinds ++ kinds }
  | .running step run => .running step (run.interruptConflicting kinds).1
  | stage => stage

/-- The run of a stage, if there is one. -/
def run? : Stage → Option Run
  | .running _ run => some run
  | _ => none

/-- The number of the group that a worker at this stage is at. -/
def groupId? : Stage → Option Nat
  | .taken t _ => some t.id
  | .running _ run => some run.id
  | .reporting report _ => some report.id
  | .checking | .asking _ | .sleeping _ | .crashed => none

/-- Whether the group of the stage will start nothing any more. -/
def isDoomed : Stage → Bool
  | .taken _ d => d.all
  | .running _ run => run.cancelled
  | .reporting _ _ => true
  | .checking | .asking _ | .sleeping _ | .crashed => false

@[simp] theorem groupId?_interruptAll (stage : Stage) :
    stage.interruptAll.groupId? = stage.groupId? := by
  cases stage <;> rfl

@[simp] theorem groupId?_interruptConflicting (kinds : List Kind) (stage : Stage) :
    (stage.interruptConflicting kinds).groupId? = stage.groupId? := by
  cases stage <;> rfl

/-- When everything is interrupted, the group of the worker is doomed. -/
theorem isDoomed_interruptAll {stage : Stage} {id : Nat} (h : stage.groupId? = some id) :
    stage.interruptAll.isDoomed = true := by
  cases stage with
  | taken | running | reporting => rfl
  | checking | asking | sleeping | crashed => cases h

end Stage

namespace Executor

/-- Changes the stage of the worker, if there is one. -/
def mapStage (f : Stage → Stage) (x : Executor) : Executor :=
  { x with worker := x.worker.map fun w => { w with stage := f w.stage } }

theorem mapStage_of_none {f : Stage → Stage} {x : Executor} (h : x.worker = none) :
    x.mapStage f = x := by
  cases x
  simp_all [mapStage]

theorem mapStage_of_some {f : Stage → Stage} {x : Executor} {b : Bool} {stage : Stage}
    (h : x.worker = some ⟨b, stage⟩) :
    x.mapStage f = { x with worker := some ⟨b, f stage⟩ } := by
  simp [mapStage, h]

theorem setStage_of_some {x : Executor} {b : Bool} {stage stage' : Stage}
    (h : x.worker = some ⟨b, stage⟩) :
    x.setStage stage' = { x with worker := some ⟨b, stage'⟩ } := by
  simp [setStage, h]

/-- A worker that stays where it is is no change. -/
theorem eq_of_worker {x : Executor} {w : Option Worker} (h : x.worker = w) :
    { x with worker := w } = x := by
  subst h
  rfl

theorem run?_of_some {x : Executor} {b : Bool} {stage : Stage}
    (h : x.worker = some ⟨b, stage⟩) : x.run? = stage.run? := by
  unfold run? Stage.run?
  rw [h]
  cases stage <;> rfl

theorem run?_of_none {x : Executor} (h : x.worker = none) : x.run? = none := by
  simp [run?, h]

theorem interruptAll_fst (x : Executor) : x.interruptAll.1 = x.mapStage Stage.interruptAll := by
  cases h : x.worker with
  | none =>
      rw [mapStage_of_none h]
      simp [interruptAll, h]
  | some w =>
      obtain ⟨b, stage⟩ := w
      rw [mapStage_of_some h]
      cases stage <;> simp [interruptAll, Stage.interruptAll, setStage, h, eq_of_worker]

theorem interruptConflicting_fst (g : Group) (x : Executor) :
    (x.interruptConflicting g).1 = x.mapStage (Stage.interruptConflicting g.kinds) := by
  cases h : x.worker with
  | none =>
      rw [mapStage_of_none h]
      simp [interruptConflicting, h]
  | some w =>
      obtain ⟨b, stage⟩ := w
      rw [mapStage_of_some h]
      cases stage <;>
        simp [interruptConflicting, Stage.interruptConflicting, setStage, h, eq_of_worker]

/-- What layering comes to: the run that is joined takes the group on, or nothing changes. -/
theorem layer_cases (g : Group) (x : Executor) :
    (∃ b run, x.worker = some ⟨b, .running (.joining true) run⟩ ∧ run.cancelled = false ∧
      (x.needsFocus g = true → run.needsFocus = true) ∧
      x.layer g =
        ({ x with worker := some ⟨b, .running (.joining true) (run.layer g.actions)⟩ }, true)) ∨
    x.layer g = (x, false) := by
  unfold layer
  split
  · rename_i b run h
    split
    · exact .inr rfl
    · rename_i hopen
      simp only [Bool.or_eq_true, Bool.and_eq_true, Bool.not_eq_true', not_or, not_and,
        Bool.not_eq_true, Bool.not_eq_false] at hopen
      exact .inl ⟨b, run, h, hopen.1, hopen.2, by rw [setStage_of_some h]⟩
  · exact .inr rfl

end Executor

/-- Whether the worker of an executor stays at its group, and no doomed group is saved. -/
def Executor.KeepsGroup (x x' : Executor) : Prop :=
  x'.calls = x.calls ∧ ∀ b stage id, x.worker = some ⟨b, stage⟩ → stage.groupId? = some id →
    ∃ stage', x'.worker = some ⟨b, stage'⟩ ∧ stage'.groupId? = some id ∧
      (stage.isDoomed = true → stage'.isDoomed = true)

namespace Executor

theorem KeepsGroup.trans {x x' x'' : Executor} (h : KeepsGroup x x') (h' : KeepsGroup x' x'') :
    KeepsGroup x x'' := by
  refine ⟨h'.1.trans h.1, fun b stage id hw hid => ?_⟩
  obtain ⟨stage', hw', hid', doomed⟩ := h.2 b stage id hw hid
  obtain ⟨stage'', hw'', hid'', doomed'⟩ := h'.2 b stage' id hw' hid'
  exact ⟨stage'', hw'', hid'', fun hd => doomed' (doomed hd)⟩

theorem keepsGroup_interruptAll (x : Executor) : KeepsGroup x x.interruptAll.1 := by
  rw [interruptAll_fst]
  refine ⟨rfl, fun b stage id hw hid => ?_⟩
  rw [mapStage_of_some hw]
  exact ⟨_, rfl, by simpa using hid, fun _ => Stage.isDoomed_interruptAll hid⟩

theorem keepsGroup_interruptConflicting (g : Group) (x : Executor) :
    KeepsGroup x (x.interruptConflicting g).1 := by
  rw [interruptConflicting_fst]
  refine ⟨rfl, fun b stage id hw hid => ?_⟩
  rw [mapStage_of_some hw]
  refine ⟨_, rfl, by simpa using hid, fun doomed => ?_⟩
  cases stage with
  | taken | running | reporting => exact doomed
  | checking | asking | sleeping | crashed => cases hid

theorem keepsGroup_layer (g : Group) (x : Executor) : KeepsGroup x (x.layer g).1 := by
  rcases layer_cases g x with ⟨b, run, hw, -, -, heq⟩ | heq
  · rw [heq]
    refine ⟨rfl, fun b' stage id hw' hid => ?_⟩
    rw [hw] at hw'
    cases hw'
    exact ⟨_, rfl, hid, fun doomed => doomed⟩
  · rw [heq]
    exact ⟨rfl, fun b stage id hw hid => ⟨stage, hw, hid, fun doomed => doomed⟩⟩

end Executor

end Combo
