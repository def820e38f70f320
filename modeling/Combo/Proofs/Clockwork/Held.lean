-- SUMMARY: Which inputs the actions of an executor hold, and that only polls and drops change that or send commands.
import Combo.Proofs.Clockwork.Sound

/-!
# Holding

An action holds an input between the command that pushes it down and the one that
lets it up. Of all turns only a poll of an action and the loss of the worker send
commands or change what is held; `Turn.held_cases` says so.
-/

namespace Combo

/-! ## What is held -/

namespace Executor

/-- The input that the action at a position of a group holds. -/
def heldAt (x : Executor) (group position : Nat) : Option Input :=
  match x.run? with
  | some run => if run.id = group then run.heldAt position else none
  | none => none

/-- The inputs that actions hold. -/
def holding (x : Executor) : List Input :=
  match x.run? with
  | some run => run.holding
  | none => []

/-- Whether no action holds an input. -/
def HoldsNothing (x : Executor) : Prop := ∀ run, x.run? = some run → run.HoldsNothing

/-- Whether the same actions hold the same inputs. -/
def SameHeld (x x' : Executor) : Prop :=
  (∀ group position, x'.heldAt group position = x.heldAt group position) ∧ x'.holding = x.holding

theorem HoldsNothing.heldAt {x : Executor} (h : x.HoldsNothing) (group position : Nat) :
    x.heldAt group position = none := by
  unfold Executor.heldAt
  cases hrun : x.run? with
  | none => rfl
  | some run =>
      simp only [(h run hrun).heldAt position]
      split <;> rfl

theorem HoldsNothing.holding {x : Executor} (h : x.HoldsNothing) : x.holding = [] := by
  unfold Executor.holding
  cases hrun : x.run? with
  | none => rfl
  | some run => exact (h run hrun).holding

theorem HoldsNothing.sameHeld {x x' : Executor} (h : x.HoldsNothing) (h' : x'.HoldsNothing) :
    SameHeld x x' :=
  ⟨fun group position => by rw [h.heldAt, h'.heldAt], by rw [h.holding, h'.holding]⟩

theorem holdsNothing_of_run {x : Executor} {b : Bool} {stage : Stage}
    (h : x.worker = some ⟨b, stage⟩) (hrun : ∀ run, stage.run? = some run → run.HoldsNothing) :
    x.HoldsNothing := by
  intro run h'
  rw [run?_of_some h] at h'
  exact hrun run h'

theorem holdsNothing_of_none {x : Executor} (h : x.worker = none) : x.HoldsNothing := by
  intro run hrun
  rw [run?_of_none h] at hrun
  cases hrun

theorem heldAt_of_running {x : Executor} {b : Bool} {step : Step} {run : Run}
    (h : x.worker = some ⟨b, .running step run⟩) (group position : Nat) :
    x.heldAt group position = if run.id = group then run.heldAt position else none := by
  unfold heldAt
  rw [run?_of_some h]
  rfl

theorem holding_of_running {x : Executor} {b : Bool} {step : Step} {run : Run}
    (h : x.worker = some ⟨b, .running step run⟩) : x.holding = run.holding := by
  unfold holding
  rw [run?_of_some h]
  rfl

theorem sameHeld_of_running {x x' : Executor} {b b' : Bool} {step step' : Step} {run run' : Run}
    (h : x.worker = some ⟨b, .running step run⟩) (h' : x'.worker = some ⟨b', .running step' run'⟩)
    (hid : run'.id = run.id) (same : Run.SameHolds run run') : SameHeld x x' := by
  refine ⟨fun group position => ?_, ?_⟩
  · rw [heldAt_of_running h, heldAt_of_running h', hid, same.heldAt]
  · rw [holding_of_running h, holding_of_running h', same.holding]

end Executor

/-! ## Drops -/

/-- To drop an action is to let up what it holds. -/
theorem Progress.drop_eq (device : Device) (p : Progress) :
    p.drop device = p.held?.map fun input => (.up input, device.respond (.up input)) := by
  cases p <;> rfl

/-- The command that lets up an input when its action is dropped. -/
def Call.drop (device : Device) (now group position : Nat) (input : Input) : Call :=
  ⟨now, group, position, .up input, device.respond (.up input)⟩

namespace Executor

/-- The commands sent when entries are dropped, with the position of the first of them. -/
def dropsFrom (device : Device) (now group : Nat) : Nat → List Entry → List Call
  | _, [] => []
  | position, e :: entries =>
    e.progress.held?.toList.map (Call.drop device now group position) ++
      dropsFrom device now group (position + 1) entries

theorem dropCalls_eq (device : Device) (now : Nat) (run : Run) :
    dropCalls device now run = dropsFrom device now run.id 0 run.entries := by
  suffices ∀ (entries : List Entry) (first : Nat),
      ((entries.zipIdx first).filterMap fun x =>
        (x.1.progress.drop device).map fun sent =>
          (⟨now, run.id, x.2, sent.1, sent.2⟩ : Call)) =
        dropsFrom device now run.id first entries from this run.entries 0
  intro entries
  induction entries with
  | nil => exact fun _ => rfl
  | cons e entries ih =>
      intro first
      rw [List.zipIdx_cons, List.filterMap_cons, ih (first + 1)]
      simp only [Progress.drop_eq, dropsFrom]
      cases e.progress.held? <;> rfl

/-- The dropped entries let up what they held, in order. -/
theorem dropsFrom_commands (device : Device) (now group first : Nat) (entries : List Entry) :
    (dropsFrom device now group first entries).map (·.command) =
      (entries.filterMap fun e => e.progress.held?).map Command.up := by
  induction entries generalizing first with
  | nil => rfl
  | cons e entries ih =>
      rw [dropsFrom, List.map_append, ih, List.filterMap_cons]
      cases e.progress.held? <;> rfl

end Executor

/-! ## Turns -/

namespace Clockwork

variable {φ : Type} [Feed φ] {s s' : Clockwork φ} {es : List Event}

open Executor

/-- What a turn can do to the record of commands and to what actions hold. -/
inductive HeldTurn (s s' : Clockwork φ) : Prop where
  | same (hcalls : s'.executor.calls = s.executor.calls) (same : SameHeld s.executor s'.executor)
  | poll {b accepting : Bool} {run : Run} {position : Nat} {entry : Entry} {progress : Progress}
      {exchange : Option Exchange}
      (h : s.executor.worker = some ⟨b, .running (.joining accepting) run⟩)
      (hentry : run.entries[position]? = some entry)
      (polled : Progress.Polled s.executor.device entry.progress progress exchange)
      (hcalls : s'.executor.calls =
        s.executor.calls ++ Exchange.calls s.now run.id position exchange)
      (h' : s'.executor.worker = some ⟨b, .running (.joining accepting)
        { run with entries := run.entries.set position { entry with progress } }⟩)
  | drop {b : Bool} {step : Step} {run : Run} (h : s.executor.worker = some ⟨b, .running step run⟩)
      (hcalls : s'.executor.calls =
        s.executor.calls ++ dropCalls s.executor.device s.now run)
      (h' : s'.executor.worker = none)

theorem Stride.held (stride : Stride s es s') (sound : s.executor.Sound) : HeldTurn s s' := by
  have stay : ∀ run : Run, Run.SameHolds run run := fun run => .of_map rfl
  cases stride with
  | rest | tick | refocus | rewire => exact .same rfl ⟨fun _ _ => rfl, rfl⟩
  | start h =>
      exact .same rfl ((holdsNothing_of_none h).sameHeld
        (holdsNothing_of_run rfl (by simp [Stage.run?])))
  | leave h top =>
      refine .same rfl ((holdsNothing_of_run h ?_).sameHeld (holdsNothing_of_none rfl))
      rcases top with rfl | ⟨due, rfl⟩ <;> simp [Stage.run?]
  | begin h top =>
      refine .same rfl ((holdsNothing_of_run h ?_).sameHeld
        (holdsNothing_of_run rfl (by simp [Stage.run?])))
      rcases top with rfl | ⟨due, rfl, -⟩ <;> simp [Stage.run?]
  | hand h | miss h | crash h =>
      exact .same rfl ((holdsNothing_of_run h (by simp [Stage.run?])).sameHeld
        (holdsNothing_of_run rfl (by simp [Stage.run?])))
  | dispatch h hrun =>
      refine .same rfl ((holdsNothing_of_run h (by simp [Stage.run?])).sameHeld
        (holdsNothing_of_run rfl ?_))
      rintro _ ⟨⟩
      rw [hrun]
      exact Run.holdsNothing_dispatch _ _ _
  | focused h | activated h | settled h | closeEmpty h | joined h =>
      exact .same rfl (sameHeld_of_running h rfl rfl (stay _))
  | unfocused h =>
      refine .same rfl ((holdsNothing_of_run h ?_).sameHeld (holdsNothing_of_run rfl ?_))
      · rintro _ ⟨⟩
        exact Run.holdsNothing_of_isAt (sound _ _ _ h).1 (by simp)
      · rintro _ ⟨⟩
        exact Run.holdsNothing_failAll _ _
  | opened h | closeLate h =>
      exact .same rfl (sameHeld_of_running h rfl rfl (Run.sameHolds_releaseAll _))
  | @receive b run h =>
      exact .same rfl (sameHeld_of_running h rfl run.receive_id (Run.sameHolds_receive _))
  | finish h =>
      refine .same rfl ((holdsNothing_of_run h ?_).sameHeld
        (holdsNothing_of_run rfl (by simp [Stage.run?])))
      rintro _ ⟨⟩
      exact Run.holdsNothing_of_isAt (sound _ _ _ h).1 (by simp)
  | handIn h hstage =>
      refine .same rfl ((holdsNothing_of_run h (by simp [Stage.run?])).sameHeld
        (holdsNothing_of_run rfl ?_))
      split at hstage <;> simp [hstage, Stage.run?]
  | poll h hentry ready hpoll =>
      exact .poll h hentry (Progress.poll_polled ready hpoll) rfl rfl

/-- Only a poll and the loss of the worker send commands or change what is held. -/
theorem Turn.held (turn : Turn s es s') (sound : s.executor.Sound) : HeldTurn s s' := by
  cases turn with
  | stride stride => exact stride.held sound
  | bury h =>
      exact .same rfl ((holdsNothing_of_run h (by simp [Stage.run?])).sameHeld
        (holdsNothing_of_none rfl))
  | @interruptAll b stopping stage h =>
      cases stage with
      | running step run =>
          exact .same rfl (sameHeld_of_running h rfl rfl (Run.sameHolds_interruptAll _))
      | _ =>
          exact .same rfl ((holdsNothing_of_run h (by simp [Stage.run?])).sameHeld
            (holdsNothing_of_run rfl (by simp [Stage.interruptAll, Stage.run?])))
  | @interruptConflicting b stage group h =>
      cases stage with
      | running step run =>
          exact .same rfl (sameHeld_of_running h rfl rfl (Run.sameHolds_interruptConflicting _ _))
      | _ =>
          exact .same rfl ((holdsNothing_of_run h (by simp [Stage.run?])).sameHeld
            (holdsNothing_of_run rfl (by simp [Stage.interruptConflicting, Stage.run?])))
  | layer group h =>
      exact .same rfl (sameHeld_of_running h rfl rfl (Run.sameHolds_layer _ _))
  | abort h => exact .drop h rfl rfl
  | vanish h idle =>
      exact .same rfl ((holdsNothing_of_run h (by simp [idle])).sameHeld
        (holdsNothing_of_none rfl))

end Clockwork

end Combo
