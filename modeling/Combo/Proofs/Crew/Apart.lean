-- SUMMARY: With one worker at a time that gives nothing up, the actions of a group run as each of them runs alone.
import Combo.Proofs.Clockwork.Parallel
import Combo.Proofs.Crew.Rounds
import Combo.Proofs.Crew.View

/-!
# Groups of a crew as parallel compositions

As long as a worker waits for its actions, each of them goes on as it does alone. This
ends where the worker gives them up: an action that it has not joined by then is
reported as cancelled, whatever becomes of it afterwards.
-/

namespace Combo

namespace Crew

variable {φ : Type} [Feed φ] {c : Crew φ}

/-- A worker that holds a group dispatches it as a single worker does. -/
theorem plainMove_work_of_taken {w k : Nat} {b : Bool} {t : Ticket}
    (taken : c.members[w]? = some ⟨b, k, .taken t⟩) : c.plainMove (.work w) = [.work] := by
  simp [plainMove, plainWork, taken, Member.isReady]

/--
Whatever happened before, with one worker at a time: follow a group from its dispatch on, as long as it is
not reported, its worker is not taken away and does not give the actions up. To others the worker is a
single worker. The actions of the group are those it was handed out with and those layered onto it.
Each of them waits to be started; or it never was, because an interrupt hit it before its dispatch or the
window could not be activated; or it was started at some moment, and since then it is what it would be
alone, started at that instant. When the report is made it gives each action as it ended, at the latest of
the instants at which they ended.
-/
theorem actions_run_apart (feed : φ) (engine : Engine) (target : Target) (device : Device) (focus : Focus)
    (earlier later : List Move) {w k : Nat} {b : Bool} {t : Ticket}
    (successive : (new feed engine target device focus).Successive earlier)
    (taken : ((new feed engine target device focus).play earlier).members[w]? = some ⟨b, k, .taken t⟩)
    (orderly : (((new feed engine target device focus).play earlier).move (.work w)).Orderly later) :
    let c := ((new feed engine target device focus).play earlier).move (.work w)
    let s := c.single
    let moves := c.plain later
    c.SeenAs later s moves ∧
    ((∀ e ∈ c.seen Option.isSome later, e.isOf t.id = true) →
      (∃ (w : Nat) (b : Bool) (k : Nat) (step : Step) (run : Run) (ledger : Ledger),
        (c.play later).members[w]? = some ⟨b, k, .running step run ledger⟩ ∧
        run.actions = t.group.actions ++ (c.seen Option.isSome later).flatMap Event.layeredActions ∧
        ∀ (i : Nat) (e : Entry), run.entries[i]? = some e → s.Fate t.id i moves e) ∨
      ∃ (w : Nat) (b : Bool) (k : Nat) (faulty : Bool) (report : Report) (entries : List Entry),
        (c.play later).members[w]? = some ⟨b, k, .reporting report faulty⟩ ∧
        s.Reported t moves report entries) := by
  intro c s moves
  obtain ⟨lone, -⟩ := lone_of_successive successive
  obtain ⟨lone', dispatched⟩ := lone.single_move rfl (plainMove_work_of_taken taken)
  have seen := lone'.seenAs orderly
  have worker := lone.worker taken (by simp)
  refine ⟨seen, fun own => ?_⟩
  rw [seen.journal] at own ⊢
  have apart := Clockwork.group_runs_apart worker moves
  rw [← dispatched] at apart
  rcases apart own with ⟨step, run, running, actions, fates⟩ | ⟨report, entries, reporting, reported⟩
  · obtain ⟨w, b, k, ledger, hm⟩ := (seen.looks.running step run).1 running
    exact .inl ⟨w, b, k, step, run, ledger, hm, actions, fates⟩
  · obtain ⟨w, b, k, faulty, hm⟩ := (seen.looks.reporting report).1 reporting
    exact .inr ⟨w, b, k, faulty, report, entries, hm, reported⟩

/-- A walk of some seconds, and a jump at the same time. -/
def walkWithJump : Ticket := ⟨3, ⟨[⟨.moveForward, some "5", 5.0⟩, ⟨.jump, none, 0.05⟩], 5.0⟩⟩

/-- Both actions are started, the jump fails, and the walk is interrupted two milliseconds later. -/
def failedJump : List Move :=
  [.work 0, .work 0, .poll 0 1, .poll 0 0, .tick, .join 0 1, .tick, .tick, .request .interruptAll, .poll 0 0,
    .join 0 0, .work 0, .work 0, .work 0]

/-- The jump that fails at once neither ends nor delays the walk, and the report waits for both. -/
theorem actions_run_apart_failedJump :
    let start := new ({ pending := [walkWithJump] } : Supply) {} {} { failing := [.jump] } {}
    let c := (start.play [.start, .work 0, .work 0]).move (.work 0)
    let s := c.single
    (start.play [.start, .work 0, .work 0]).members[0]? = some ⟨false, 0, .taken walkWithJump⟩ ∧
      (∀ e ∈ c.seen Option.isSome failedJump, e.isOf walkWithJump.id = true) ∧
      (s.endedAt 0 (c.plain failedJump) = some 2 ∧ s.endedAt 1 (c.plain failedJump) = some 0) ∧
      ∃ report entries, s.Reported walkWithJump (c.plain failedJump) report entries := by
  intro start c s
  have taken : (start.play [.start, .work 0, .work 0]).members[0]? =
      some ⟨false, 0, .taken walkWithJump⟩ := by decide +kernel
  have successive : start.Successive [.start, .work 0, .work 0] := by decide +kernel
  have orderly : c.Orderly failedJump := by decide +kernel
  have own : ∀ e ∈ c.seen Option.isSome failedJump, e.isOf walkWithJump.id = true := by decide +kernel
  have done : ∀ m ∈ (c.play failedJump).members, m.post.isRunning = false := by decide +kernel
  refine ⟨taken, own, by decide +kernel, ?_⟩
  obtain ⟨-, apart⟩ := actions_run_apart ({ pending := [walkWithJump] } : Supply) {} {} { failing := [.jump] } {}
    [.start, .work 0, .work 0] failedJump successive taken orderly
  rcases apart own with ⟨w, b, k, step, run, ledger, hm, -⟩ | ⟨w, b, k, faulty, report, entries, hm, reported⟩
  · cases done _ (List.mem_of_getElem? hm)
  · exact ⟨report, entries, reported⟩

/-- A hold whose release begins to be refused is interrupted, given up at once and reported. -/
def givenUpUnreleased : List Move :=
  [.start, .work 0, .work 0, .work 0, .work 0, .work 0, .poll 0 0, .setDevice { failing := [.forward] },
    .request .interruptAll, .notice 0, .giveUp 0, .work 0]

/-- An action that is given up is reported as cancelled though alone it would have failed. -/
theorem given_up_not_as_alone :
    let c := new onlyHold { cleanupMs := 0 } {} {} {}
    let alone := (Solo.start forwardHold ({} : Engine).attackMs 0 false).play
      [.poll ({} : Device).respond, .cancel, .poll ({ failing := [.forward] } : Device).respond]
    c.Successive givenUpUnreleased ∧ (∀ e ∈ c.journal givenUpUnreleased, e.isLoss = false) ∧
      (c.play givenUpUnreleased).members =
        [⟨false, 1, .reporting ⟨0, ⟨[forwardHold], 2.0⟩, [⟨forwardHold, .cancelled⟩], true⟩ false⟩] ∧
      alone.progress = .ended (.failed (ExecutionError.input (Device.failure .forward)).message) := by
  decide +kernel

end Crew

end Combo
