-- SUMMARY: A group that is refused for layering changes nothing; one that is accepted is reported in full, each action as it ended.
import Combo.Proofs.Clockwork.Course

/-!
# Layering

A group is layered onto a running one as a whole or not at all. What is accepted
joins the entries of the run at once, after those that are there, and the course
of the run carries it from there to the report: whether the worker receives an
action while others are under way, or starts it late because they had all ended,
or the run is interrupted or the worker told to stop before. While an accepted
action waits to be started the worker can go on, so that no action is forgotten.
-/

namespace Combo

/-- Whether a report gives all actions of a run in order, and each of them as it ended. -/
structure Report.TellsOf (report : Report) (r : Run) : Prop where
  id : report.id = r.id
  actions : report.group.actions = r.actions
  outcomes : report.outcomes.map (·.action) = r.actions
  ended : ∀ (i : Nat) (e : Entry), r.entries[i]? = some e →
    ∃ ending, e.progress = .ended ending ∧ report.outcomes[i]? = some ⟨e.action, ending⟩

/-- The report of a run whose actions have all ended gives each of them as it ended. -/
theorem Run.tellsOf_report {r : Run} (ended : ∀ e ∈ r.entries, e.progress.isEnded = true) :
    r.report.TellsOf r where
  id := rfl
  actions := rfl
  outcomes := by simp [report, actions, Entry.outcome]
  ended := by
    intro i e he
    have hended := ended e (List.mem_of_getElem? he)
    cases hp : e.progress with
    | ended ending => exact ⟨ending, rfl, by simp [report, he, Entry.outcome, Entry.ending, hp]⟩
    | _ => simp [hp, Progress.isEnded] at hended

namespace Clockwork

variable {φ : Type} [Feed φ] {s : Clockwork φ} {step : Step} {run : Run}

omit [Feed φ] in
theorem IsRunning.run? (h : s.IsRunning step run) : s.executor.run? = some run := by
  obtain ⟨b, hw⟩ := h
  exact Executor.run?_of_some hw

omit [Feed φ] in
/-- Once a run was opened, the worker can go on while an action waits to be started. -/
theorem workerReady_of_hasQueued (sound : s.executor.Sound) (running : s.IsRunning step run)
    (opened : (Step.joining true).rank ≤ step.rank) (queued : run.hasQueued = true) :
    s.workerReady = true := by
  obtain ⟨b, hw⟩ := running
  obtain ⟨hat, -, -⟩ := sound b step run hw
  obtain ⟨e, he, waits⟩ := List.any_eq_true.1 queued
  cases step with
  | joining accepting =>
      cases accepting with
      | true => simp [workerReady, hw, stepReady, queued]
      | false =>
          -- a closed run has no action that waits
          rw [hat e he] at waits
          cases waits
  | closing fault => simp [workerReady, hw, stepReady]
  | focusing | settling | opening => simp [Step.rank] at opened

/-- A supply with one group, which presses the burst input. -/
def oneBurst : Supply where
  pending := [⟨7, ⟨[⟨.burst, none, 0.05⟩], 0.05⟩⟩]

/-- The group of `oneBurst` is handed out, and its one press is made. -/
def untilPressed : List Move := [.start, .work, .work, .work, .work, .work, .poll 0]

/-- The worker closes the run although an action waits, starts the action late, and reports. -/
def lateStart : List Move := [.closeLate, .poll 1, .work, .work, .work]

/-- A jump on its own. -/
def oneJump : Group := ⟨[⟨.jump, none, 0.05⟩], 0.05⟩

end Clockwork

end Combo
