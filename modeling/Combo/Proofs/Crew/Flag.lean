-- SUMMARY: With one worker at a time that gives nothing up, the flag of a report against the interrupts of its group.
import Combo.Proofs.Clockwork.Flag
import Combo.Proofs.Crew.Apart

/-!
# The flag of a report of a crew

What an interrupt reaches is told by the moves of the single worker that the crew is seen as: an action
is reached when a request or a stop hits it before it has ended. The flag of the report is derived
afterwards, from the token of the group and from the outcomes, so it misses an action that was reached alone
and failed on its way out.
-/

namespace Combo

namespace Crew

variable {φ : Type} [Feed φ] {c : Crew φ}

/--
Whatever happened before, with one worker at a time: follow a group from its dispatch under the interrupts
that were deferred to it, as long as no worker is lost or taken away and none gives its actions up. It runs
on, or it has come to a report, which is handed in or about to be. The report is flagged as interrupted if
and only if everything was interrupted, at the dispatch or while the run went on, or some action that an
interrupt reached before it ended is reported as cancelled. Every action that was reached has an outcome:
it is reported as cancelled, or as failed because the release of what it held was refused, or because the
window could not be activated. No other action is reported as cancelled.
-/
theorem flag_tells_interrupts (feed : φ) (engine : Engine) (target : Target) (device : Device) (focus : Focus)
    (earlier later : List Move) {w k : Nat} {b : Bool} {t : Ticket}
    (successive : (new feed engine target device focus).Successive earlier)
    (taken : ((new feed engine target device focus).play earlier).members[w]? = some ⟨b, k, .taken t⟩)
    (orderly : (((new feed engine target device focus).play earlier).move (.work w)).Orderly later) :
    let d := ((new feed engine target device focus).play earlier).board.deferred
    let c := ((new feed engine target device focus).play earlier).move (.work w)
    let s := c.single
    c.SeenAs later s (c.plain later) ∧
    ((∀ e ∈ c.seen Option.isSome later, e.isLoss = false) →
      (∃ (w : Nat) (b : Bool) (k : Nat) (step : Step) (run : Run) (ledger : Ledger),
        (c.play later).members[w]? = some ⟨b, k, .running step run ledger⟩ ∧ run.id = t.id) ∨
      ∃ during rest fault final, c.plain later = during ++ rest ∧
        (s.play during).IsRunning (.closing fault) final ∧ final.id = t.id ∧
        ((c.seen Option.isSome later = s.journal during ∧
          ∃ (w : Nat) (b : Bool) (k : Nat) (faulty : Bool),
            (c.play later).members[w]? = some ⟨b, k, .reporting final.report faulty⟩) ∨
          ∃ after, c.seen Option.isSome later = s.journal during ++ .reported final.report :: after) ∧
        (final.report.interrupted = true ↔
          (d.all = true ∨ ∃ m ∈ during, m.deferral.all = true) ∨
          ∃ i o, s.Reached t d during i ∧ final.report.outcomes[i]? = some o ∧ o.ending = .cancelled) ∧
        (∀ i, s.Reached t d during i → ∃ o, final.report.outcomes[i]? = some o ∧
          (o.ending.IsLetGo t.id i (s.journal during) ∨
            ∃ err, fault = some err ∧ o.ending = .failed err.message)) ∧
        ∀ i o, final.report.outcomes[i]? = some o → o.ending = .cancelled → s.Reached t d during i) := by
  intro d c s
  obtain ⟨lone, -⟩ := lone_of_successive successive
  obtain ⟨lone', dispatched⟩ := lone.single_move rfl (plainMove_work_of_taken taken)
  have seen := lone'.seenAs orderly
  refine ⟨seen, fun whole => ?_⟩
  rw [seen.journal] at whole ⊢
  have flagged := Clockwork.interrupted_flag (lone.worker taken (by simp)) (c.plain later)
  rw [← dispatched] at flagged
  rcases flagged whole with ⟨step, run, running, id⟩ |
    ⟨during, rest, fault, final, heq, closing, id, handed, flag, reached, unreached⟩
  · obtain ⟨w, b, k, ledger, hm⟩ := (seen.looks.running step run).1 running
    exact .inl ⟨w, b, k, step, run, ledger, hm, id⟩
  · refine .inr ⟨during, rest, fault, final, heq, closing, id, handed.imp_left fun ⟨same, reporting⟩ => ⟨same, ?_⟩,
      flag, reached, unreached⟩
    exact (seen.looks.reporting final.report).1 reporting

/-- A supply with one group, which is a walk. -/
def onlyWalk : Supply where
  pending := [⟨3, ⟨[⟨.moveForward, some "5", 5.0⟩], 5.0⟩⟩]

/-- The walk is held and cannot be let go when a walk back interrupts it. -/
def untilRefused : List Move :=
  [.work 0, .work 0, .poll 0 0, .setDevice { failing := [.forward] },
    .request (.interruptConflicting ⟨[⟨.moveBack, some "1", 1.0⟩], 1.0⟩), .poll 0 0, .join 0 0, .work 0, .work 0,
    .work 0, .work 0]

/-- The moves of the single worker meanwhile. -/
def plainUntilRefused : List Combo.Move :=
  [.work, .work, .poll 0, .setDevice { failing := [.forward] },
    .request (.interruptConflicting ⟨[⟨.moveBack, some "1", 1.0⟩], 1.0⟩), .poll 0, .work, .work, .work, .work]

/-- The walk is reached before it ends, and fails; so the report is not flagged as interrupted. -/
theorem flag_tells_interrupts_refused :
    let start := new onlyWalk {} {} {} {}
    let t : Ticket := ⟨3, ⟨[⟨.moveForward, some "5", 5.0⟩], 5.0⟩⟩
    let c := (start.play [.start, .work 0, .work 0]).move (.work 0)
    start.Successive [.start, .work 0, .work 0] ∧
      (start.play [.start, .work 0, .work 0]).members[0]? = some ⟨false, 0, .taken t⟩ ∧
      c.Orderly untilRefused ∧ (∀ e ∈ c.seen Option.isSome untilRefused, e.isLoss = false) ∧
      c.plain untilRefused = plainUntilRefused ∧ c.single.Reached t {} plainUntilRefused 0 ∧
      ∃ (report : Report) (before after : List Event),
        c.seen Option.isSome untilRefused = before ++ .reported report :: after ∧ report.interrupted = false ∧
        ∃ during rest, plainUntilRefused = during ++ rest ∧ ∀ m ∈ during, m.deferral.all = false := by
  intro start t c
  have successive : start.Successive [.start, .work 0, .work 0] := by decide +kernel
  have taken : (start.play [.start, .work 0, .work 0]).members[0]? = some ⟨false, 0, .taken t⟩ := by decide +kernel
  have orderly : c.Orderly untilRefused := by decide +kernel
  have whole : ∀ e ∈ c.seen Option.isSome untilRefused, e.isLoss = false := by decide +kernel
  have rests : (c.play untilRefused).members = [⟨false, 1, .checking⟩] := by decide +kernel
  have unflagged : ((c.seen Option.isSome untilRefused).all fun
      | .reported report => !report.interrupted
      | _ => true) = true := by decide +kernel
  have plain : c.plain untilRefused = plainUntilRefused := by decide +kernel
  have reached : c.single.Reached t {} plainUntilRefused 0 :=
    .inr ⟨plainUntilRefused.take 4, .request (.interruptConflicting ⟨[⟨.moveBack, some "1", 1.0⟩], 1.0⟩),
      plainUntilRefused.drop 5, ⟨⟨.moveForward, some "5", 5.0⟩, "w_5", false, .holding .forward 5000⟩,
      rfl, by decide +kernel, rfl, by decide +kernel⟩
  refine ⟨successive, taken, orderly, whole, plain, reached, ?_⟩
  obtain ⟨-, flagged⟩ := flag_tells_interrupts onlyWalk {} {} {} {} [.start, .work 0, .work 0] untilRefused
    successive taken orderly
  rcases flagged whole with ⟨w, b, k, step, run, ledger, hm, -⟩ |
    ⟨during, rest, fault, final, heq, -, -, ⟨-, w, b, k, faulty, hm⟩ | ⟨after, seen⟩, flag, -⟩
  · have mem := List.mem_of_getElem? hm
    rw [rests] at mem
    cases List.mem_singleton.1 mem
  · have mem := List.mem_of_getElem? hm
    rw [rests] at mem
    cases List.mem_singleton.1 mem
  · have silent : final.report.interrupted = false := by
      have := List.all_eq_true.1 unflagged (.reported final.report) (by rw [seen]; simp)
      simpa using this
    refine ⟨final.report, _, after, seen, silent, during, rest, plain.symm.trans heq, fun m hm => ?_⟩
    rw [← Bool.not_eq_true]
    intro all
    rw [flag.2 (.inl (.inr ⟨m, hm, all⟩))] at silent
    cases silent

end Crew

end Combo
