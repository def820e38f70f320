-- SUMMARY: A stopped queue is inert, and what a clear or a stop drops never comes back, however late it is reported.
import Combo.Proofs.Queue.Conservation

/-!
# After a clear or a stop

To clear and to stop drop the groups that are pending and outstanding, while the
executor may still be busy with one of them and report it later, or more than
once. Numbers are given out once, so a group that was dropped has no place in the
queue any more: its reports come to nothing, whatever is taken in, handed out and
reported beside them. After a stop nothing is taken in either, and all that
remains is a history that can be cleared and a count that can be reset.
-/

namespace Combo.Queue

/-! ## A stopped queue -/

/-- The queue is stopped and has no work. -/
structure Retired (q : Queue) : Prop where
  stopped : q.stopped = true
  pending : q.pending = []
  running : q.running = []

/-- What is left of a queue that is stopped, once it was asked for these operations. -/
def remains (q : Queue) (asked : List Operation) : Queue :=
  { q with
    history := if .clear ∈ asked then [] else q.history
    finished := if .clear ∈ asked then 0 else q.finished
    errors := if .resetErrors ∈ asked then 0 else q.errors }

theorem Retired.remains {q : Queue} (retired : q.Retired) (asked : List Operation) :
    (q.remains asked).Retired :=
  ⟨retired.stopped, retired.pending, retired.running⟩

@[simp] theorem remains_nil (q : Queue) : q.remains [] = q := by simp [remains]

/-- What is left after more operations is left of what was left before. -/
theorem remains_cons (q : Queue) (o : Operation) (asked : List Operation) :
    (q.remains [o]).remains asked = q.remains (o :: asked) := by
  by_cases cleared : Operation.clear ∈ asked <;> by_cases reset : Operation.resetErrors ∈ asked <;>
    simp [remains, cleared, reset]

section History

variable {σ : Type} [Control σ] {state : Queue × σ}

/-- A stop leaves a queue without work, whatever it had. -/
theorem retired_stop (state : Queue × σ) : (perform state .stop).1.Retired := ⟨rfl, rfl, rfl⟩

/-- A report of no outstanding group comes to nothing. -/
theorem complete_of_notMem {q : Queue} {report : Report} (h : report.id ∉ q.runningIds) :
    q.complete report = q := by
  rcases complete_cases q report with ⟨-, heq⟩ | ⟨before, o, after, hrunning, hid, -⟩
  · exact heq
  · exact absurd (by simp [runningIds, hrunning, hid]) h

/-- An operation on a stopped queue clears the history, resets the count, or does nothing. -/
theorem Retired.perform (retired : state.1.Retired) (o : Operation) :
    perform state o = (state.1.remains [o], state.2) := by
  have idle : state.1.dropWork state.2 = state := by
    have hpending := retired.pending
    have hrunning := retired.running
    obtain ⟨⟨⟩, s⟩ := state
    simp_all [dropWork]
  cases o with
  | add now script => simp [Queue.perform, add_of_stopped retired.stopped, Queue.remains]
  | next now =>
      rcases next_cases now state.1 with ⟨-, heq⟩ | ⟨t, rest, hpending, -⟩
      · simp [Queue.perform, heq, Queue.remains]
      · rw [retired.pending] at hpending
        cases hpending
  | complete report =>
      have unknown : report.id ∉ state.1.runningIds := by simp [runningIds, retired.running]
      simp [Queue.perform, complete_of_notMem unknown, Queue.remains]
  | resetErrors => simp [Queue.perform, resetErrors, Queue.remains]
  | clear => simp [Queue.perform, clear, idle, Queue.remains]
  | stop =>
      obtain ⟨q, s⟩ := state
      simp only [Queue.perform, stop, idle, Queue.remains]
      simp [← retired.stopped]

/-- Nothing but the history and the count of a stopped queue ever changes. -/
theorem Retired.performAll (retired : state.1.Retired) (asked : List Operation) :
    performAll state asked = (state.1.remains asked, state.2) := by
  induction asked generalizing state with
  | nil => simp
  | cons o asked ih =>
      rw [performAll_cons, retired.perform o, ih (retired.remains [o]), remains_cons]

/-! ## Dropped groups -/

/-- A group that a history has dropped is not pending, not outstanding and not in the history. -/
theorem notMem_of_dropped (engine : Engine) (s : σ) (history : List Operation) {id : Nat}
    (dropped : id ∈ (journal (({ engine } : Queue), s) history).flatMap Event.droppedIds) :
    let q := (performAll (({ engine } : Queue), s) history).1
    id ∉ q.pendingIds ∧ id ∉ q.runningIds ∧ id ∉ q.historyIds := by
  intro q
  obtain ⟨fresh, places, recent⟩ := accounts_performAll engine s history
  -- no number has two places, and this one is among the dropped
  have once := places.nodup_iff.2 (fresh ▸ List.nodup_range)
  rw [settledIds, ← List.append_assoc] at once
  have elsewhere : id ∉ q.pendingIds ++ q.runningIds ++
      ((journal (({ engine } : Queue), s) history).flatMap Event.mergedIds ++
        (journal (({ engine } : Queue), s) history).flatMap Event.completedIds) :=
    fun h => (List.nodup_append.1 once).2.2 id h id dropped rfl
  simp only [List.mem_append, not_or] at elsewhere
  exact ⟨elsewhere.1.1, elsewhere.1.2, fun h => elsewhere.2.2 (recent.subset h)⟩

/-- What was dropped stays in the journal. -/
theorem mem_droppedIds_append {start : Queue × σ} {earlier : List Operation} {id : Nat}
    (later : List Operation) (h : id ∈ (journal start earlier).flatMap Event.droppedIds) :
    id ∈ (journal start (earlier ++ later)).flatMap Event.droppedIds := by
  rw [journal_append, List.flatMap_append]
  exact List.mem_append_left _ h

/-- Whether an operation is the report of a group with one of these numbers. -/
def Operation.reportsOf (ids : List Nat) : Operation → Bool
  | .complete report => ids.contains report.id
  | .add _ _ | .next _ | .resetErrors | .clear | .stop => false

/-- Reports of groups that were dropped might as well not have come. -/
theorem performAll_filter_of_dropped {engine : Engine} {s : σ} {ids : List Nat}
    (earlier later : List Operation)
    (dropped : ∀ id ∈ ids,
      id ∈ (journal (({ engine } : Queue), s) earlier).flatMap Event.droppedIds) :
    performAll (({ engine } : Queue), s) (earlier ++ later) =
      performAll (({ engine } : Queue), s) (earlier ++ later.filter (!·.reportsOf ids)) := by
  induction later using List.reverseRecOn with
  | nil => rfl
  | append_singleton later o ih =>
      rw [List.filter_append, ← List.append_assoc, ← List.append_assoc, performAll_append, ih,
        performAll_append _ _ ([o].filter _)]
      cases late : o.reportsOf ids with
      | false => simp [late]
      | true =>
          cases o with
          | complete report =>
              have listed : report.id ∈ ids := by simpa [Operation.reportsOf] using late
              obtain ⟨-, gone, -⟩ := notMem_of_dropped engine s
                (earlier ++ later.filter (!·.reportsOf ids))
                (mem_droppedIds_append _ (dropped _ listed))
              simp [late, perform, complete_of_notMem gone]
          | add now script => cases late
          | next now => cases late
          | resetErrors => cases late
          | clear => cases late
          | stop => cases late

/-- What is pending or outstanding when the work is dropped is in the journal as dropped. -/
theorem mem_droppedIds {state : Queue × σ} {drop : Operation} (drops : drop ∈ [.clear, .stop])
    {id : Nat} (h : id ∈ state.1.pendingIds ++ state.1.runningIds) :
    id ∈ (events state drop).flatMap Event.droppedIds := by
  simp only [List.mem_cons, List.not_mem_nil, or_false] at drops
  rcases drops with rfl | rfl
  · simpa [events] using h
  · simpa [events] using h

/-! ## Nothing comes back -/

/--
After any history and a stop, whatever is asked of the queue: it has no work, hands out nothing and
refuses every script without a trace, whoever stands for its executor is left alone, and the history
and the number of reports stay until they are cleared. And a group that was pending or outstanding at a
clear or a stop is never again pending, outstanding or in the history; all its reports, whatever
they tell and whatever else happens, might as well not come.
-/
theorem stop_inert_and_dropped_gone (engine : Engine) (s : σ) (earlier later : List Operation) :
    let before := performAll (({ engine } : Queue), s) earlier
    (let stopped := perform before .stop
      let after := performAll stopped later
      (stopped.1.history = before.1.history ∧ stopped.1.finished = before.1.finished) ∧
      after = ({ stopped.1 with
        history := if .clear ∈ later then [] else before.1.history
        finished := if .clear ∈ later then 0 else before.1.finished
        errors := if .resetErrors ∈ later then 0 else before.1.errors }, stopped.2) ∧
      (after.1.pending = [] ∧ after.1.running = []) ∧
      (∀ now, after.1.next now = (none, after.1)) ∧
      ∀ now script, after.1.add now script after.2 = (.error .stopped, after)) ∧
    ∀ drop ∈ [.clear, .stop], ∀ id ∈ before.1.pendingIds ++ before.1.runningIds,
      let after := performAll (perform before drop) later
      (id ∉ after.1.pendingIds ∧ id ∉ after.1.runningIds ∧ id ∉ after.1.historyIds) ∧
      (∀ report, report.id = id → after.1.complete report = after.1) ∧
      after = performAll (perform before drop) (later.filter (!·.reportsOf [id])) := by
  intro before
  refine ⟨?_, ?_⟩
  · intro stopped after
    have retired : stopped.1.Retired := retired_stop before
    have heq : after = (stopped.1.remains later, stopped.2) := retired.performAll later
    have still : after.1.Retired := by
      rw [heq]
      exact retired.remains later
    refine ⟨⟨rfl, rfl⟩, heq, ⟨still.pending, still.running⟩, fun now => ?_, fun now script => ?_⟩
    · rw [next, still.pending]
    · exact add_of_stopped still.stopped
  · intro drop drops id hid after
    have hafter (rest : List Operation) : performAll (perform before drop) rest =
        performAll (({ engine } : Queue), s) (earlier ++ [drop] ++ rest) := by
      rw [performAll_append, performAll_append, performAll_cons, performAll_nil]
    have dropped : id ∈ (journal (({ engine } : Queue), s) (earlier ++ [drop])).flatMap
        Event.droppedIds := by
      rw [journal_append, journal_cons, journal_nil, List.append_nil, List.flatMap_append,
        List.mem_append]
      exact .inr (mem_droppedIds drops hid)
    have gone := notMem_of_dropped engine s (earlier ++ [drop] ++ later)
      (mem_droppedIds_append later dropped)
    rw [← hafter later] at gone
    refine ⟨gone, fun report hreport => complete_of_notMem (hreport ▸ gone.2.1), ?_⟩
    rw [hafter, ← performAll_filter_of_dropped (earlier ++ [drop]) later (by simpa using dropped)]
    exact hafter later

end History

/-- A jump is taken in after a clear; the walk that was cleared away is reported before and after it. -/
def lateWalk : List Operation :=
  [.add 200 "jump", .complete ⟨0, default, [⟨default, .cancelled⟩], true⟩, .next 300,
    .complete ⟨2, default, [], false⟩, .complete ⟨0, default, [], false⟩]

/-- The two late reports of the walk change nothing beside the jump, which is reported alone. -/
theorem stop_inert_and_dropped_gone_lateWalk :
    let start : Queue × StandIn := ({ engine := {} }, { attached := true })
    let before := performAll start [.add 0 "w(5),a", .next 100]
    let after := performAll (perform before .clear) lateWalk
    (.clear ∈ [Operation.clear, .stop] ∧ 0 ∈ before.1.pendingIds ++ before.1.runningIds) ∧
      (after.1.historyIds = [2] ∧ after.1.finished = 1 ∧ after.2.calls = [.interruptAll]) ∧
      (0 ∉ after.1.pendingIds ∧ 0 ∉ after.1.runningIds ∧ 0 ∉ after.1.historyIds) ∧
      after = performAll (perform before .clear)
        [.add 200 "jump", .next 300, .complete ⟨2, default, [], false⟩] := by
  intro start before after
  have outstanding : 0 ∈ before.1.pendingIds ++ before.1.runningIds := by decide +kernel
  obtain ⟨-, gone⟩ := stop_inert_and_dropped_gone start.1.engine start.2
    [.add 0 "w(5),a", .next 100] lateWalk
  obtain ⟨nowhere, -, heq⟩ := gone .clear (by decide) 0 outstanding
  exact ⟨⟨by decide, outstanding⟩, by decide +kernel, nowhere, heq⟩

end Combo.Queue
