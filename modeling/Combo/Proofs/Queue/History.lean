-- SUMMARY: The history of a queue: the latest reports of groups that were awaited, their number and their text, since the last clear.
import Mathlib.Data.List.DropRight
import Mathlib.Data.List.InsertIdx
import Combo.Proofs.Queue.Aftermath

/-!
# The history of reports

A group is awaited from the time it is handed out until it is reported, cleared
away or dropped by a stop. `awaitedAfter` keeps this account from the operations
and from what they hand out, and `received` are the reports that come in of groups
that are awaited just then. A report of an unknown group, a second report of one
group and a late report of a dropped one are not among them.

`Remembers` ties the queue to this account: it counts all the reports received,
and it keeps as many of the latest as its limit allows. Every operation but a clear
keeps the tie, and a clear starts it anew.
-/

namespace Combo.Queue

variable {σ : Type} [Control σ] {state : Queue × σ} {awaited : List Nat} {reports : List Report}

/-! ## Reports received -/

/-- The numbers of the groups that are awaited after one more operation. -/
def awaitedAfter (state : Queue × σ) (awaited : List Nat) : Operation → List Nat
  | .next now => awaited ++ ((state.1.next now).1.map (·.id)).toList
  | .complete report => awaited.erase report.id
  | .clear | .stop => []
  | .add _ _ | .resetErrors => awaited

/-- The report that an operation brings in of a group that is awaited. -/
def receivedBy (awaited : List Nat) : Operation → List Report
  | .complete report => if report.id ∈ awaited then [report] else []
  | .add _ _ | .next _ | .resetErrors | .clear | .stop => []

/-- The reports that operations bring in of groups awaited by then, in order of arrival. -/
def received (state : Queue × σ) (awaited : List Nat) : List Operation → List Report
  | [] => []
  | o :: later =>
    receivedBy awaited o ++ received (perform state o) (awaitedAfter state awaited o) later

/-- The part of a history up to its last clear. -/
def untilClear (history : List Operation) : List Operation := history.rdropWhile (· != .clear)

/-- The part of a history after its last clear. -/
def sinceClear (history : List Operation) : List Operation := history.rtakeWhile (· != .clear)

/-- The reports received since the last clear; no group is awaited after a clear. -/
def reportsSinceClear (start : Queue × σ) (history : List Operation) : List Report :=
  received (performAll start (untilClear history)) [] (sinceClear history)

/-- Only a report can add to the reports received. -/
theorem received_append_singleton {o : Operation} (silent : ∀ report, o ≠ .complete report)
    (state : Queue × σ) (awaited : List Nat) (later : List Operation) :
    received state awaited (later ++ [o]) = received state awaited later := by
  induction later generalizing state awaited with
  | nil =>
      cases o with
      | complete report => exact absurd rfl (silent report)
      | add | next | resetErrors | clear | stop => rfl
  | cons o' later ih => simp only [List.cons_append, received, ih]

theorem reportsSinceClear_append_singleton {o : Operation} (silent : ∀ report, o ≠ .complete report)
    (keeps : o ≠ .clear) (start : Queue × σ) (history : List Operation) :
    reportsSinceClear start (history ++ [o]) = reportsSinceClear start history := by
  have until_same : untilClear (history ++ [o]) = untilClear history :=
    List.rdropWhile_concat_pos _ _ _ (by simpa using keeps)
  have since_one : sinceClear (history ++ [o]) = sinceClear history ++ [o] :=
    List.rtakeWhile_concat_pos _ _ _ (by simpa using keeps)
  rw [reportsSinceClear, until_same, since_one, received_append_singleton silent]
  rfl

/-! ## What a queue remembers -/

theorem latest_eq_rtake {α : Type} (limit : Nat) (xs : List α) :
    latest limit xs = xs.rtake (min xs.length limit) := by
  rw [latest, List.rtake]
  congr 1
  omega

/-- To take in a report is to take its group from those that are outstanding. -/
theorem runningIds_complete (q : Queue) (report : Report) :
    (q.complete report).runningIds = q.runningIds.erase report.id := by
  have place : q.runningIds.idxOf? report.id = q.running.findIdx? (·.id == report.id) := by
    rw [runningIds, List.idxOf?, List.findIdx?_map]
    rfl
  rw [List.erase_eq_eraseIdx, place]
  unfold complete
  split
  · rename_i unknown
    rw [unknown]
  · rename_i i known
    simp only [known, runningIds, List.eraseIdx_map]

/-- A report of an outstanding group is counted and put at the end of the history. -/
theorem complete_of_mem {q : Queue} {report : Report} (h : report.id ∈ q.runningIds) :
    (q.complete report).finished = q.finished + 1 ∧
      (q.complete report).history = latest q.engine.historyLimit (q.history ++ [report]) := by
  rcases complete_cases q report with ⟨unknown, -⟩ | ⟨before, o, after, -, -, heq⟩
  · obtain ⟨o, ho, hid⟩ := List.mem_map.1 h
    exact absurd hid (unknown o ho)
  · rw [heq]
    exact ⟨rfl, rfl⟩

/-- The queue has the awaited groups outstanding, counts the reports and keeps the latest. -/
structure Remembers (awaited : List Nat) (reports : List Report) (q : Queue) : Prop where
  outstanding : q.runningIds = awaited
  counted : q.finished = reports.length
  kept : q.history = latest q.engine.historyLimit reports

/-- A new queue remembers nothing. -/
theorem remembers_new (engine : Engine) : Remembers [] [] ({ engine } : Queue) :=
  ⟨rfl, rfl, by simp [latest]⟩

/-- After a clear nothing is remembered. -/
theorem remembers_clear (state : Queue × σ) : Remembers [] [] (perform state .clear).1 :=
  ⟨rfl, rfl, by simp [perform, clear, latest]⟩

/-- To take in a report, or to ignore it, keeps the account. -/
theorem Remembers.complete {q : Queue} (h : Remembers awaited reports q) (report : Report) :
    Remembers (awaited.erase report.id) (reports ++ receivedBy awaited (.complete report))
      (q.complete report) := by
  obtain ⟨outstanding, counted, kept⟩ := h
  have engine := (complete_pending q report).2.2.2
  have awaits : (q.complete report).runningIds = awaited.erase report.id := by
    rw [runningIds_complete, outstanding]
  rw [receivedBy]
  by_cases known : report.id ∈ awaited
  · obtain ⟨finished, history⟩ := complete_of_mem (outstanding ▸ known)
    rw [if_pos known]
    refine ⟨awaits, ?_, ?_⟩
    · rw [finished, counted, List.length_append, List.length_singleton]
    · rw [history, engine, kept, latest_latest_append]
  · rw [if_neg known, List.append_nil]
    refine ⟨awaits, ?_, ?_⟩
    · rw [complete_of_notMem (outstanding ▸ known), counted]
    · rw [complete_of_notMem (outstanding ▸ known), kept]

/-- No script, taken in or refused, changes what is remembered or awaited. -/
theorem Remembers.add (h : Remembers awaited reports state.1) (now : Nat) (script : String) :
    Remembers awaited reports (state.1.add now script state.2).2.1 := by
  obtain ⟨outstanding, counted, kept⟩ := h
  rcases add_cases now script state.1 state.2 with ⟨_, _, heq⟩ | ⟨groups, -, -, heq⟩
  · rw [heq]
    exact ⟨outstanding, counted, kept⟩
  · rw [heq]
    refine ⟨?_, counted, kept⟩
    cases (state.1.makeRoom groups state.2).2 with
    | false => exact outstanding
    | true => exact (runningIds_mergeIntoLast _ _ _).trans outstanding

/-- Every operation but a clear keeps the account of what is awaited and received. -/
theorem Remembers.perform (h : Remembers awaited reports state.1) {o : Operation}
    (keeps : o ≠ .clear) : Remembers (awaitedAfter state awaited o) (reports ++ receivedBy awaited o)
      (perform state o).1 := by
  cases o with
  | clear => exact absurd rfl keeps
  | complete report => exact h.complete report
  | add now script =>
      rw [receivedBy, List.append_nil]
      exact h.add now script
  | next now =>
      rw [receivedBy, List.append_nil, awaitedAfter, Queue.perform]
      rcases next_cases now state.1 with ⟨-, heq⟩ | ⟨t, rest, -, heq⟩
      · simpa [heq] using h
      · rw [heq]
        exact ⟨by simp [runningIds, ← h.outstanding], h.counted, h.kept⟩
  | resetErrors =>
      rw [receivedBy, List.append_nil]
      exact ⟨h.outstanding, h.counted, h.kept⟩
  | stop =>
      rw [receivedBy, List.append_nil]
      exact ⟨rfl, h.counted, h.kept⟩

/-- Without a clear, what a queue remembers grows by the reports received. -/
theorem Remembers.performAll (h : Remembers awaited reports state.1) {later : List Operation}
    (keeps : .clear ∉ later) :
    ∃ awaited', Remembers awaited' (reports ++ received state awaited later)
      (performAll state later).1 := by
  induction later generalizing state awaited reports with
  | nil => exact ⟨awaited, by simpa [received] using h⟩
  | cons o later ih =>
      obtain ⟨first, rest⟩ := not_or.1 (mt List.mem_cons.2 keeps)
      rw [received, ← List.append_assoc, performAll_cons]
      exact ih (h.perform (Ne.symm first)) rest

/-- After any history a queue remembers what it received since the last clear. -/
theorem remembers_performAll (engine : Engine) (s : σ) (history : List Operation) :
    ∃ awaited, Remembers awaited (reportsSinceClear (({ engine } : Queue), s) history)
      (performAll (({ engine } : Queue), s) history).1 := by
  have fresh : Remembers [] []
      (Queue.performAll (({ engine } : Queue), s) (untilClear history)).1 := by
    by_cases created : untilClear history = []
    · rw [created]
      exact remembers_new engine
    · -- what comes before the operations since the clear ends with it
      have last : (untilClear history).getLast created = .clear := by
        have stops : ¬ ((untilClear history).getLast created != .clear) = true :=
          List.rdropWhile_last_not _ history created
        simpa using stops
      rw [← List.dropLast_append_getLast created, last, performAll_append]
      exact remembers_clear _
  have keeps : .clear ∉ sinceClear history := fun h => by simpa using List.mem_rtakeWhile_imp h
  have whole : untilClear history ++ sinceClear history = history :=
    List.rdropWhile_append_rtakeWhile
  rw [← whole, performAll_append, whole]
  exact fresh.performAll keeps

/-! ## Bounded history -/

/--
After any history of operations and for any limit: the count is the number of the reports received
since the queue was created or last cleared, the history is just the latest of them, as many as the
limit allows and oldest first, and the snapshot shows the count and the text of these groups as they
were reported. Nothing but a report and a clear changes any of it: no stop, and no script, refused
or taken in.
-/
theorem history_bounded (engine : Engine) (s : σ) (history : List Operation) :
    let start : Queue × σ := ({ engine }, s)
    let q := (performAll start history).1
    let reports := reportsSinceClear start history
    let recent := reports.rtake (min reports.length engine.historyLimit)
    (q.finished = reports.length ∧ q.history = recent) ∧
    (∀ now, (q.status now).finishedCount = reports.length ∧
      (q.status now).finishedText = Script.format (recent.map (·.group))) ∧
    ∀ o, (∀ report, o ≠ .complete report) → o ≠ .clear →
      let q' := (performAll start (history ++ [o])).1
      reportsSinceClear start (history ++ [o]) = reports ∧
      (q'.finished = q.finished ∧ q'.history = q.history) ∧
      ∀ now now', (q'.status now').finishedCount = (q.status now).finishedCount ∧
        (q'.status now').finishedText = (q.status now).finishedText := by
  have remembered (history : List Operation) :
      let q := (performAll (({ engine } : Queue), s) history).1
      let reports := reportsSinceClear (({ engine } : Queue), s) history
      q.finished = reports.length ∧
        q.history = reports.rtake (min reports.length engine.historyLimit) := by
    obtain ⟨awaited, -, counted, kept⟩ := remembers_performAll engine s history
    rw [engine_performAll, latest_eq_rtake] at kept
    exact ⟨counted, kept⟩
  intro start q reports recent
  obtain ⟨counted, kept⟩ : q.finished = reports.length ∧ q.history = recent := remembered history
  refine ⟨⟨counted, kept⟩, fun now => ⟨counted, ?_⟩, ?_⟩
  · rw [← kept]
    rfl
  · intro o silent keeps q'
    have same : reportsSinceClear start (history ++ [o]) = reports :=
      reportsSinceClear_append_singleton silent keeps start history
    obtain ⟨counted', kept'⟩ := remembered (history ++ [o])
    rw [same] at counted' kept'
    have finished : q'.finished = q.finished := counted'.trans counted.symm
    have remains : q'.history = q.history := kept'.trans kept.symm
    refine ⟨same, ⟨finished, remains⟩, fun now now' => ⟨finished, ?_⟩⟩
    simp only [status, remains]

/-- The reports of two groups that are handed out after a clear. -/
def stepReports : List Report :=
  [⟨1, Group.of [Action.make .moveForward none], [], false⟩,
    ⟨2, Group.of [Action.make .moveLeft none], [], true⟩]

/-- A group is reported before a clear, and two after it: both twice, beside an unknown one. -/
def repeatedReports : List Operation :=
  [.add 0 "e", .next 0, .complete ⟨0, default, [], false⟩, .clear] ++
    [.add 10 "w,a,s", .next 10, .next 20] ++
    stepReports.map .complete ++ stepReports.map .complete ++ [.complete ⟨7, default, [], false⟩]

/-- With room for one report the second step is kept, and no refused script or stop changes it. -/
theorem history_bounded_repeatedReports :
    let start : Queue × StandIn := ({ engine := { historyLimit := 1 } }, { attached := true })
    let q := (performAll start repeatedReports).1
    reportsSinceClear start repeatedReports = stepReports ∧
      (q.finished = 2 ∧ q.history = stepReports.drop 1 ∧ (q.status 30).finishedText = "a") ∧
      ∀ o ∈ [Operation.add 40 "zz", .stop],
        (∀ report, o ≠ .complete report) ∧ o ≠ .clear ∧
        (performAll start (repeatedReports ++ [o])).1.history = stepReports.drop 1 := by
  intro start q
  have reports : reportsSinceClear start repeatedReports = stepReports := by decide +kernel
  obtain ⟨⟨counted, kept⟩, shown, unchanged⟩ :=
    history_bounded start.1.engine start.2 repeatedReports
  have finished : q.finished = 2 := counted.trans (congrArg List.length reports)
  have recent : q.history = stepReports.drop 1 := by
    rw [kept, reports]
    rfl
  have text : (q.status 30).finishedText = "a" := by
    rw [(shown 30).2, reports]
    decide +kernel
  refine ⟨reports, ⟨finished, recent, text⟩, fun o ho => ?_⟩
  have silent : ∀ report, o ≠ .complete report := by
    rintro report rfl
    simp at ho
  have keeps : o ≠ .clear := by
    rintro rfl
    simp at ho
  obtain ⟨-, ⟨-, same⟩, -⟩ := unchanged o silent keeps
  exact ⟨silent, keeps, same.trans recent⟩

end Combo.Queue
