-- SUMMARY: A cancelled run is wound up by its worker alone: every action lets go, all are joined, and the report is made.
import Combo.Proofs.Crew.Sends

/-!
# Winding up

An action that is cancelled can be polled, and ends with that poll. So a worker that waits
for the actions of a cancelled run can poll all that were started and join them, start
those that were waiting, and do the same with these. Then it makes its report. No time
passes meanwhile, and nobody else has a part in it.
-/

namespace Combo

/-- A poll of a cancelled action that was started ends it. -/
theorem Entry.ends_of_cancelled {device : Device} {attackMs now : Nat} {e : Entry} {progress : Progress}
    {exchange : Option Exchange} (cancelled : e.cancelled = true)
    (hpoll : e.progress.poll device attackMs now e.action e.cancelled = (progress, exchange))
    (ready : e.runnable now = true) : progress.isEnded = true := by
  rw [cancelled] at hpoll
  cases hp : e.progress with
  | queued | ended => simp [Entry.runnable, hp, Progress.runnable] at ready
  | holding input due =>
    simp only [hp, Progress.poll, if_true] at hpoll
    rcases device.ask_cases (.up input) (.ended .cancelled) with heq | ⟨message, response, -, heq⟩ <;>
      (rw [heq] at hpoll; cases hpoll; rfl)
  | ready | pressing | pausing =>
    simp [hp, Progress.poll] at hpoll
    rw [← hpoll.1]
    rfl

namespace Crew

variable {φ : Type}

/-- Whether a move is part of how a worker winds a run up. -/
def Move.isDuty : Move → Bool
  | .work _ | .closeLate _ | .poll _ _ | .join _ _ => true
  | _ => false

variable [Feed φ] {c : Crew φ} {w k : Nat} {b accepting : Bool} {run : Run} {ledger : Ledger}

/-- Whether a move polls an action or takes its outcome. -/
def Move.isTending : Move → Bool
  | .poll _ _ | .join _ _ => true
  | _ => false

theorem Move.isDuty_of_isTending {mv : Move} (h : mv.isTending = true) : mv.isDuty = true := by
  cases mv <;> first | rfl | cases h

theorem orderly_of_duties {moves : List Move} (duties : ∀ mv ∈ moves, mv.isDuty = true) : c.Orderly moves := by
  induction moves generalizing c with
  | nil => trivial
  | cons mv moves ih =>
    refine ⟨?_, ih fun mv' h => duties mv' (List.mem_cons_of_mem _ h)⟩
    have duty := duties mv List.mem_cons_self
    cases mv <;> first | rfl | cases duty

/-- Nothing but commands is seen while actions are polled and joined. -/
theorem called_of_tending {moves : List Move} (tending : ∀ mv ∈ moves, mv.isTending = true) :
    ∀ e ∈ c.journal moves, ∃ call, e = .called call := by
  induction moves generalizing c with
  | nil => simp
  | cons mv moves ih =>
    rw [journal_cons]
    refine List.forall_mem_append.2 ⟨?_, ih fun mv' h => tending mv' (List.mem_cons_of_mem _ h)⟩
    have tends := tending mv List.mem_cons_self
    cases mv with
    | poll worker position =>
      rcases notes_poll c worker position with silent | ⟨run, e, call, sent, -⟩
      · simp [silent]
      · simp [sent]
    | join => simp [notes]
    | _ => cases tends

/-- Started actions of a cancelled run end when they are polled. -/
theorem exists_polls (hm : c.members[w]? = some ⟨b, k, .running (.joining accepting) run ledger⟩)
    (cancelled : ∀ e ∈ run.entries, e.cancelled = true) (n : Nat) : ∃ moves run',
      (∀ mv ∈ moves, mv.isTending = true) ∧
      (c.play moves).members[w]? = some ⟨b, k, .running (.joining accepting) run' ledger⟩ ∧
      (∀ e ∈ run'.entries, e.cancelled = true) ∧ run'.entries.length = run.entries.length ∧
      ∀ i < n, ∀ e, run'.entries[i]? = some e → e.progress.isQueued = true ∨ e.progress.isEnded = true := by
  induction n with
  | zero => exact ⟨[], run, by simp, hm, cancelled, rfl, by simp⟩
  | succ n ih =>
    obtain ⟨moves, run', tending, hm', cancelled', length, done⟩ := ih
    have still (rest : ∀ e, run'.entries[n]? = some e → e.progress.isQueued = true ∨ e.progress.isEnded = true) :
        ∀ i < n + 1, ∀ e, run'.entries[i]? = some e → e.progress.isQueued = true ∨ e.progress.isEnded = true := by
      intro i lt e he
      rcases Nat.lt_succ_iff_lt_or_eq.1 lt with lt | rfl
      · exact done i lt e he
      · exact rest e he
    cases hentry : run'.entries[n]? with
    | none => exact ⟨moves, run', tending, hm', cancelled', length, still (by simp [hentry])⟩
    | some e =>
      have hc := cancelled' e (List.mem_of_getElem? hentry)
      by_cases ready : e.runnable (c.play moves).now = true
      · rcases hpoll : e.progress.poll (c.play moves).device (c.play moves).engine.attackMs (c.play moves).now
          e.action e.cancelled with ⟨progress, exchange⟩
        have ended := Entry.ends_of_cancelled hc hpoll ready
        have lt := (List.getElem?_eq_some_iff.1 hentry).1
        refine ⟨moves ++ [.poll w n],
          { run' with entries := run'.entries.set n { e with progress } }, ?_, ?_, ?_, ?_, ?_⟩
        · simpa [Move.isTending, or_imp, forall_and] using tending
        · rw [play_append, play_cons, play_nil, Crew.move, poll_of_ready hm' hentry ready hpoll]
          simp [setPost, hm']
        · intro e' he'
          rcases List.mem_or_eq_of_mem_set he' with he' | rfl
          · exact cancelled' e' he'
          · exact hc
        · rw [List.length_set, length]
        · intro i lt' e' he'
          by_cases here : n = i
          · subst here
            rw [List.getElem?_set_self lt] at he'
            cases he'
            exact .inr ended
          · rw [List.getElem?_set_ne here] at he'
            exact done i (by omega) e' he'
      · refine ⟨moves, run', tending, hm', cancelled', length, still fun e' he' => ?_⟩
        cases hentry.symm.trans he'
        cases hp : e.progress <;> simp_all [Entry.runnable, Progress.runnable, Progress.isQueued, Progress.isEnded]

/-- A worker can join all actions that have ended. -/
theorem exists_joins (hm : c.members[w]? = some ⟨b, k, .running (.joining accepting) run ledger⟩) (n : Nat) :
    ∃ moves ledger', (∀ mv ∈ moves, mv.isTending = true) ∧
      (c.play moves).members[w]? = some ⟨b, k, .running (.joining accepting) run ledger'⟩ ∧
      ∀ i < n, ∀ e, run.entries[i]? = some e → e.progress.isEnded = true → i ∈ ledger'.joined := by
  induction n with
  | zero => exact ⟨[], ledger, by simp, hm, by simp⟩
  | succ n ih =>
    obtain ⟨moves, ledger', tending, hm', done⟩ := ih
    by_cases takes : (run.entries[n]?.any (·.progress.isEnded) && !ledger'.joined.contains n) = true
    · refine ⟨moves ++ [.join w n], { ledger' with joined := ledger'.joined ++ [n] }, ?_, ?_, ?_⟩
      · simpa [Move.isTending, or_imp, forall_and] using tending
      · rw [play_append, play_cons, play_nil, Crew.move, join, hm']
        simp only [if_pos takes]
        simp [setPost, hm']
      · intro i lt e he ended
        rcases Nat.lt_succ_iff_lt_or_eq.1 lt with lt | rfl
        · exact List.mem_append_left _ (done i lt e he ended)
        · simp
    · refine ⟨moves, ledger', tending, hm', fun i lt e he ended => ?_⟩
      rcases Nat.lt_succ_iff_lt_or_eq.1 lt with lt | rfl
      · exact done i lt e he ended
      · simpa [he, ended] using takes

/-- A worker at a cancelled run can join all that was started. -/
theorem exists_joined (hm : c.members[w]? = some ⟨b, k, .running (.joining accepting) run ledger⟩)
    (cancelled : ∀ e ∈ run.entries, e.cancelled = true) : ∃ moves run' ledger',
      (∀ mv ∈ moves, mv.isTending = true) ∧
      (c.play moves).members[w]? = some ⟨b, k, .running (.joining accepting) run' ledger'⟩ ∧
      (∀ e ∈ run'.entries, e.cancelled = true) ∧ run'.isJoined ledger' = true := by
  obtain ⟨polls, run', tending, hm', cancelled', length, polled⟩ := exists_polls hm cancelled run.entries.length
  obtain ⟨joins, ledger', tending', hm'', joined⟩ := exists_joins hm' run.entries.length
  refine ⟨polls ++ joins, run', ledger', List.forall_mem_append.2 ⟨tending, tending'⟩, ?_, cancelled', ?_⟩
  · rw [play_append]
    exact hm''
  · refine List.all_eq_true.2 fun ⟨e, i⟩ hmem => ?_
    have he := List.mem_zipIdx_iff_getElem?.1 hmem
    have lt : i < run.entries.length := length ▸ (List.getElem?_eq_some_iff.1 he).1
    rcases polled i lt e he with queued | ended
    · simp [queued]
    · simp [ended, joined i lt e he ended]

/-! ## To the report -/

/-- Whether a worker can come to another post by its duties alone, and nothing but commands is seen meanwhile. -/
def Comes (c : Crew φ) (w : Nat) (m : Member) : Prop :=
  ∃ moves, (∀ mv ∈ moves, mv.isDuty = true) ∧ (∀ e ∈ c.journal moves, ∃ call, e = .called call) ∧
    (c.play moves).members[w]? = some m

theorem Comes.of_play {m : Member} (moves : List Move) (duties : ∀ mv ∈ moves, mv.isDuty = true)
    (called : ∀ e ∈ c.journal moves, ∃ call, e = .called call) (comes : (c.play moves).Comes w m) :
    c.Comes w m := by
  obtain ⟨moves', duties', called', hm⟩ := comes
  refine ⟨moves ++ moves', List.forall_mem_append.2 ⟨duties, duties'⟩, ?_, by rw [play_append]; exact hm⟩
  rw [journal_append]
  exact List.forall_mem_append.2 ⟨called, called'⟩

theorem Comes.of_tending {m : Member} (moves : List Move) (tending : ∀ mv ∈ moves, mv.isTending = true)
    (comes : (c.play moves).Comes w m) : c.Comes w m :=
  .of_play moves (fun mv h => Move.isDuty_of_isTending (tending mv h)) (called_of_tending tending) comes

/-- A worker that can take a step of its run comes to where the step leads. -/
theorem Comes.of_work {step : Step} {m : Member} (hm : c.members[w]? = some ⟨b, k, .running step run ledger⟩)
    (ready : Member.stepReady c.now run ledger step = true) (comes : (c.stepRun w run ledger step).Comes w m) :
    c.Comes w m := by
  have steps : c.play [.work w] = c.stepRun w run ledger step := by
    have ready' : Member.isReady c.now ⟨b, k, .running step run ledger⟩ = true := ready
    simp only [play_cons, play_nil, move, work, hm, if_pos ready']
  exact .of_play [.work w] (by simp [Move.isDuty]) (by simp [notes, workEvents, hm]) (steps ▸ comes)

theorem comes_of_closing {fault : Option InputError}
    (hm : c.members[w]? = some ⟨b, k, .running (.closing fault) run ledger⟩) :
    ∃ report faulty, c.Comes w ⟨b, k, .reporting report faulty⟩ :=
  ⟨run.report, fault.isSome, .of_work hm rfl ⟨[], by simp, by simp, by simp [stepRun, setPost, hm]⟩⟩

/-- A worker that has joined all actions makes the report. -/
theorem comes_of_joining_false (hm : c.members[w]? = some ⟨b, k, .running (.joining false) run ledger⟩)
    (cancelled : ∀ e ∈ run.entries, e.cancelled = true) :
    ∃ report faulty, c.Comes w ⟨b, k, .reporting report faulty⟩ := by
  obtain ⟨moves, run', ledger', tending, hm', -, joined⟩ := exists_joined hm cancelled
  have closing : ((c.play moves).stepRun w run' ledger' (.joining false)).members[w]? =
      some ⟨b, k, .running (.closing none) run' ledger'⟩ := by
    simp [stepRun, wait, Member.canReceive, setPost, hm']
  obtain ⟨report, faulty, comes⟩ := comes_of_closing closing
  exact ⟨report, faulty, .of_tending moves tending (.of_work hm' (by simp [Member.stepReady, joined]) comes)⟩

/-- A worker that still takes actions in starts those that wait first. -/
theorem comes_of_joining_true (hm : c.members[w]? = some ⟨b, k, .running (.joining true) run ledger⟩)
    (cancelled : ∀ e ∈ run.entries, e.cancelled = true) :
    ∃ report faulty, c.Comes w ⟨b, k, .reporting report faulty⟩ := by
  obtain ⟨moves, run', ledger', tending, hm', cancelled', joined⟩ := exists_joined hm cancelled
  have closed : ((c.play moves).play [.closeLate w]).members[w]? =
      some ⟨b, k, .running (.joining false) run'.releaseAll ledger'⟩ := by
    simp [move, closeLate, close, setPost, hm', joined]
  obtain ⟨report, faulty, comes⟩ := comes_of_joining_false closed fun e he => by
    obtain ⟨e', he', rfl⟩ := List.mem_map.1 he
    simpa using cancelled' e' he'
  exact ⟨report, faulty,
    .of_tending moves tending (.of_play [.closeLate w] (by simp [Move.isDuty]) (by simp [notes]) comes)⟩

/-- A worker at a cancelled run that it has seen to can always make its report. -/
theorem comes_of_cancelled {step : Step} (hm : c.members[w]? = some ⟨b, k, .running step run ledger⟩)
    (looked : step ≠ .focusing) (all : run.cancelled = true) (coherent : run.Coherent) :
    ∃ report faulty, c.Comes w ⟨b, k, .reporting report faulty⟩ := by
  have opens {c : Crew φ} (hm : c.members[w]? = some ⟨b, k, .running .opening run ledger⟩) :
      ∃ report faulty, c.Comes w ⟨b, k, .reporting report faulty⟩ := by
    have joining : (c.stepRun w run ledger .opening).members[w]? =
        some ⟨b, k, .running (.joining true) run.releaseAll ledger⟩ := by
      simp [stepRun, setPost, hm]
    obtain ⟨report, faulty, comes⟩ := comes_of_joining_true joining fun e he => by
      obtain ⟨e', he', rfl⟩ := List.mem_map.1 he
      simpa using coherent all e' he'
    exact ⟨report, faulty, .of_work hm rfl comes⟩
  cases step with
  | focusing => exact absurd rfl looked
  | settling due =>
    have opening : (c.stepRun w run ledger (.settling due)).members[w]? =
        some ⟨b, k, .running .opening run ledger⟩ := by
      simp [stepRun, setPost, hm]
    obtain ⟨report, faulty, comes⟩ := opens opening
    exact ⟨report, faulty, .of_work hm (by simp [Member.stepReady, all]) comes⟩
  | opening => exact opens hm
  | joining accepting =>
    cases accepting with
    | true => exact comes_of_joining_true hm (coherent all)
    | false => exact comes_of_joining_false hm (coherent all)
  | closing fault => exact comes_of_closing hm

end Crew

end Combo
