-- SUMMARY: The flag of a report against the interrupts of its group: what was reached, how it ended, and when the flag shows it.
import Mathlib.Data.List.Induction
import Combo.Proofs.Clockwork.LetGo
import Combo.Proofs.Clockwork.Onward

/-!
# The flag of a report

An interrupt reaches an action if it hits the action before that has ended: when
it was deferred to the group, or while the run goes on. What was reached is
reported as cancelled, unless it failed on the way out, because its release was
refused or the window could not be activated. What was not reached is never
reported as cancelled. The flag of the report does not look at what was reached:
it shows that everything was interrupted at some moment, or that an action is
reported as cancelled.
-/

namespace Combo

/-- A poll that gets on with a cancelled action cancels it, unless its release is refused. -/
theorem Progress.poll_of_cancelled {device : Device} {attackMs now : Nat} {a : Action}
    {p p' : Progress} {exchange : Option Exchange} (ready : p.runnable now true = true)
    (h : p.poll device attackMs now a true = (p', exchange)) :
    p' = .ended .cancelled ∨ ∃ input err, exchange = some (.up input, .refused err) ∧
      p' = .ended (.failed (ExecutionError.input err).message) := by
  have intent : p.intent attackMs now a true = .silent (.ended .cancelled) ∨
      ∃ input, p.intent attackMs now a true = .send (.up input) (.ended .cancelled) :=
    intent_of_cancelled ready
  rw [poll_eq_settle] at h
  rcases intent with heq | ⟨input, heq⟩ <;> rw [heq] at h
  · cases h
    exact .inl rfl
  · rcases Intent.settle_up device input (.ended .cancelled) with hs | ⟨err, hs⟩ <;>
      cases hs.symm.trans h
    · exact .inl rfl
    · exact .inr ⟨input, err, rfl, rfl⟩

/-- A report is flagged if everything was interrupted or an action is reported as cancelled. -/
theorem Run.report_interrupted (r : Run) : r.report.interrupted = true ↔ r.cancelled = true ∨
    ∃ (i : Nat) (o : Outcome), r.report.outcomes[i]? = some o ∧ o.ending = .cancelled := by
  rw [Run.report, Bool.or_eq_true, List.any_eq_true]
  refine or_congr_right ⟨?_, ?_⟩
  · rintro ⟨o, ho, cancelled⟩
    obtain ⟨i, hi⟩ := List.mem_iff_getElem?.1 ho
    exact ⟨i, o, hi, by simpa using cancelled⟩
  · rintro ⟨i, o, hi, cancelled⟩
    exact ⟨o, List.mem_of_getElem? hi, by simp [cancelled]⟩

namespace Clockwork

variable {φ : Type} [Feed φ] {s : Clockwork φ} {t : Ticket} {d : Deferred} {m : Move}
  {moves : List Move} {step step' : Step} {run run' : Run} {position : Nat} {e e' : Entry}

/-- Whether a run that goes on after some moves went on all the time. -/
theorem exists_isRunning_of_append {first rest : List Move} {id : Nat}
    (running : s.IsRunning step run) (own : ∀ e ∈ s.journal (first ++ rest), e.isOf id = true)
    (running' : (s.play (first ++ rest)).IsRunning step' run') :
    ∃ step₁ run₁, (s.play first).IsRunning step₁ run₁ := by
  induction first generalizing s step run with
  | nil => exact ⟨step, run, running⟩
  | cons m first ih =>
      have own' : ∀ e ∈ (s.move m).journal (first ++ rest), e.isOf id = true :=
        fun e he => own e (List.mem_append_right _ he)
      rcases (turn_move m).proceeds running with
        ⟨step₁, run₁, running₁, -⟩ | ⟨-, reporting, -⟩ | ⟨lost, -⟩
      · exact ih running₁ own' running'
      · exact absurd running' (reporting.play own').not_isRunning
      · cases own .aborted (List.mem_append_left _ lost)

/-! ## What interrupts reach -/

/--
Whether an interrupt hit the action at a position before it ended: one that was deferred to the group
when it was dispatched, or one of the moves since then.
-/
def Reached (s : Clockwork φ) (t : Ticket) (d : Deferred) (moves : List Move) (position : Nat) :
    Prop :=
  (∃ a, t.group.actions[position]? = some a ∧ d.hits a = true) ∨
  ∃ before m after e, moves = before ++ m :: after ∧
    (s.play before).entryAt? position = some e ∧ e.progress.isEnded = false ∧
    m.deferral.hits e.action = true

/-- One more move reaches what it hits of the actions that have not ended. -/
theorem reached_append_singleton : s.Reached t d (moves ++ [m]) position ↔
    s.Reached t d moves position ∨ ∃ e, (s.play moves).entryAt? position = some e ∧
      e.progress.isEnded = false ∧ m.deferral.hits e.action = true := by
  constructor
  · rintro (hit | ⟨before, m', after, e, heq, he, going, hit⟩)
    · exact .inl (.inl hit)
    · rcases after.eq_nil_or_concat with rfl | ⟨after, m'', rfl⟩
      · obtain ⟨rfl, hm⟩ := List.append_inj' heq rfl
        cases hm
        exact .inr ⟨e, he, going, hit⟩
      · rw [List.concat_eq_append, ← List.cons_append, ← List.append_assoc] at heq
        obtain ⟨rfl, -⟩ := List.append_inj' heq rfl
        exact .inl (.inr ⟨before, m', after, e, rfl, he, going, hit⟩)
  · rintro ((hit | ⟨before, m', after, e, rfl, he, going, hit⟩) | ⟨e, he, going, hit⟩)
    · exact .inl hit
    · exact .inr ⟨before, m', after ++ [m], e, by simp, he, going, hit⟩
    · exact .inr ⟨moves, m, [], e, rfl, he, going, hit⟩

/-! ## One action -/

/-- How the action at a position of a group stands to the interrupts that came so far. -/
inductive Standing (s : Clockwork φ) (t : Ticket) (d : Deferred) (moves : List Move) (step : Step)
    (position : Nat) (e : Entry) : Prop where
  | spared (unreached : ¬ s.Reached t d moves position)
      (own : e.progress.isEnded = false → e.cancelled = false)
      (honest : e.progress ≠ .ended .cancelled)
  | reached (hit : s.Reached t d moves position) (cancelled : e.cancelled = true)
      (ended : ∀ ending, e.progress = .ended ending →
        ending.IsLetGo t.id position (s.journal moves) ∨
          ∃ fault, step = .closing (some fault) ∧ ending = .failed fault.message)

/-- An action that was not reached so far, after one more move. -/
theorem Standing.move_spared (unreached : ¬ s.Reached t d moves position)
    (own : e.progress.isEnded = false → e.cancelled = false)
    (honest : e.progress ≠ .ended .cancelled) (he : (s.play moves).entryAt? position = some e)
    (follows : (s.play moves).Follows m.deferral t.id position ((s.play moves).events m) step' e e') :
    s.Standing t d (moves ++ [m]) step' position e' := by
  by_cases hit : e.progress.isEnded = false ∧ m.deferral.hits e.action = true
  · refine .reached (reached_append_singleton.2 (.inr ⟨e, he, hit⟩)) ?_ fun ending ended => ?_
    · rw [follows.cancelled, hit.2, Bool.or_true]
    · have going := hit.1
      rw [← follows.still hit.2, ended] at going
      cases going
  · have unhit : e.progress.isEnded = false → m.deferral.hits e.action = false :=
      fun going => Bool.eq_false_iff.2 fun hits => hit ⟨going, hits⟩
    refine .spared ?_ ?_ ?_
    · rw [reached_append_singleton]
      rintro (hit' | ⟨e₁, he₁, hit'⟩)
      · exact unreached hit'
      · cases he.symm.trans he₁
        exact hit hit'
    · intro going'
      have going : e.progress.isEnded = false := by
        cases ended : e.progress.isEnded with
        | false => rfl
        | true =>
            rw [follows.advances.of_ended ended, ended] at going'
            cases going'
      rw [follows.cancelled, own going, unhit going, Bool.false_or]
    · exact follows.advances.ne_cancelled own honest

/-- An action that was reached goes on to let go, or fails with its window. -/
theorem Standing.move_reached (hit : s.Reached t d moves position) (cancelled : e.cancelled = true)
    (ended : ∀ ending, e.progress = .ended ending →
      ending.IsLetGo t.id position (s.journal moves) ∨
        ∃ fault, step = .closing (some fault) ∧ ending = .failed fault.message)
    (closing : ∀ fault, step = .closing fault → step' = .closing fault)
    (follows : (s.play moves).Follows m.deferral t.id position ((s.play moves).events m) step' e e') :
    s.Standing t d (moves ++ [m]) step' position e' := by
  have journal : s.journal (moves ++ [m]) = s.journal moves ++ (s.play moves).events m := by
    rw [journal_append, journal_cons, journal_nil, List.append_nil]
  refine .reached (reached_append_singleton.2 (.inl hit)) ?_ fun ending ended' => ?_
  · rw [follows.cancelled, cancelled, Bool.true_or]
  · have advances := follows.advances
    rw [ended'] at advances
    rw [journal]
    generalize hp : Progress.ended ending = p at advances
    cases advances with
    | rest =>
        rcases ended ending hp.symm with letGo | ⟨fault, hstep, failed⟩
        · exact .inl (letGo.mono fun _ => List.mem_append_left _)
        · exact .inr ⟨fault, closing _ hstep, failed⟩
    | started => cases hp
    | unfocused fault going hstep =>
        cases hp
        exact .inr ⟨fault, hstep, rfl⟩
    | polled ready hpoll seen =>
        subst hp
        rw [Entry.runnable, cancelled] at ready
        rw [cancelled] at hpoll
        rcases Progress.poll_of_cancelled ready hpoll with hended | ⟨input, err, rfl, hended⟩
        · cases hended
          exact .inl (.inl rfl)
        · cases hended
          refine .inl (.inr ⟨(s.play moves).now, input, err, List.mem_append_right _ ?_, rfl⟩)
          rw [seen]
          exact List.mem_singleton.2 rfl

/-! ## The run -/

/-- What is known of a run by the interrupts that came since its dispatch. -/
structure Stands (s : Clockwork φ) (t : Ticket) (d : Deferred) (moves : List Move) (step : Step)
    (run : Run) : Prop where
  id : run.id = t.id
  cancelled : run.cancelled = (d.all || moves.any (·.deferral.all))
  entries : ∀ (i : Nat) (e : Entry), run.entries[i]? = some e → s.Standing t d moves step i e
  /-- Where there is no action, none was reached. -/
  beyond : ∀ i : Nat, run.entries[i]? = none → ¬ s.Reached t d moves i

/-- At its dispatch a group is reached by what was deferred to it. -/
theorem stands_dispatch (s : Clockwork φ) (requireFocus : Bool) (t : Ticket) (d : Deferred)
    (step : Step) : s.Stands t d [] step (Run.dispatch requireFocus d t) := by
  obtain ⟨actions, dispatched⟩ := Run.dispatch_spec requireFocus d t
  have entryOf : ∀ i : Nat, t.group.actions[i]? =
      ((Run.dispatch requireFocus d t).entries[i]?).map (·.action) := by
    intro i
    rw [← actions, Run.actions, List.getElem?_map]
  have reached : ∀ i : Nat, s.Reached t d [] i ↔
      ∃ a, t.group.actions[i]? = some a ∧ d.hits a = true := by
    intro i
    simp [Reached]
  refine ⟨rfl, by simp [Run.dispatch], fun i e he => ?_, fun i hnone => ?_⟩
  · have hspec := dispatched e (List.mem_of_getElem? he)
    unfold Entry.IsDispatched at hspec
    have ha : t.group.actions[i]? = some e.action := by rw [entryOf, he]; rfl
    split at hspec
    · rename_i hit
      refine .reached ((reached i).2 ⟨e.action, ha, hit⟩) hspec.1 fun ending ended => ?_
      cases hspec.2.symm.trans ended
      exact .inl (.inl rfl)
    · rename_i spared
      refine .spared ?_ (fun _ => hspec.1) (by simp [hspec.2])
      rw [reached]
      rintro ⟨a, ha', hit⟩
      cases ha.symm.trans ha'
      exact spared hit
  · rw [reached, entryOf, hnone]
    simp

/-- One more move keeps what is known of a run up to date. -/
theorem Stands.move (stands : s.Stands t d moves step run)
    (running : (s.play moves).IsRunning step run)
    (running' : (s.play (moves ++ [m])).IsRunning step' run') :
    s.Stands t d (moves ++ [m]) step' run' := by
  rw [play_append_singleton] at running'
  have change := (proceeds_of_move running running').change
  have onward := onward_of_move running running'
  have unreached : ∀ i : Nat, run.entries[i]? = none → ¬ s.Reached t d (moves ++ [m]) i := by
    intro i hnone
    rw [reached_append_singleton]
    rintro (hit | ⟨e, he, -⟩)
    · exact stands.beyond i hnone hit
    · rw [entryAt?_of_running running, hnone] at he
      cases he
  refine ⟨change.id.trans stands.id, ?_, fun i e' he' => ?_, fun i hnone' => ?_⟩
  · rw [onward.cancelled, stands.cancelled]
    simp [Bool.or_assoc]
  · cases he : run.entries[i]? with
    | none =>
        have fresh := change.fresh i e' he he'
        exact .spared (unreached i he) (fun _ => fresh.1) (by simp [fresh.2])
    | some e =>
        obtain ⟨e'', he'', follows⟩ := onward.entries i e he
        cases he'.symm.trans he''
        rw [stands.id] at follows
        cases stands.entries i e he with
        | spared unreached own honest =>
            refine .move_spared unreached own honest ?_ follows
            rw [entryAt?_of_running running, he]
        | reached hit cancelled ended =>
            exact .move_reached hit cancelled ended onward.closing follows
  · refine unreached i ?_
    cases he : run.entries[i]? with
    | none => rfl
    | some e =>
        obtain ⟨e', he', -⟩ := change.kept i e he
        cases hnone'.symm.trans he'

/-- From its dispatch on it is known of a run how it stands to the interrupts that came. -/
theorem Stands.play (stands : s.Stands t d [] step run) (running : s.IsRunning step run)
    (own : ∀ e ∈ s.journal moves, e.isOf t.id = true)
    (running' : (s.play moves).IsRunning step' run') : s.Stands t d moves step' run' := by
  induction moves using List.reverseRecOn generalizing step' run' with
  | nil =>
      obtain ⟨rfl, rfl⟩ := running.unique running'
      exact stands
  | append_singleton moves m ih =>
      obtain ⟨step₁, run₁, running₁⟩ := exists_isRunning_of_append running own running'
      rw [journal_append] at own
      exact (ih (fun e he => own e (List.mem_append_left _ he)) running₁).move running₁ running'

/-- What a run that closes reports of an action, by whether it was reached. -/
theorem Stands.outcomes {fault : Option InputError} {i : Nat}
    (stands : s.Stands t d moves (.closing fault) run)
    (closed : ∀ e ∈ run.entries, e.progress.isEnded = true) :
    (s.Reached t d moves i → ∃ o, run.report.outcomes[i]? = some o ∧
      (o.ending.IsLetGo t.id i (s.journal moves) ∨
        ∃ err, fault = some err ∧ o.ending = .failed err.message)) ∧
    ∀ o, run.report.outcomes[i]? = some o → o.ending = .cancelled → s.Reached t d moves i := by
  have tells := Run.tellsOf_report closed
  refine ⟨fun hit => ?_, fun o ho cancelled => ?_⟩
  · cases he : run.entries[i]? with
    | none => exact absurd hit (stands.beyond i he)
    | some e =>
        obtain ⟨ending, ended, ho⟩ := tells.ended i e he
        refine ⟨_, ho, ?_⟩
        cases stands.entries i e he with
        | spared unreached => exact absurd hit unreached
        | reached _ _ endings =>
            rcases endings ending ended with letGo | ⟨err, hstep, failed⟩
            · exact .inl letGo
            · exact .inr ⟨err, by cases hstep; rfl, failed⟩
  · obtain ⟨e, he, rfl⟩ : ∃ e, run.entries[i]? = some e ∧ e.outcome = o := by
      simpa [Run.report] using ho
    obtain ⟨ending, ended, ho'⟩ := tells.ended i e he
    have same : ending = .cancelled := by rw [← cancelled, Option.some.inj (ho.symm.trans ho')]
    subst same
    cases stands.entries i e he with
    | spared unreached own honest => exact absurd ended honest
    | reached hit => exact hit

/--
Follow a group from its dispatch under the interrupts that were deferred to it to its report, for any
moves without a loss of the worker. The report is flagged as interrupted if and only if everything
was interrupted, at the dispatch or while the run went on, or some action that an interrupt reached
before it ended is reported as cancelled. Every action that was reached has an outcome: it is
reported as cancelled, or as failed because the release of what it held was refused, or because the
window could not be activated. No other action is reported as cancelled.
-/
theorem interrupted_flag {b : Bool} (taken : s.executor.worker = some ⟨b, .taken t d⟩)
    (later : List Move) :
    let s' := s.move .work
    (∀ e ∈ s'.journal later, e.isLoss = false) →
      (∃ step run, (s'.play later).IsRunning step run ∧ run.id = t.id) ∨
      ∃ during rest fault final, later = during ++ rest ∧
        (s'.play during).IsRunning (.closing fault) final ∧ final.id = t.id ∧
        ((s'.journal later = s'.journal during ∧ (s'.play later).IsReporting final.report) ∨
          ∃ after, s'.journal later = s'.journal during ++ .reported final.report :: after) ∧
        (final.report.interrupted = true ↔
          (d.all = true ∨ ∃ m ∈ during, m.deferral.all = true) ∨
          ∃ i o, s'.Reached t d during i ∧ final.report.outcomes[i]? = some o ∧
            o.ending = .cancelled) ∧
        (∀ i, s'.Reached t d during i → ∃ o, final.report.outcomes[i]? = some o ∧
          (o.ending.IsLetGo t.id i (s'.journal during) ∨
            ∃ err, fault = some err ∧ o.ending = .failed err.message)) ∧
        ∀ i o, final.report.outcomes[i]? = some o → o.ending = .cancelled →
          s'.Reached t d during i := by
  intro s' whole
  have sound : s'.executor.Sound := (turn_move .work).sound (sound_idle (by simp [taken]))
  have running := isRunning_of_taken taken
  rcases play_course sound running later whole with
    ⟨step', run', running', course⟩ | ⟨during, rest, final, heq, closes, handed⟩
  · exact .inl ⟨step', run', running', course.id⟩
  · obtain ⟨fault, running', course⟩ := closes.course
    have stands := (stands_dispatch s' _ t d _).play running course.own running'
    have reached : ∀ i o, final.report.outcomes[i]? = some o → o.ending = .cancelled →
        s'.Reached t d during i := fun i => (stands.outcomes closes.ended).2
    refine .inr ⟨during, rest, fault, final, heq, running', stands.id, handed, ?_,
      fun i => (stands.outcomes closes.ended).1, reached⟩
    rw [Run.report_interrupted, stands.cancelled, Bool.or_eq_true, List.any_eq_true]
    refine or_congr_right (exists₂_congr fun i o => ⟨?_, And.right⟩)
    rintro ⟨ho, cancelled⟩
    exact ⟨reached i o ho cancelled, ho, cancelled⟩

end Clockwork

end Combo
