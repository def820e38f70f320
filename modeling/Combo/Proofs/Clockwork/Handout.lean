-- SUMMARY: What the worker is at was handed out by the feed, and since then only events of that group were seen.
import Mathlib.Data.List.Induction
import Combo.Proofs.Clockwork.Course

/-!
# The group the worker is at

A worker comes to a group in one way only: the feed hands it out. It leaves the
group with the report, or is taken away. `GroupTurn` says what one turn comes to
in this respect, and `groupId?_play` what a play does: the worker is still at the
group it was at, or at the one that was handed out last. Nothing is assumed of
the feed or of what others call, so the worker may be lost and started again.

A command that holds or presses an input, or moves the mouse, is sent in a poll
and in no other way; `exists_poll_of_acts` finds the poll in a play.
-/

namespace Combo

namespace Clockwork

variable {φ : Type} {s s' : Clockwork φ} {es : List Event} {m : Move} {moves : List Move}
  {step : Step} {run : Run} {id : Nat}

/-- The number of the group that the worker is at. -/
def groupId? (s : Clockwork φ) : Option Nat := s.executor.worker.bind (·.stage.groupId?)

theorem groupId?_of_some {b : Bool} {stage : Stage} (h : s.executor.worker = some ⟨b, stage⟩) :
    s.groupId? = stage.groupId? := by
  simp [groupId?, h]

theorem groupId?_of_none (h : s.executor.worker = none) : s.groupId? = none := by
  simp [groupId?, h]

theorem exists_of_groupId? (h : s.groupId? = some id) :
    ∃ b stage, s.executor.worker = some ⟨b, stage⟩ ∧ stage.groupId? = some id := by
  cases hw : s.executor.worker with
  | none =>
      rw [groupId?_of_none hw] at h
      cases h
  | some w =>
      obtain ⟨b, stage⟩ := w
      exact ⟨b, stage, rfl, (groupId?_of_some hw).symm.trans h⟩

theorem IsRunning.groupId? (h : s.IsRunning step run) : s.groupId? = some run.id := by
  obtain ⟨b, hw⟩ := h
  exact groupId?_of_some hw

/-- Whether the worker is at a group that will start nothing any more. -/
def isDoomed (s : Clockwork φ) : Bool := s.executor.worker.any (·.stage.isDoomed)

theorem isDoomed_of_some {b : Bool} {stage : Stage} (h : s.executor.worker = some ⟨b, stage⟩) :
    s.isDoomed = stage.isDoomed := by
  simp [isDoomed, h]

variable [Feed φ]

/-! ## One turn -/

/-- What a turn comes to for the group the worker is at, with what is seen of it and the feed. -/
inductive GroupTurn (s : Clockwork φ) (es : List Event) (s' : Clockwork φ) : Prop where
  | stay {id : Nat} (before : s.groupId? = some id) (after : s'.groupId? = some id)
      (own : ∀ e ∈ es, e.isOf id = true) (feed : s'.feed = s.feed)
      (doomed : s.isDoomed = true → s'.isDoomed = true)
  | handed (t : Ticket) (before : s.groupId? = none) (after : s'.groupId? = some t.id)
      (seen : es = [.asked s.now (.group t)]) (feed : Feed.next s.now s.feed = (.group t, s'.feed))
  | returned (report : Report) (before : s.groupId? = some report.id) (after : s'.groupId? = none)
      (seen : es = [.reported report]) (feed : s'.feed = Feed.complete report s.feed)
  /-- The worker was at no group, and the feed is not asked. -/
  | idle (before : s.groupId? = none) (after : s'.groupId? = none) (seen : es = [] ∨ es = [.left])
      (feed : s'.feed = s.feed)
  | missed (handout : Handout) (before : s.groupId? = none) (after : s'.groupId? = none)
      (seen : es = [.asked s.now handout]) (feed : Feed.next s.now s.feed = (handout, s'.feed))
      (none_ : ∀ t, handout ≠ .group t)
  | lost (gone : s'.executor.worker = none) (aborted : .aborted ∈ es) (feed : s'.feed = s.feed)

theorem isOf_calls (now group position : Nat) (exchange : Option Exchange) :
    ∀ e ∈ (Exchange.calls now group position exchange).map Event.called, e.isOf group = true := by
  intro e he
  obtain ⟨c, hc, rfl⟩ := List.mem_map.1 he
  rcases exchange with _ | ⟨command, response⟩
  · cases hc
  · rw [List.mem_singleton.1 hc]
    exact beq_self_eq_true group

/-- A turn between two stages at one group that does not save a doomed one. -/
theorem GroupTurn.of_same {b b' : Bool} {stage stage' : Stage}
    (hw : s.executor.worker = some ⟨b, stage⟩) (hw' : s'.executor.worker = some ⟨b', stage'⟩)
    (hid : stage.groupId? = some id) (hid' : stage'.groupId? = some id)
    (doomed : stage.isDoomed = true → stage'.isDoomed = true) (feed : s'.feed = s.feed)
    (own : ∀ e ∈ es, e.isOf id = true) : GroupTurn s es s' :=
  .stay ((groupId?_of_some hw).trans hid) ((groupId?_of_some hw').trans hid') own feed
    (by rwa [isDoomed_of_some hw, isDoomed_of_some hw'])

/-- A silent turn that leaves the group and the feed as they are. -/
theorem GroupTurn.of_groupId? (h : s'.groupId? = s.groupId?) (feed : s'.feed = s.feed)
    (doomed : s.isDoomed = true → s'.isDoomed = true) : GroupTurn s [] s' := by
  cases hid : s.groupId? with
  | none => exact .idle hid (h.trans hid) (.inl rfl) feed
  | some id => exact .stay hid (h.trans hid) (by simp) feed doomed

theorem Stride.group (stride : Stride s es s') : GroupTurn s es s' := by
  cases stride with
  | rest | tick | refocus | rewire => exact .of_groupId? rfl rfl fun doomed => doomed
  | start hw => exact .idle (groupId?_of_none hw) rfl (.inl rfl) rfl
  | leave hw top =>
      refine .idle ?_ rfl (.inr rfl) rfl
      rcases top with rfl | ⟨due, rfl⟩ <;> exact groupId?_of_some hw
  | begin hw top =>
      refine .idle ?_ rfl (.inl rfl) rfl
      rcases top with rfl | ⟨due, rfl, -⟩ <;> exact groupId?_of_some hw
  | @hand b d t feed hw next => exact .handed t (groupId?_of_some hw) rfl rfl next
  | miss hw next => exact .missed _ (groupId?_of_some hw) rfl rfl next (by simp)
  | crash hw next => exact .missed _ (groupId?_of_some hw) rfl rfl next (by simp)
  | dispatch hw hrun =>
      subst hrun
      exact .of_same hw rfl rfl rfl (fun doomed => doomed) rfl (by simp)
  | focused hw | activated hw | settled hw | closeEmpty hw | joined hw =>
      exact .of_same hw rfl rfl rfl (fun doomed => doomed) rfl (by simp)
  | unfocused hw | opened hw | closeLate hw =>
      exact .of_same hw rfl rfl rfl (fun doomed => doomed) rfl (by simp)
  | @receive b run hw =>
      exact .of_same hw rfl rfl (congrArg some run.receive_id) run.receive_cancelled.trans rfl (by simp)
  | finish hw => exact .of_same hw rfl rfl rfl (fun _ => rfl) rfl (by simp)
  | @handIn b report faulty stage hw hstage =>
      refine .returned report (groupId?_of_some hw) ?_ rfl rfl
      cases faulty <;> rw [hstage] <;> rfl
  | @poll b accepting run position entry progress exchange hw hentry ready hpoll =>
      exact .of_same hw rfl rfl rfl (fun doomed => doomed) rfl (isOf_calls _ _ _ _)

/-- A turn leaves the worker at its group, brings it to one, or takes it from one. -/
theorem Turn.group (turn : Turn s es s') : GroupTurn s es s' := by
  cases turn with
  | stride stride => exact stride.group
  | bury hw => exact .idle (groupId?_of_some hw) rfl (.inl rfl) rfl
  | @interruptAll b stopping stage hw =>
      refine .of_groupId? ?_ rfl fun doomed => ?_
      · rw [groupId?_of_some hw, ← Stage.groupId?_interruptAll]
        rfl
      · rw [isDoomed_of_some hw] at doomed
        cases stage <;> first | rfl | exact doomed
  | @interruptConflicting b stage group hw =>
      refine .of_groupId? ?_ rfl fun doomed => ?_
      · rw [groupId?_of_some hw, ← Stage.groupId?_interruptConflicting group.kinds]
        rfl
      · rw [isDoomed_of_some hw] at doomed
        cases stage <;> exact doomed
  | layer group hw =>
      exact .of_same hw rfl rfl rfl (fun doomed => doomed) rfl (by simp [Event.isOf])
  | abort | vanish => exact .lost rfl (by simp) rfl

/-! ## Whole plays -/

/-- Whether a group was handed out in the course of a journal, and only its events were seen since. -/
def IsSince (j : List Event) (t : Ticket) : Prop :=
  ∃ earlier now seen, j = earlier ++ .asked now (.group t) :: seen ∧ ∀ e ∈ seen, e.isOf t.id = true

omit [Feed φ] in
theorem IsSince.append {j : List Event} {t : Ticket} (h : IsSince j t)
    (own : ∀ e ∈ es, e.isOf t.id = true) : IsSince (j ++ es) t := by
  obtain ⟨earlier, now, seen, rfl, hseen⟩ := h
  refine ⟨earlier, now, seen ++ es, by simp, fun e he => ?_⟩
  rcases List.mem_append.1 he with he | he
  · exact hseen e he
  · exact own e he

/-- After a play the worker is still at its group, or at the one that was handed out last. -/
theorem groupId?_play (moves : List Move) (h : (s.play moves).groupId? = some id) :
    (s.groupId? = some id ∧ ∀ e ∈ s.journal moves, e.isOf id = true) ∨
    ∃ t, t.id = id ∧ IsSince (s.journal moves) t := by
  refine play_induct (s := s)
    (P := fun j s' => ∀ id, s'.groupId? = some id →
      (s.groupId? = some id ∧ ∀ e ∈ j, e.isOf id = true) ∨ ∃ t, t.id = id ∧ IsSince j t)
    (fun id hid => .inl ⟨hid, by simp⟩) ?_ moves id h
  intro j s₁ es s₂ ih turn id hid
  cases turn.group with
  | stay before after own =>
      cases after.symm.trans hid
      rcases ih id before with ⟨hs, hown⟩ | ⟨t, rfl, since⟩
      · refine .inl ⟨hs, fun e he => ?_⟩
        rcases List.mem_append.1 he with he | he
        · exact hown e he
        · exact own e he
      · exact .inr ⟨t, rfl, since.append own⟩
  | handed t before after seen =>
      cases after.symm.trans hid
      exact .inr ⟨t, rfl, j, s₁.now, [], by rw [seen], by simp⟩
  | returned _ _ after | idle _ after | missed _ _ after => cases after.symm.trans hid
  | lost gone => cases (groupId?_of_none gone).symm.trans hid

/-! ## Staying at a run -/

omit [Feed φ] in
/-- Nothing is lost with an event of a group. -/
theorem isLoss_of_isOf {e : Event} (h : e.isOf id = true) : e.isLoss = false := by
  cases e with
  | layered | called => rfl
  | asked | reported | left | aborted => cases h

/-- As long as only events of its group are seen, a report that was made is not handed in. -/
theorem IsReporting.play {report : Report} (h : s.IsReporting report)
    (own : ∀ e ∈ s.journal moves, e.isOf id = true) : (s.play moves).IsReporting report := by
  induction moves generalizing s with
  | nil => exact h
  | cons m moves ih =>
      have own' : ∀ e ∈ s.events m, e.isOf id = true := fun e he => own e (List.mem_append_left _ he)
      rcases (turn_move m).reports (fun e he => isLoss_of_isOf (own' e he)) h with ⟨-, h'⟩ | seen
      · exact ih h' fun e he => own e (List.mem_append_right _ he)
      · cases own' (.reported report) (by rw [seen]; exact List.mem_singleton.2 rfl)

/--
What holds of a run and is kept by every move during which the run goes on holds after a play at
whose end the run still goes on.
-/
theorem running_induct {Q : Clockwork φ → Run → Prop} {step' : Step} {run' : Run}
    (sound : s.executor.Sound) (running : s.IsRunning step run) (init : Q s run)
    (own : ∀ e ∈ s.journal moves, e.isOf id = true) (running' : (s.play moves).IsRunning step' run')
    (next : ∀ {s₁ : Clockwork φ} {m : Move} {step₁ step₂ : Step} {run₁ run₂ : Run},
      s₁.executor.Sound → s₁.IsRunning step₁ run₁ → Q s₁ run₁ → (s₁.move m).IsRunning step₂ run₂ →
      s₁.Proceeds step₁ run₁ (s₁.events m) step₂ run₂ → Q (s₁.move m) run₂) :
    Q (s.play moves) run' := by
  induction moves generalizing s step run with
  | nil =>
      obtain ⟨rfl, rfl⟩ := running.unique running'
      exact init
  | cons m moves ih =>
      have turn := turn_move (s := s) m
      have own' := fun e he => own e (List.mem_append_right _ he)
      rcases turn.proceeds running with ⟨step₁, run₁, running₁, proceeds⟩ | ⟨-, reporting, -⟩ | ⟨lost, -⟩
      · exact ih (turn.sound sound) running₁ (next sound running init running₁ proceeds) own' running'
      · exact absurd running' (reporting.play own').not_isRunning
      · cases own .aborted (List.mem_append_left _ lost)

/-! ## Where an event comes from -/

/-- No move but the removal of the worker is seen as that. -/
theorem not_aborted (h : m ≠ .abort) : .aborted ∉ s.events m := by
  cases m with
  | abort => exact absurd rfl h
  | work =>
      simp only [events, workEvents]
      split <;> simp
  | poll position =>
      intro hmem
      obtain ⟨call, -, heq⟩ := List.mem_map.1 hmem
      cases heq
  | request r =>
      cases r with
      | layer g =>
          simp only [events]
          split <;> simp
      | interruptAll | interruptConflicting g => simp [events]
  | closeLate | tick | start | requestStop | setFocus | setDevice => simp [events]

/-- An event of a play is seen of one of its moves. -/
theorem exists_move_of_journal {before after : List Event} {e : Event}
    (h : s.journal moves = before ++ e :: after) :
    ∃ first m rest pre post, moves = first ++ m :: rest ∧
      (s.play first).events m = pre ++ e :: post ∧ before = s.journal first ++ pre := by
  induction moves generalizing s before with
  | nil => simp at h
  | cons m moves ih =>
      rw [journal_cons] at h
      rcases List.append_eq_append_iff.1 h with ⟨front, rfl, hrest⟩ | ⟨back, hm, hafter⟩
      · obtain ⟨first, m', rest, pre, post, rfl, hevents, rfl⟩ := ih hrest
        exact ⟨m :: first, m', rest, pre, post, rfl, hevents, by simp⟩
      · cases back with
        | nil =>
            have hrest : (s.move m).journal moves = [] ++ e :: after := hafter.symm
            obtain ⟨first, m', rest, pre, post, rfl, hevents, hpre⟩ := ih hrest
            refine ⟨m :: first, m', rest, pre, post, rfl, hevents, ?_⟩
            rw [journal_cons, List.append_assoc, ← hpre, hm]
            simp
        | cons e' back =>
            cases hafter
            exact ⟨[], m, moves, before, back, rfl, hm, rfl⟩

/-- When the actions of a run are dropped, what is held is let up and nothing else is sent. -/
theorem acts_of_mem_dropCalls {device : Device} {now : Nat} {c : Call}
    (h : c ∈ Executor.dropCalls device now run) : c.command.acts = false := by
  obtain ⟨⟨e, position⟩, -, hc⟩ := List.mem_filterMap.1 h
  cases hp : e.progress <;> simp [hp, Progress.drop] at hc
  subst hc
  rfl

/-- What one poll of an action sent. -/
structure Sends (s : Clockwork φ) (run : Run) (e : Entry) (c : Call) : Prop where
  running : ∃ accepting, s.IsRunning (.joining accepting) run
  entry : run.entries[c.position]? = some e
  ready : e.runnable s.now = true
  time : c.time = s.now
  group : c.group = run.id
  polled : ∃ progress, e.progress.poll s.executor.device s.executor.engine.attackMs s.now e.action
    e.cancelled = (progress, some (c.command, c.response))

/-- A command that holds, presses or moves something is sent by a poll, which is all that is seen. -/
theorem Turn.sends {c : Call} (turn : Turn s es s') (hc : .called c ∈ es)
    (acts : c.command.acts = true) : es = [.called c] ∧ ∃ run e, s.Sends run e c := by
  cases turn with
  | stride stride =>
      cases stride with
      | @poll b accepting run position entry progress exchange hw hentry ready hpoll =>
          rcases exchange with _ | ⟨command, response⟩
          · cases hc
          · cases List.mem_singleton.1 hc
            exact ⟨rfl, run, entry, ⟨accepting, b, hw⟩, hentry, ready, rfl, rfl, progress, hpoll⟩
      | _ => simp at hc
  | @abort b step run hw =>
      rcases List.mem_append.1 hc with hc | hc
      · obtain ⟨c', hc', heq⟩ := List.mem_map.1 hc
        cases heq
        rw [acts_of_mem_dropCalls hc'] at acts
        cases acts
      · simp at hc
  | _ => simp at hc

/-- A command that holds, presses or moves something is sent by a poll at some moment of a play. -/
theorem exists_poll_of_acts {before after : List Event} {c : Call}
    (h : s.journal moves = before ++ .called c :: after) (acts : c.command.acts = true) :
    ∃ first m rest run e, moves = first ++ m :: rest ∧ before = s.journal first ∧
      (s.play first).Sends run e c := by
  obtain ⟨first, m, rest, pre, post, rfl, hevents, rfl⟩ := exists_move_of_journal h
  obtain ⟨hes, run, e, sends⟩ := (turn_move (s := s.play first) m).sends
    (by rw [hevents]; simp) acts
  have hpre : pre = [] := by
    rw [hes] at hevents
    cases pre with
    | nil => rfl
    | cons e' pre => simp at hevents
  exact ⟨first, m, rest, run, e, rfl, by rw [hpre, List.append_nil], sends⟩

end Clockwork

end Combo
