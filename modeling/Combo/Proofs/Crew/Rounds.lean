-- SUMMARY: Every worker reports each of its groups once and in full, and so does a crew with one worker at a time.
import Combo.Clockwork.Supply
import Combo.Proofs.Clockwork.Rounds
import Combo.Proofs.Crew.Grip
import Combo.Proofs.Crew.Sole

/-!
# The rounds of a crew

What is seen of one worker can be followed round by round, whatever other workers
do meanwhile: the worker asks its feed only between rounds, and commands, layered
groups and the report belong to the open round. When no worker is hired before
the last one has left, what is seen of all workers can be followed the same way.

An action that was given up lets go of what it holds after its group was reported.
That is seen of no worker.
-/

namespace Combo

/-- Whether this is the round that a worker at a post has open. -/
def Post.IsIn (post : Post) (o : Option Round) : Prop :=
  match post.stage? {} with
  | some stage => stage.IsIn o
  | none => o = none

/-- Another run with the same number and actions belongs to the same round. -/
theorem Post.IsIn.with_run {step step' : Step} {run run' : Run} {ledger ledger' : Ledger}
    {o : Option Round} (h : (Post.running step run ledger).IsIn o) (id : run'.id = run.id)
    (actions : run'.actions = run.actions) : (Post.running step' run' ledger').IsIn o := by
  obtain ⟨r, ho, hid, hactions⟩ := h
  exact ⟨r, ho, id.trans hid, actions.trans hactions⟩

/-- Whether an event is the release of an input that was left over. -/
def Leftover.IsReleasedBy (l : Leftover) (e : Event) : Prop :=
  ∃ call : Call, e = .called call ∧ call.group = l.group ∧ call.position = l.position ∧
    call.command = .up l.input

namespace Member

variable {m m' : Member} {j es : List Event} {o : Option Round}

theorem Fares.rounds (fares : m.Fares es m') (whole : ∀ e ∈ es, e.isLoss = false) (h : Rounds j o)
    (hin : m.post.IsIn o) : ∃ o', Rounds (j ++ es) o' ∧ m'.post.IsIn o' := by
  have silent (hin' : m'.post.IsIn o) : ∃ o', Rounds (j ++ []) o' ∧ m'.post.IsIn o' :=
    ⟨o, by simpa using h, hin'⟩
  cases fares with
  | told => exact silent hin
  | bury => exact hin.elim
  | leave top =>
    obtain rfl : o = none := by rcases top with rfl | ⟨due, rfl⟩ <;> exact hin
    exact ⟨none, h.snoc .left, rfl⟩
  | begin top =>
    obtain rfl : o = none := by rcases top with rfl | ⟨due, rfl⟩ <;> exact hin
    exact silent rfl
  | hand now t =>
    obtain rfl : o = none := hin
    exact ⟨some ⟨t, []⟩, h.snoc (.handed now t), rfl⟩
  | miss now due =>
    obtain rfl : o = none := hin
    exact ⟨none, h.snoc (.missed now), rfl⟩
  | crash => simp [Event.isLoss] at whole
  | @dispatch b k t step run ledger id actions =>
    obtain rfl : o = some ⟨t, []⟩ := hin
    exact silent ⟨⟨t, []⟩, rfl, id, by simp [actions, Round.actions]⟩
  | go onward =>
    exact silent (hin.with_run onward.id (by rw [onward.actions, List.append_nil]))
  | layer g onward =>
    obtain ⟨r, rfl, id, actions⟩ := hin
    refine ⟨_, h.snoc (.layered r g), r.add _, rfl, onward.id.trans id, ?_⟩
    rw [onward.actions, Round.actions_add, actions]
    rfl
  | finish =>
    obtain ⟨r, rfl, id, actions⟩ := hin
    exact silent ⟨r, rfl, Round.accounts_report id actions⟩
  | handIn top =>
    obtain ⟨r, rfl, accounts⟩ := hin
    refine ⟨none, h.snoc (.reported accounts), ?_⟩
    rcases top with rfl | ⟨due, rfl⟩ <;> rfl

theorem giveUp_actions (ledger : Ledger) (run : Run) : (run.giveUp ledger).actions = run.actions :=
  map_mapIdx_of _ fun i e => by
    unfold Entry.giveUp
    split <;> rfl

theorem Spends.rounds {now : Nat} {device : Device} (spends : m.Spends now device es m')
    (whole : ∀ e ∈ es, e.isLoss = false) (h : Rounds j o) (hin : m.post.IsIn o) :
    ∃ o', Rounds (j ++ es) o' ∧ m'.post.IsIn o' := by
  cases spends with
  | @poll b accepting k position run ledger entry progress exchange hentry polled =>
    have same := Run.set_actions hentry { entry with progress } rfl
    rcases exchange with _ | ⟨command, response⟩
    · exact ⟨o, by simpa [Exchange.calls] using h, hin.with_run rfl same⟩
    · obtain ⟨r, rfl, id, actions⟩ := hin
      have within : position < r.actions.length := by
        rw [← actions]
        exact Run.lt_actions_length hentry
      refine ⟨_, h.snoc (.called id within), r.add _, rfl, id, ?_⟩
      rw [Round.actions_add]
      exact (same.trans actions).trans (List.append_nil _).symm
  | @giveUp b accepting k run ledger =>
    exact ⟨o, by simpa using h, hin.with_run rfl (giveUp_actions ledger run)⟩
  | abort => simp [Event.isLoss] at whole

end Member

namespace Crew

variable {φ : Type} [Feed φ] {c : Crew φ} {j : List Event} {o : Option Round}

/-- What is seen of some workers in a play. -/
def seen (who : Option Nat → Bool) (c : Crew φ) (moves : List Move) : List Event :=
  ((c.record moves).filter fun n => who n.worker).map (·.event)

theorem seen_append (who : Option Nat → Bool) (c : Crew φ) (first second : List Move) :
    c.seen who (first ++ second) = c.seen who first ++ (c.play first).seen who second := by
  simp [seen, record_append]

/-- What is seen of some workers is seen. -/
theorem mem_journal_of_seen {who : Option Nat → Bool} {moves : List Move} {e : Event}
    (he : e ∈ c.seen who moves) : e ∈ c.journal moves := by
  obtain ⟨n, hn, rfl⟩ := List.mem_map.1 he
  exact List.mem_map_of_mem (List.mem_filter.1 hn).1

theorem seen_append_singleton (who : Option Nat → Bool) (c : Crew φ) (moves : List Move) (mv : Move) :
    c.seen who (moves ++ [mv]) = c.seen who moves ++
      (((c.play moves).notes mv).filter fun n => who n.worker).map (·.event) := by
  simp [seen, record_append]

/-- Whether this is the round that a worker has open, if it is there. -/
def IsIn (c : Crew φ) (worker : Nat) (o : Option Round) : Prop :=
  match c.members[worker]? with
  | some m => m.post.IsIn o
  | none => o = none

/-- A move that loses nothing of a worker is followed by the rounds. -/
theorem rounds_move (w : Nat) (mv : Move) (whole : ∀ e ∈ c.eventsOf w mv, e.isLoss = false)
    (h : Rounds j o) (hin : c.IsIn w o) :
    ∃ o', Rounds (j ++ c.eventsOf w mv) o' ∧ (c.move mv).IsIn w o' := by
  unfold IsIn at hin ⊢
  cases hm : c.members[w]? with
  | none =>
    rw [hm] at hin
    obtain rfl : o = none := hin
    refine ⟨none, by simpa [eventsOf_of_nobody hm] using h, ?_⟩
    rcases hired_move hm mv with still | hired
    · rw [still]
    · rw [hired]
      rfl
  | some m =>
    rw [hm] at hin
    obtain ⟨m', hm', fares | spends⟩ := allGoOn mv w m hm
    · obtain ⟨o', rounds, hin'⟩ := fares.rounds whole h hin
      exact ⟨o', rounds, by rw [hm']; exact hin'⟩
    · obtain ⟨o', rounds, hin'⟩ := spends.rounds whole h hin
      exact ⟨o', rounds, by rw [hm']; exact hin'⟩

/-- What is seen of a worker in a play that does not lose it is followed by the rounds. -/
theorem exists_rounds_play (feed : φ) (engine : Engine) (target : Target) (device : Device) (focus : Focus)
    (w : Nat) (moves : List Move)
    (whole : ∀ e ∈ (new feed engine target device focus).seen (· == some w) moves, e.isLoss = false) :
    ∃ o, Rounds ((new feed engine target device focus).seen (· == some w) moves) o ∧
      ((new feed engine target device focus).play moves).IsIn w o := by
  induction moves using List.reverseRecOn with
  | nil => exact ⟨none, .nil, rfl⟩
  | append_singleton moves mv ih =>
    rw [seen_append_singleton] at whole ⊢
    obtain ⟨o, rounds, hin⟩ := ih fun e he => whole e (List.mem_append_left _ he)
    rw [play_append]
    exact rounds_move w mv (fun e he => whole e (List.mem_append_right _ he)) rounds hin

/-- The round of the last worker is the round of whoever is hired next. -/
theorem IsSole.isIn_move {mv : Move} (next : c.isSuccessive mv = true)
    (hin : (c.move mv).IsIn (c.members.length - 1) o) :
    (c.move mv).IsIn ((c.move mv).members.length - 1) o := by
  by_cases h : mv = .start
  · subst h
    rcases start_cases next with still | ⟨hired, gone⟩
    · rw [Crew.move, still] at hin ⊢
      exact hin
    · suffices o = none by
        subst this
        simp only [Crew.move, IsIn, hired, List.length_append, List.length_singleton,
          Nat.add_sub_cancel, List.getElem?_concat_length]
        rfl
      simp only [Crew.move, IsIn, hired] at hin
      rcases Nat.eq_zero_or_pos c.members.length with none | some
      · simpa [List.length_eq_zero_iff.1 none, Post.IsIn, Post.stage?, Stage.IsIn] using hin
      · rw [List.getElem?_append_left (by omega), List.getElem?_eq_getElem (by omega)] at hin
        simpa [Post.IsIn, gone _ (List.getElem_mem _), Post.stage?] using hin
  · rwa [length_move h]

/-- What is seen of all workers of a successive play without a loss is followed by the rounds. -/
theorem exists_rounds_successive (feed : φ) (engine : Engine) (target : Target) (device : Device)
    (focus : Focus) (moves : List Move)
    (successive : (new feed engine target device focus).Successive moves)
    (whole : ∀ e ∈ (new feed engine target device focus).seen Option.isSome moves, e.isLoss = false) :
    let c := (new feed engine target device focus).play moves
    ∃ o, Rounds ((new feed engine target device focus).seen Option.isSome moves) o ∧
      c.IsIn (c.members.length - 1) o := by
  induction moves using List.reverseRecOn with
  | nil => exact ⟨none, .nil, rfl⟩
  | append_singleton moves mv ih =>
    obtain ⟨before, next, -⟩ := successive_append.1 successive
    have sole := isSole_play feed engine target device focus moves before
    rw [seen_append_singleton, sole.filter_notes] at whole ⊢
    obtain ⟨o, rounds, hin⟩ := ih before fun e he => whole e (List.mem_append_left _ he)
    obtain ⟨o', rounds', hin'⟩ :=
      rounds_move _ mv (fun e he => whole e (List.mem_append_right _ he)) rounds hin
    rw [play_append]
    exact ⟨o', rounds', IsSole.isIn_move next hin'⟩

omit [Feed φ] in
/-- The round of a worker is open only while the worker is there. -/
theorem exists_member_of_isIn {w : Nat} (hin : c.IsIn w o) (opened : o.isSome = true) :
    ∃ m, c.members[w]? = some m ∧ m.post ≠ .gone := by
  unfold IsIn at hin
  split at hin
  · rename_i m hm
    refine ⟨m, hm, fun gone => ?_⟩
    rw [gone] at hin
    obtain rfl : o = none := hin
    cases opened
  · rw [hin] at opened
    cases opened

/-! ## Releases out of turn -/

/-- What is seen of no worker is the release of an input that was left over. -/
theorem exists_leftover_of_notes {mv : Move} {n : Note} (hn : n ∈ c.notes mv) (about : n.worker = none) :
    ∃ l ∈ c.leftovers, l.IsReleasedBy n.event := by
  cases reveals_of_notes hn with
  | letGo hl => exact ⟨_, List.mem_of_getElem? hl, _, rfl, rfl, rfl, rfl⟩
  | asked | reported | left | called | aborted | layered => cases about

/--
What is seen of each worker is in turn, whatever other workers do meanwhile, unless the feed crashes on
the worker or it is taken away. When no worker is hired before the last one has left, what is seen of all
workers is in turn as well. The only thing seen beside the workers is the release of an input by an action
that was given up before, or whose worker was taken away before.
-/
theorem workers_report_in_turn (feed : φ) (engine : Engine) (target : Target) (device : Device)
    (focus : Focus) (moves : List Move) :
    let c := new feed engine target device focus
    (∀ w, (∀ e ∈ c.seen (· == some w) moves, e.isLoss = false) →
      IsInTurn (c.seen (· == some w) moves) (∃ m, (c.play moves).members[w]? = some m ∧ m.post ≠ .gone)) ∧
    (c.Successive moves → (∀ e ∈ c.seen Option.isSome moves, e.isLoss = false) →
      IsInTurn (c.seen Option.isSome moves) (∃ m ∈ (c.play moves).members, m.post ≠ .gone)) ∧
    ∀ before mv after, moves = before ++ mv :: after →
      ∀ n ∈ (c.play before).notes mv, n.worker = none → ∃ early drop later l,
        before = early ++ drop :: later ∧ l ∈ (c.play early).drops drop ∧ l.IsReleasedBy n.event := by
  intro c
  refine ⟨fun w whole => ?_, fun successive whole => ?_, fun before mv after _ n hn about => ?_⟩
  · obtain ⟨o, rounds, hin⟩ := exists_rounds_play feed engine target device focus w moves whole
    exact rounds.isInTurn (exists_member_of_isIn hin)
  · obtain ⟨o, rounds, hin⟩ := exists_rounds_successive feed engine target device focus moves successive whole
    refine rounds.isInTurn fun opened => ?_
    obtain ⟨m, hm, there⟩ := exists_member_of_isIn hin opened
    exact ⟨m, List.mem_of_getElem? hm, there⟩
  · obtain ⟨l, hl, released⟩ := exists_leftover_of_notes hn about
    obtain ⟨early, drop, later, split, dropped⟩ :=
      exists_drop_of_leftover feed engine target device focus before l hl
    exact ⟨early, drop, later, l, split, dropped, released⟩

/-- An action that holds the forward input. -/
def forwardHold : Action := ⟨.moveForward, some "2", 2.0⟩

/-- A supply with one group, which holds the forward input. -/
def onlyHold : Supply where
  pending := [⟨0, ⟨[forwardHold], 2.0⟩⟩]

/-- The moves that hold an input, interrupt the hold, give it up at once, report it, and let go then. -/
def givenUpHold : List Move :=
  [.start, .work 0, .work 0, .work 0, .work 0, .work 0, .poll 0 0, .request .interruptAll, .notice 0,
    .giveUp 0, .work 0, .work 0, .letGo 0]

/-- An action that was given up lets go after its group was reported, which is out of turn. -/
theorem released_out_of_turn :
    let c := new onlyHold { cleanupMs := 0 } {} {} {}
    c.Successive givenUpHold ∧ (∀ e ∈ c.journal givenUpHold, e.isLoss = false) ∧
      ¬IsInTurn (c.journal givenUpHold) (∃ m ∈ (c.play givenUpHold).members, m.post ≠ .gone) := by
  have seen : (new onlyHold { cleanupMs := 0 } {} {} {}).journal givenUpHold =
      [.asked 0 (.group ⟨0, ⟨[forwardHold], 2.0⟩⟩), .called ⟨0, 0, 0, .down .forward, .done⟩,
        .reported ⟨0, ⟨[forwardHold], 2.0⟩, [⟨forwardHold, .cancelled⟩], true⟩] ++
      .called ⟨0, 0, 0, .up .forward, .done⟩ :: [] := by
    decide +kernel
  refine ⟨by decide +kernel, by decide +kernel, fun inTurn => ?_⟩
  obtain ⟨earlier, now, t, since, before, within, -⟩ := inTurn.called _ _ _ seen
  -- The last event before the release is the report, which is of no open round.
  have last := congrArg List.getLast? before
  rw [List.getLast?_append_of_ne_nil _ (List.cons_ne_nil _ _)] at last
  cases since using List.reverseRecOn with
  | nil => cases last
  | append_singleton since e =>
    rw [← List.cons_append, List.getLast?_concat] at last
    cases last
    cases within _ (List.mem_append_right _ (List.mem_singleton_self _))

/-- What is seen of the worker itself is in turn even then. -/
theorem workers_report_in_turn_givenUp :
    let c := new onlyHold { cleanupMs := 0 } {} {} {}
    c.Successive givenUpHold ∧ (∀ e ∈ c.seen Option.isSome givenUpHold, e.isLoss = false) ∧
      IsInTurn (c.seen Option.isSome givenUpHold) (∃ m ∈ (c.play givenUpHold).members, m.post ≠ .gone) := by
  have successive : (new onlyHold { cleanupMs := 0 } {} {} {}).Successive givenUpHold := by decide +kernel
  have whole : ∀ e ∈ (new onlyHold { cleanupMs := 0 } {} {} {}).seen Option.isSome givenUpHold,
      e.isLoss = false := by decide +kernel
  exact ⟨successive, whole,
    (workers_report_in_turn onlyHold { cleanupMs := 0 } {} {} {} givenUpHold).2.1 successive whole⟩

end Crew

end Combo
