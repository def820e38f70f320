-- SUMMARY: Rounds, from the handout of a group to its report: what may be seen when, and what a whole journal of rounds tells.
import Combo.Clockwork.Supply
import Combo.Proofs.Clockwork.Turn
import Combo.Proofs.Executor.Run

/-!
# Rounds

A round begins when the feed hands out a group and ends with the report of that
group. `Round.Step` says what may be seen next when a round is open and when none
is: the feed is asked and the worker leaves only between rounds, and commands,
layered groups and the report belong to the open round. `Rounds` follows a whole
journal this way.

A crash of the feed and the removal of the worker lose the round that is open. A
journal without such a loss that can be followed to its end has every group
reported once and in full, before the feed is asked again (`Rounds.isInTurn`).
-/

namespace Combo

/-- A round that is open: the group that was handed out, and what was seen since. -/
structure Round where
  ticket : Ticket
  seen : List Event

namespace Round

/-- The actions of a round: those handed out, then those layered on, in order of acceptance. -/
def actions (r : Round) : List Action :=
  r.ticket.group.actions ++ r.seen.flatMap Event.layeredActions

/-- Whether a report accounts for every action of a round. -/
structure Accounts (r : Round) (report : Report) : Prop where
  id : report.id = r.ticket.id
  actions : report.group.actions = r.actions
  outcomes : report.outcomes.map (·.action) = report.group.actions
  terminal : ∀ o ∈ report.outcomes, o.ending.state.isTerminal = true
  message : ∀ o ∈ report.outcomes, o.ending.message?.isSome = true ↔ o.ending.state = .failed

/-- The round with one more event seen. -/
def add (r : Round) (e : Event) : Round := { r with seen := r.seen ++ [e] }

/-- What may be seen next, and the round that is open then. -/
inductive Step : Option Round → Event → Option Round → Prop where
  | missed (now : Nat) : Step none (.asked now .empty) none
  | handed (now : Nat) (t : Ticket) : Step none (.asked now (.group t)) (some ⟨t, []⟩)
  | layered (r : Round) (g : Group) : Step (some r) (.layered g) (some (r.add (.layered g)))
  | called {r : Round} {c : Call} (hid : c.group = r.ticket.id)
      (hposition : c.position < r.actions.length) :
      Step (some r) (.called c) (some (r.add (.called c)))
  | reported {r : Round} {report : Report} (h : r.Accounts report) :
      Step (some r) (.reported report) none
  | left : Step none .left none

end Round

/-- Whether a journal can be followed round by round, and the round that is open at its end. -/
inductive Rounds : List Event → Option Round → Prop where
  | nil : Rounds [] none
  | snoc {j : List Event} {o o' : Option Round} {e : Event} (h : Rounds j o)
      (step : Round.Step o e o') : Rounds (j ++ [e]) o'

/-- Whether an event may be seen while the round of the group with this number is open. -/
def Event.isOf (id : Nat) : Event → Bool
  | .layered _ => true
  | .called c => c.group == id
  | .asked _ _ | .reported _ | .left | .aborted => false

/-- Whether with an event the worker is lost in the middle of its work. -/
def Event.isLoss : Event → Bool
  | .asked _ .crash | .aborted => true
  | .asked _ (.group _) | .asked _ .empty | .layered _ | .called _ | .reported _ | .left => false

/-! ## Journals that can be followed -/

/-- An event of a longer list is its last one, or one of the rest. -/
theorem snoc_eq_append_cons {α : Type} {l before after : List α} {e x : α}
    (h : l ++ [e] = before ++ x :: after) :
    (after = [] ∧ l = before ∧ e = x) ∨ ∃ after', after = after' ++ [e] ∧ l = before ++ x :: after' := by
  rcases List.append_eq_append_iff.1 h with ⟨front, rfl, hfront⟩ | ⟨back, rfl, hback⟩
  · cases front with
    | nil =>
        cases hfront
        exact .inl ⟨rfl, (List.append_nil _).symm, rfl⟩
    | cons y front => simp at hfront
  · cases back with
    | nil =>
        cases hback
        exact .inl ⟨rfl, List.append_nil _, rfl⟩
    | cons y back =>
        cases hback
        exact .inr ⟨back, rfl, rfl⟩

namespace Rounds

variable {j before after : List Event} {o : Option Round} {e : Event}

/-- Up to each event a journal can be followed too. -/
theorem before_event (h : Rounds (before ++ e :: after) o) :
    ∃ o₁ o₂, Rounds before o₁ ∧ Round.Step o₁ e o₂ := by
  generalize hj : before ++ e :: after = j at h
  induction h generalizing after with
  | nil => simp at hj
  | snoc h step ih =>
      rcases snoc_eq_append_cons hj.symm with ⟨rfl, rfl, rfl⟩ | ⟨after', rfl, rfl⟩
      · exact ⟨_, _, h, step⟩
      · exact ih rfl

/-- All that is seen while a round is open belongs to it. -/
theorem isOf_of_open {r : Round} (h : Rounds j (some r)) : ∀ e ∈ r.seen, e.isOf r.ticket.id = true := by
  generalize ho : some r = o at h
  induction h generalizing r with
  | nil => cases ho
  | snoc _ step ih =>
      cases step with
      | missed | reported | left => cases ho
      | handed =>
          cases ho
          simp
      | layered r' g =>
          cases ho
          intro e he
          rcases List.mem_append.1 he with he | he
          · exact ih rfl e he
          · rw [List.mem_singleton.1 he]
            rfl
      | @called r' c hid =>
          cases ho
          intro e he
          rcases List.mem_append.1 he with he | he
          · exact ih rfl e he
          · rw [List.mem_singleton.1 he]
            exact beq_iff_eq.2 hid

/-- The open round began when its group was handed out. -/
theorem eq_of_open {r : Round} (h : Rounds j (some r)) :
    ∃ before now, j = before ++ .asked now (.group r.ticket) :: r.seen := by
  generalize ho : some r = o at h
  induction h generalizing r with
  | nil => cases ho
  | @snoc j _ _ _ _ step ih =>
      cases step with
      | missed | reported | left => cases ho
      | handed now t =>
          cases ho
          exact ⟨j, now, rfl⟩
      | layered | called =>
          cases ho
          obtain ⟨before, now, rfl⟩ := ih rfl
          exact ⟨before, now, by simp [Round.add]⟩

/-- Once a group is handed out, the first event that does not belong to its round is its report. -/
theorem after_handed {now : Nat} {t : Ticket}
    (h : Rounds (before ++ .asked now (.group t) :: after) o) :
    (∃ seen report rest, after = seen ++ .reported report :: rest ∧
      (∀ e ∈ seen, e.isOf t.id = true) ∧ Round.Accounts ⟨t, seen⟩ report) ∨
    (o = some ⟨t, after⟩ ∧ ∀ e ∈ after, e.isOf t.id = true) := by
  generalize hj : before ++ .asked now (.group t) :: after = j at h
  induction h generalizing after with
  | nil => simp at hj
  | @snoc j o o' e h step ih =>
      rcases snoc_eq_append_cons hj.symm with ⟨rfl, rfl, rfl⟩ | ⟨after', rfl, rfl⟩
      · cases step with
        | handed => exact .inr ⟨rfl, by simp⟩
      · rcases ih rfl with ⟨seen, report, rest, rfl, hall, haccounts⟩ | ⟨rfl, -⟩
        · exact .inl ⟨seen, report, rest ++ [e], by simp, hall, haccounts⟩
        · have next := h.snoc step
          cases step with
          | layered | called => exact .inr ⟨rfl, isOf_of_open next⟩
          | @reported _ report haccounts =>
              exact .inl ⟨after', report, [], rfl, isOf_of_open h, haccounts⟩

end Rounds

/--
Whether in a journal groups are handed out and reported in turn. Every group that is handed out is
reported before the feed is asked again and before the worker leaves, unless it is still unfinished.
Every report is that of the group handed out last, accounts for all of its actions, and is the only
one of that group. Every command is sent for the group handed out last, before its report.
-/
structure IsInTurn (journal : List Event) (unfinished : Prop) : Prop where
  handed : ∀ before now t after, journal = before ++ .asked now (.group t) :: after →
    (∃ seen report rest, after = seen ++ .reported report :: rest ∧
      (∀ e ∈ seen, e.isOf t.id = true) ∧ Round.Accounts ⟨t, seen⟩ report) ∨
    ((∀ e ∈ after, e.isOf t.id = true) ∧ unfinished)
  reported : ∀ before report after, journal = before ++ .reported report :: after →
    ∃ earlier now t seen, before = earlier ++ .asked now (.group t) :: seen ∧
      (∀ e ∈ seen, e.isOf t.id = true) ∧ Round.Accounts ⟨t, seen⟩ report
  called : ∀ before c after, journal = before ++ .called c :: after →
    ∃ earlier now t seen, before = earlier ++ .asked now (.group t) :: seen ∧
      (∀ e ∈ seen, e.isOf t.id = true) ∧ c.group = t.id ∧
      c.position < (Round.actions ⟨t, seen⟩).length

/-- What can be followed round by round is in turn. -/
theorem Rounds.isInTurn {j : List Event} {o : Option Round} {unfinished : Prop} (h : Rounds j o)
    (unreported : o.isSome = true → unfinished) : IsInTurn j unfinished where
  handed := by
    intro before now t after hj
    rw [hj] at h
    rcases h.after_handed with reported | ⟨rfl, hall⟩
    · exact .inl reported
    · exact .inr ⟨hall, unreported rfl⟩
  reported := by
    intro before report after hj
    rw [hj] at h
    obtain ⟨_, _, hbefore, step⟩ := h.before_event
    cases step with
    | @reported r _ haccounts =>
        obtain ⟨earlier, now, heq⟩ := hbefore.eq_of_open
        exact ⟨earlier, now, r.ticket, r.seen, heq, hbefore.isOf_of_open, haccounts⟩
  called := by
    intro before c after hj
    rw [hj] at h
    obtain ⟨_, _, hbefore, step⟩ := h.before_event
    cases step with
    | @called r _ hid hposition =>
        obtain ⟨earlier, now, heq⟩ := hbefore.eq_of_open
        exact ⟨earlier, now, r.ticket, r.seen, heq, hbefore.isOf_of_open, hid, hposition⟩

/-! ## The round of the worker -/

theorem Round.accounts_report {r : Round} {run : Run} (hid : run.id = r.ticket.id)
    (hactions : run.actions = r.actions) : r.Accounts run.report where
  id := hid
  actions := hactions
  outcomes := by simp [Run.report, Run.group, Run.actions, Entry.outcome]
  terminal := by
    intro o _
    cases o.ending <;> rfl
  message := by
    intro o _
    cases o.ending <;> simp [Ending.message?, Ending.state]

theorem Round.actions_add (r : Round) (e : Event) :
    (r.add e).actions = r.actions ++ e.layeredActions := by
  simp [Round.actions, Round.add]

/-- Whether this is the round that a worker at a stage has open. -/
def Stage.IsIn : Stage → Option Round → Prop
  | .checking, o => o = none
  | .asking _, o => o = none
  | .taken t _, o => o = some ⟨t, []⟩
  | .running _ run, o => ∃ r, o = some r ∧ run.id = r.ticket.id ∧ run.actions = r.actions
  | .reporting report _, o => ∃ r, o = some r ∧ r.Accounts report
  | .sleeping _, o => o = none
  | .crashed, _ => False

end Combo
