-- SUMMARY: Runs that keep to the timetables of their actions: from dispatch on, through polls and time, to a report without faults.
import Mathlib.Algebra.GroupWithZero.Nat
import Mathlib.Data.List.MinMax
import Mathlib.Order.Nat
import Combo.Proofs.Clockwork.Impact
import Combo.Proofs.Executor.Dispatch
import Combo.Proofs.Executor.Timetable

/-!
# Punctual runs

A run is punctual if each of its actions is on course from the instant the group
was dispatched. All that can happen to an undisturbed run keeps it so: its actions
are started, they are polled, and time passes while none of them can go on. Such a
run lasts as long as its longest action, and no longer; then all of its actions
have completed and sent what their timetables say.
-/

namespace Combo

/-- The milliseconds that an undisturbed group runs: those of its longest action. -/
def Group.millis (attackMs : Nat) (g : Group) : Nat :=
  (g.actions.map fun a => (a.timetable attackMs 0).2).foldr max 0

/-- Commands that are all carried out. -/
def carriedOut (commands : List (Nat × Command)) : List (Nat × Exchange) :=
  commands.map fun x => (x.1, x.2, .done)

/-- The report of a group whose actions have all completed. -/
def Ticket.completed (t : Ticket) : Report where
  id := t.id
  group := t.group
  outcomes := t.group.actions.map (⟨·, .completed⟩)
  interrupted := false

/-- Whether the plans of a group say what to do. -/
def Group.IsProper (attackMs : Nat) (g : Group) : Prop :=
  ∀ a ∈ g.actions, a.plan attackMs ≠ .invalid

/--
Whether a run of a group that was dispatched at an instant keeps to the timetables of the actions,
given what was seen since.
-/
structure Run.Punctual (attackMs start now : Nat) (t : Ticket) (j : List Event) (r : Run) : Prop where
  id : r.id = t.id
  estimate : r.estimate = t.group.estimate
  going : r.cancelled = false
  actions : r.actions = t.group.actions
  since : start ≤ now
  within : now ≤ start + t.group.millis attackMs
  entries : ∀ (i : Nat) (e : Entry), r.entries[i]? = some e → e.cancelled = false ∧
    ∃ sent, exchangesAt t.id i j = carriedOut sent ∧
      e.progress.OnCourse attackMs start now (e.action.plan attackMs) sent

/-! ## The length of a group -/

namespace Group

variable {attackMs : Nat} {g : Group}

theorem IsProper.millis_eq (proper : g.IsProper attackMs) :
    g.millis attackMs = (g.actions.map fun a => (a.plan attackMs).millis attackMs).foldr max 0 := by
  refine congrArg (List.foldr max 0) (List.map_congr_left fun a ha => ?_)
  rw [Action.timetable_of_plan (proper a ha)]

/-- No action of a group runs longer than the group. -/
theorem IsProper.le_millis (proper : g.IsProper attackMs) {a : Action} (ha : a ∈ g.actions) :
    (a.plan attackMs).millis attackMs ≤ g.millis attackMs := by
  rw [proper.millis_eq]
  exact List.le_max_of_le (List.mem_map_of_mem ha) (Nat.le_refl _)

/-- A group runs no longer than its actions. -/
theorem IsProper.millis_le (proper : g.IsProper attackMs) {n : Nat}
    (h : ∀ a ∈ g.actions, (a.plan attackMs).millis attackMs ≤ n) : g.millis attackMs ≤ n := by
  rw [proper.millis_eq]
  refine List.max_le_of_forall_le (α := Nat) _ _ fun m hm => ?_
  obtain ⟨a, ha, rfl⟩ := List.mem_map.1 hm
  exact h a ha

end Group

namespace Run

variable {attackMs start now now' : Nat} {t : Ticket} {j : List Event} {r : Run}

/-! ## Polls that are left -/

/-- The polls that are left to the actions of a run. -/
def pollsLeft (attackMs : Nat) (r : Run) : Nat :=
  (r.entries.map fun e => e.progress.pollsLeft (e.action.plan attackMs)).sum

@[simp] theorem pollsLeft_releaseAll (attackMs : Nat) (r : Run) :
    r.releaseAll.pollsLeft attackMs = r.pollsLeft attackMs := by
  simp only [pollsLeft, releaseAll, List.map_map]
  refine congrArg List.sum (List.map_congr_left fun e _ => ?_)
  simp only [Function.comp_apply, Entry.release]
  split
  · rename_i queued
    cases hp : e.progress <;> simp [hp, Progress.isQueued] at queued
    rfl
  · rfl

theorem pollsLeft_set {i : Nat} {e e' : Entry} (he : r.entries[i]? = some e)
    (fewer : e'.progress.pollsLeft (e'.action.plan attackMs) <
      e.progress.pollsLeft (e.action.plan attackMs)) :
    pollsLeft attackMs { r with entries := r.entries.set i e' } < r.pollsLeft attackMs := by
  obtain ⟨hlt, rfl⟩ := List.getElem?_eq_some_iff.1 he
  have split_ : r.entries = r.entries.take i ++ r.entries[i] :: r.entries.drop (i + 1) := by simp
  unfold pollsLeft
  conv_rhs => rw [split_]
  simp only [List.set_eq_take_append_cons_drop, hlt, if_true, List.map_append, List.map_cons,
    List.sum_append, List.sum_cons]
  omega

/-! ## From dispatch to the report -/

/-- A group that is dispatched without interrupts is punctual, and all its actions wait. -/
theorem punctual_dispatch (requireFocus : Bool) (attackMs now : Nat) (t : Ticket)
    (silent : ∀ i, exchangesAt t.id i j = []) :
    (dispatch requireFocus {} t).Punctual attackMs now now t j ∧
      ∀ e ∈ (dispatch requireFocus {} t).entries, e.progress = .queued := by
  obtain ⟨actions, fresh⟩ := dispatch_spec requireFocus {} t
  have fresh (e : Entry) (he : e ∈ (dispatch requireFocus {} t).entries) : e.IsFresh := by
    simpa only [Entry.IsDispatched, Deferred.hits_none, Bool.false_eq_true, if_false] using fresh e he
  refine ⟨⟨rfl, rfl, rfl, actions, Nat.le_refl _, Nat.le_add_right _ _, fun i e he => ?_⟩,
    fun e he => (fresh e he).2⟩
  obtain ⟨alive, queued⟩ := fresh e (List.mem_of_getElem? he)
  refine ⟨alive, [], silent i, ?_⟩
  rw [queued]
  exact Progress.onCourse_queued attackMs now _

/-- The polls that are left to a group when it is dispatched. -/
theorem pollsLeft_dispatch (requireFocus : Bool) (attackMs : Nat) (t : Ticket) :
    (dispatch requireFocus {} t).pollsLeft attackMs =
      (t.group.actions.map fun a => (a.plan attackMs).polls).sum := by
  obtain ⟨actions, fresh⟩ := dispatch_spec requireFocus {} t
  rw [← actions, Run.actions, List.map_map, pollsLeft]
  refine congrArg List.sum (List.map_congr_left fun e he => ?_)
  have queued : e.progress = .queued := by
    simpa only [Entry.IsDispatched, Deferred.hits_none, Bool.false_eq_true, if_false] using
      (fresh e he).2
  simp [queued, Progress.pollsLeft]

/-- To start the actions of a run keeps it punctual. -/
theorem Punctual.releaseAll (h : r.Punctual attackMs start now t j) :
    r.releaseAll.Punctual attackMs start now t j := by
  refine ⟨h.id, h.estimate, h.going, by simp [h.actions], h.since, h.within, fun i e he => ?_⟩
  simp only [Run.releaseAll, List.getElem?_map, Option.map_eq_some_iff] at he
  obtain ⟨e, he, rfl⟩ := he
  obtain ⟨alive, sent, hsent, onCourse⟩ := h.entries i e he
  refine ⟨by simp [alive], sent, hsent, ?_⟩
  rw [Entry.release_action]
  exact onCourse.release

/-- A poll of an action that can go on keeps a run punctual, with fewer polls left. -/
theorem Punctual.poll (h : r.Punctual attackMs start now t j) (proper : t.group.IsProper attackMs)
    {device : Device} (works : ∀ command, device.respond command = .done) {position : Nat} {e : Entry}
    {p' : Progress} {exchange : Option Exchange} (he : r.entries[position]? = some e)
    (ready : e.runnable now = true)
    (hpoll : e.progress.poll device attackMs now e.action e.cancelled = (p', exchange)) :
    Punctual attackMs start now t
        (j ++ (Exchange.calls now r.id position exchange).map .called)
        { r with entries := r.entries.set position { e with progress := p' } } ∧
      p'.isQueued = false ∧
      pollsLeft attackMs { r with entries := r.entries.set position { e with progress := p' } } <
        r.pollsLeft attackMs := by
  obtain ⟨alive, sent, hsent, onCourse⟩ := h.entries position e he
  rw [Entry.runnable, alive] at ready
  rw [alive] at hpoll
  have mem : e.action ∈ t.group.actions := by
    rw [← h.actions]
    exact List.mem_map_of_mem (List.mem_of_getElem? he)
  have keeps := onCourse.poll (proper _ mem) works ready hpoll
  refine ⟨⟨h.id, h.estimate, h.going, (set_actions he { e with progress := p' } rfl).trans h.actions, h.since,
    h.within, fun i e' he' => ?_⟩, keeps.started, pollsLeft_set he keeps.fewer⟩
  rw [exchangesAt_append, h.id, exchangesAt_calls]
  by_cases hi : position = i
  · subst hi
    rw [List.getElem?_set_self (List.getElem?_eq_some_iff.1 he).1] at he'
    cases he'
    refine ⟨alive, _, ?_, keeps.onCourse⟩
    rcases exchange with _ | ⟨command, response⟩
    · simpa using hsent
    · obtain rfl : response = .done := keeps.done _ rfl
      simp [hsent, carriedOut]
  · rw [List.getElem?_set_ne hi] at he'
    obtain ⟨alive', sent', hsent', onCourse'⟩ := h.entries i e' he'
    exact ⟨alive', sent', by simp [hi, hsent'], onCourse'⟩

/-- Time that passes while no action of a started run can go on keeps it punctual. -/
theorem Punctual.shift (h : r.Punctual attackMs start now t j) (proper : t.group.IsProper attackMs)
    (started : r.IsAt (.joining false)) (joined : r.isDrained = false)
    (waits : r.runnable? now = none) (le : now ≤ now')
    (due : ∀ due ∈ r.entries.filterMap (·.progress.due?), now' ≤ due) :
    r.Punctual attackMs start now' t j := by
  have onCourse (i : Nat) (e : Entry) (he : r.entries[i]? = some e) : e.cancelled = false ∧
      ∃ sent, exchangesAt t.id i j = carriedOut sent ∧
        e.progress.OnCourse attackMs start now' (e.action.plan attackMs) sent := by
    obtain ⟨alive, sent, hsent, onCourse⟩ := h.entries i e he
    have mem := List.mem_of_getElem? he
    have still : e.runnable now = false := by
      simpa using List.findIdx?_eq_none_iff.1 waits e mem
    rw [Entry.runnable, alive] at still
    refine ⟨alive, sent, hsent, onCourse.shift (started e mem) still le fun n hn => due n ?_⟩
    exact List.mem_filterMap.2 ⟨e, mem, hn⟩
  -- the run goes on for as long as an action that has not ended
  obtain ⟨e, mem, going⟩ := List.all_eq_false.1 joined
  obtain ⟨i, he⟩ := List.mem_iff_getElem?.1 mem
  obtain ⟨-, sent, -, course⟩ := onCourse i e he
  have ends := course.le_of_going (by simpa [started e mem] using going)
  have longest : (e.action.plan attackMs).millis attackMs ≤ t.group.millis attackMs := by
    refine proper.le_millis ?_
    rw [← h.actions]
    exact List.mem_map_of_mem mem
  exact ⟨h.id, h.estimate, h.going, h.actions, Nat.le_trans h.since le, by omega, onCourse⟩

/-- A punctual run whose actions have all ended has lasted as long as its longest action. -/
theorem Punctual.of_ended (h : r.Punctual attackMs start now t j) (proper : t.group.IsProper attackMs)
    (ended : ∀ e ∈ r.entries, e.progress.isEnded = true) :
    now = start + t.group.millis attackMs ∧ r.report = t.completed ∧
      ∀ (i : Nat) (a : Action), t.group.actions[i]? = some a →
        exchangesAt t.id i j = carriedOut (a.timetable attackMs start).1 := by
  have entry (i : Nat) (e : Entry) (he : r.entries[i]? = some e) :
      e.progress = .ended .completed ∧ start + (e.action.plan attackMs).millis attackMs ≤ now ∧
        exchangesAt t.id i j = carriedOut ((e.action.plan attackMs).course attackMs start) := by
    obtain ⟨-, sent, hsent, onCourse⟩ := h.entries i e he
    obtain ⟨completed, late, rfl⟩ := onCourse.of_ended (ended e (List.mem_of_getElem? he))
    exact ⟨completed, late, hsent⟩
  have endings : ∀ e ∈ r.entries, e.outcome = ⟨e.action, .completed⟩ := by
    intro e he
    obtain ⟨i, he⟩ := List.mem_iff_getElem?.1 he
    simp [Entry.outcome, Entry.ending, (entry i e he).1]
  refine ⟨?_, ?_, fun i a ha => ?_⟩
  · have late : t.group.millis attackMs ≤ now - start := by
      refine proper.millis_le fun a ha => ?_
      rw [← h.actions] at ha
      obtain ⟨e, he, rfl⟩ := List.mem_map.1 ha
      obtain ⟨i, he⟩ := List.mem_iff_getElem?.1 he
      have := (entry i e he).2.1
      omega
    have := h.since
    have := h.within
    omega
  · have outcomes : r.entries.map Entry.outcome = t.group.actions.map (⟨·, .completed⟩) := by
      rw [← h.actions, Run.actions, List.map_map]
      exact List.map_congr_left endings
    have group : r.group = t.group := by rw [Run.group, h.actions, h.estimate]
    simp [Run.report, Ticket.completed, outcomes, group, h.id, h.going]
  · rw [← h.actions, Run.actions, List.getElem?_map, Option.map_eq_some_iff] at ha
    obtain ⟨e, he, rfl⟩ := ha
    have mem : e.action ∈ t.group.actions := by
      rw [← h.actions]
      exact List.mem_map_of_mem (List.mem_of_getElem? he)
    rw [Action.timetable_of_plan (proper _ mem), (entry i e he).2.2]

/-- What an action of a punctual run is still to send is not overdue, and makes up its timetable. -/
theorem Punctual.exists_toCome (h : r.Punctual attackMs start now t j)
    (proper : t.group.IsProper attackMs) {i : Nat} {a : Action}
    (ha : t.group.actions[i]? = some a) :
    ∃ rest, exchangesAt t.id i j ++ carriedOut rest = carriedOut (a.timetable attackMs start).1 ∧
      ∀ x ∈ rest, now ≤ x.1 := by
  have mem := List.mem_of_getElem? ha
  rw [← h.actions, Run.actions, List.getElem?_map, Option.map_eq_some_iff] at ha
  obtain ⟨e, he, rfl⟩ := ha
  obtain ⟨-, sent, hsent, onCourse⟩ := h.entries i e he
  refine ⟨_, ?_, onCourse.toCome_ge⟩
  rw [Action.timetable_of_plan (proper _ mem), hsent, ← onCourse.course]
  exact (List.map_append).symm

end Run

end Combo
