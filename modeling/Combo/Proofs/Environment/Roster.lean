-- SUMMARY: Timetables of groups that run one after another without a gap, and what a journal shows of the groups.
import Combo.Proofs.Clockwork.Punctual

/-!
# Timetables of groups

Groups that run without a gap have a timetable: each starts when the one before
it has ended, and it ends with its longest action. What is seen of groups is when
they were handed out, which reports were handed in, and what was sent for them.
-/

namespace Combo

/-- Nothing was exchanged for a group that no command is about. -/
theorem exchangesAt_of_foreign {group : Nat} {es : List Event}
    (h : ∀ c, Event.called c ∈ es → c.group ≠ group) (position : Nat) :
    exchangesAt group position es = [] :=
  exchangesAt_eq_nil fun c hc hid => absurd hid (h c hc)

namespace Environment

/-- The groups that were handed out, with the instants. -/
def handouts (j : List Event) : List (Nat × Ticket) :=
  j.filterMap fun
    | .asked now (.group t) => some (now, t)
    | _ => none

/-- The reports that were handed in. -/
def reports (j : List Event) : List Report :=
  j.filterMap fun
    | .reported report => some report
    | _ => none

/-- The instant at which groups have ended that run from an instant on without a gap. -/
def finish (attackMs start : Nat) (ts : List Ticket) : Nat :=
  start + (ts.map (·.group.millis attackMs)).sum

/-- Groups that run from an instant on without a gap, with the instants at which they start. -/
def timetable (attackMs : Nat) : Nat → List Ticket → List (Nat × Ticket)
  | _, [] => []
  | start, t :: ts => (start, t) :: timetable attackMs (start + t.group.millis attackMs) ts

variable {attackMs start : Nat} {ts ts' : List Ticket} {j j' : List Event}

@[simp] theorem handouts_append (j j' : List Event) : handouts (j ++ j') = handouts j ++ handouts j' :=
  List.filterMap_append

@[simp] theorem reports_append (j j' : List Event) : reports (j ++ j') = reports j ++ reports j' :=
  List.filterMap_append

@[simp] theorem handouts_called (calls : List Call) : handouts (calls.map .called) = [] :=
  List.filterMap_eq_nil_iff.2 (by simp)

@[simp] theorem reports_called (calls : List Call) : reports (calls.map .called) = [] :=
  List.filterMap_eq_nil_iff.2 (by simp)

@[simp] theorem finish_nil (attackMs start : Nat) : finish attackMs start [] = start := by
  simp [finish]

theorem finish_append (attackMs start : Nat) (ts ts' : List Ticket) :
    finish attackMs start (ts ++ ts') = finish attackMs (finish attackMs start ts) ts' := by
  simp [finish, Nat.add_assoc]

theorem finish_singleton (attackMs start : Nat) (t : Ticket) :
    finish attackMs start [t] = start + t.group.millis attackMs := by
  simp [finish]

theorem le_finish (attackMs start : Nat) (ts : List Ticket) : start ≤ finish attackMs start ts :=
  Nat.le_add_right _ _

theorem timetable_append (attackMs start : Nat) (ts ts' : List Ticket) :
    timetable attackMs start (ts ++ ts') =
      timetable attackMs start ts ++ timetable attackMs (finish attackMs start ts) ts' := by
  induction ts generalizing start with
  | nil => simp [timetable]
  | cons t ts ih =>
      have shift : finish attackMs start (t :: ts) =
          finish attackMs (start + t.group.millis attackMs) ts := by
        simp [finish, Nat.add_assoc]
      simp [timetable, ih, shift]

theorem of_mem_timetable {x : Nat × Ticket} (h : x ∈ timetable attackMs start ts) :
    start ≤ x.1 ∧ x.2 ∈ ts := by
  induction ts generalizing start with
  | nil => cases h
  | cons t ts ih =>
      rcases List.mem_cons.1 h with rfl | h
      · exact ⟨Nat.le_refl _, List.mem_cons_self⟩
      · obtain ⟨le, mem⟩ := ih h
        exact ⟨by omega, List.mem_cons_of_mem _ mem⟩

end Environment

end Combo
