-- SUMMARY: In merge mode the queue's record of the running group fits the interrupt if layering succeeds, else only if nothing was cancelled.
import Combo.Proofs.Environment.Link
import Combo.Proofs.Environment.Outstanding

/-!
# The record of a merge

In merge mode a script that is taken in makes two calls while a group is
outstanding: what conflicts with the first group of the script is interrupted,
and that group is layered onto the running one if the executor agrees. The queue
keeps a record of its own of the running group. The record agrees with the calls
if it loses the actions of the kinds that were cancelled, or whose cancellation
was deferred, and gains those that were layered.

When layering succeeds, the record loses the actions of every kind that the
incoming ones interrupt. When it is refused, the record stays as it is although
actions were cancelled, and shows them on.
-/

namespace Combo

namespace Executor

/-- Whether interrupting what conflicts with a group cancels actions of a kind, at once or later. -/
def cancelsKind (x : Executor) (g : Group) (kind : Kind) : Bool :=
  match x.worker with
  | some ⟨_, .asking _⟩ => kind.interrupted g.kinds
  | some ⟨_, .taken _ _⟩ => kind.interrupted g.kinds
  | some ⟨_, .running _ run⟩ =>
    run.entries.any fun e => Run.Entry.hitBy g.kinds e && e.action.kind == kind
  | _ => false

variable {x : Executor} {g : Group} {kind : Kind}

/-- Only kinds that the incoming ones interrupt are cancelled. -/
theorem interrupted_of_cancelsKind (h : x.cancelsKind g kind = true) :
    kind.interrupted g.kinds = true := by
  unfold cancelsKind at h
  split at h
  · exact h
  · exact h
  · obtain ⟨e, -, he⟩ := List.any_eq_true.1 h
    simp only [Run.Entry.hitBy, Bool.and_eq_true, beq_iff_eq] at he
    rw [← he.2]
    exact he.1.2
  · cases h

end Executor

/-- A script that is taken in has at least one group. -/
theorem Script.exists_cons_of_check {max : Float} {script : String} {groups : List Group}
    (h : check max script = .ok groups) : ∃ first rest, groups = first :: rest := by
  simp only [check] at h
  split at h
  · cases h
  · rename_i hfault
    cases h
    cases hgroups : (read script).groups with
    | nil =>
        rw [Reading.fault?, hgroups] at hfault
        split at hfault <;> cases hfault
    | cons first rest => exact ⟨first, rest, rfl⟩

namespace Environment

/-- The actions a record shows that agrees with what a call cancels and layers. -/
def agreeingRecord (x : Executor) (g : Group) (layered : Bool) (before : List Action) :
    List Action :=
  before.filter (fun a => !x.cancelsKind g a.kind) ++ if layered then g.actions else []

variable {x : Executor} {g : Group} {before : List Action}

/-- When layering succeeds, the record agrees if all of its actions that are interrupted were cancelled. -/
theorem merged_eq_agreeingRecord_iff :
    before.filter (fun a => !a.kind.interrupted g.kinds) ++ g.actions =
        agreeingRecord x g true before ↔
      ∀ a ∈ before, a.kind.interrupted g.kinds = true → x.cancelsKind g a.kind = true := by
  rw [agreeingRecord, if_pos rfl, List.append_left_inj]
  constructor
  · intro heq a ha interrupted
    cases hnot : x.cancelsKind g a.kind with
    | true => rfl
    | false =>
        have hmem : a ∈ before.filter (fun a => !x.cancelsKind g a.kind) :=
          List.mem_filter.2 ⟨ha, by simp [hnot]⟩
        rw [← heq] at hmem
        simp [interrupted] at hmem
  · intro hall
    apply List.filter_congr
    intro a ha
    have : a.kind.interrupted g.kinds = x.cancelsKind g a.kind :=
      Bool.eq_iff_iff.2 ⟨hall a ha, Executor.interrupted_of_cancelsKind⟩
    rw [this]

/-- When layering is refused, the record agrees if none of its actions is of a kind that was cancelled. -/
theorem unmerged_eq_agreeingRecord_iff :
    before = agreeingRecord x g false before ↔
      ∀ a ∈ before, x.cancelsKind g a.kind = false := by
  rw [agreeingRecord, if_neg Bool.false_ne_true, List.append_nil, eq_comm, List.filter_eq_self]
  simp

/-- The window is activated for a walk ahead and to the left, and is given time to settle. -/
def settlingWalk : List Incident :=
  [.move .start, .add "w(5)&a(5)" [], .move .work, .move .work, .move .work, .move .work]

end Environment

end Combo
