-- SUMMARY: Dispatch under deferred interrupts is, up to what they hit, dispatch of the spared actions alone.
import Combo.Proofs.Executor.Run

/-!
# Dispatch of a part

Interrupts that were deferred to a group hit some of its actions, which then have
an entry that has ended and is not listed. The other entries, with their keys and
the need of focus, are those of a group made of the spared actions alone.
-/

namespace Combo

namespace Deferred

@[simp] theorem hits_none (a : Action) : ({} : Deferred).hits a = false := rfl

/-- The group of the actions that interrupts spare. -/
def spared (d : Deferred) (g : Group) : Group := .of (g.actions.filter fun a => !d.hits a)

end Deferred

namespace Run

/-- What is not listed in a list of entries has no part in the keys. -/
theorem listed_filter {keep : Entry → Bool} {entries : List Entry}
    (h : ∀ e ∈ entries, keep e = false → e.cancelled = true) :
    listed (entries.filter keep) = listed entries := by
  simp only [listed, List.filter_filter]
  apply List.filter_congr
  intro e he
  cases hk : keep e with
  | true => simp
  | false => simp [h e he hk]

/-- Dispatch of the remaining actions, from entries of which only spared ones are listed. -/
theorem foldl_dispatch_spared (d : Deferred) (actions : List Action) (entries : List Entry)
    (h : ∀ e ∈ entries, d.hits e.action = true → e.cancelled = true) :
    (actions.foldl (fun entries a => if d.hits a then skip entries a else enlist entries a)
        entries).filter (fun e => !d.hits e.action) =
      (actions.filter fun a => !d.hits a).foldl enlist
        (entries.filter fun e => !d.hits e.action) := by
  induction actions generalizing entries with
  | nil => rfl
  | cons a actions ih =>
      have listed_eq : keysOf (entries.filter fun e => !d.hits e.action) = keysOf entries := by
        refine congrArg (List.map (·.key)) (listed_filter fun e he hk => h e he ?_)
        simpa using hk
      cases hit : d.hits a with
      | true =>
          rw [List.foldl_cons, if_pos hit, ih]
          · simp [skip, hit]
          · intro e he hhit
            rcases List.mem_append.1 he with he | he
            · exact h e he hhit
            · rw [List.mem_singleton.1 he]
      | false =>
          rw [List.foldl_cons, if_neg (by simp [hit]), ih]
          · simp [enlist, hit, listed_eq]
          · intro e he hhit
            rcases List.mem_append.1 he with he | he
            · exact h e he hhit
            · rw [List.mem_singleton.1 he, hit] at hhit
              cases hhit

/-- The entries of the spared actions are those of the spared actions alone. -/
theorem dispatchEntries_spared (d : Deferred) (actions : List Action) :
    (dispatchEntries d actions).filter (fun e => !d.hits e.action) =
      dispatchEntries {} (actions.filter fun a => !d.hits a) :=
  foldl_dispatch_spared d actions [] (by simp)

variable (requireFocus : Bool) (d : Deferred) (t : Ticket)

/-- An action that was hit is cancelled and has ended from the start. -/
theorem dispatch_hit {e : Entry} (he : e ∈ (dispatch requireFocus d t).entries)
    (hit : d.hits e.action = true) : e.cancelled = true ∧ e.progress = .ended .cancelled := by
  have hd := (dispatch_spec requireFocus d t).2 e he
  rwa [Entry.IsDispatched, if_pos hit] at hd

/-- The spared actions have the entries they have when they are dispatched alone. -/
theorem dispatch_spared :
    (dispatch requireFocus d t).entries.filter (fun e => !d.hits e.action) =
      (dispatch requireFocus {} ⟨t.id, d.spared t.group⟩).entries :=
  dispatchEntries_spared d t.group.actions

/-- What is listed of a dispatched group is what would be if its spared actions were alone. -/
theorem dispatch_listed :
    listed (dispatch requireFocus d t).entries =
      listed (dispatch requireFocus {} ⟨t.id, d.spared t.group⟩).entries := by
  rw [← dispatch_spared, listed_filter]
  intro e he hk
  exact (dispatch_hit requireFocus d t he (by simpa using hk)).1

/-- A group needs the focus if its spared actions alone do. -/
theorem dispatch_needsFocus :
    (dispatch requireFocus d t).needsFocus =
      (dispatch requireFocus {} ⟨t.id, d.spared t.group⟩).needsFocus :=
  congrArg (fun entries : List Entry => requireFocus && entries.any (·.action.kind.needsFocus))
    (dispatch_listed requireFocus d t)

/-- When everything was interrupted nothing is spared, and no focus is needed. -/
theorem dispatch_all {d : Deferred} (all : d.all = true) :
    (dispatch requireFocus d t).needsFocus = false := by
  have none_spared : d.spared t.group = .of [] :=
    congrArg Group.of (List.filter_eq_nil_iff.2 fun a _ => by simp [Deferred.hits, all])
  rw [dispatch_needsFocus, none_spared]
  simp [dispatch, dispatchEntries, Group.of, listed]

end Run

end Combo
