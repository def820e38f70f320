-- SUMMARY: What a turn can make of a run: entries change in their places and new ones come at the end.
import Combo.Proofs.Executor.Poll

/-!
# Changes of a run

Whatever happens to an entry of a run, it is cancelled, started, failed or
polled. `Entry.Change` lists these cases, and `Run.Change` says that a run keeps
its entries in their places while they change, and gets fresh ones only at its
end. There is one lemma for each operation on a run, so that a property of
entries that survives every `Entry.Change` holds of a run whatever is done to it.

What never goes back in an entry is `Entry.Evolves`: the action stays, a
cancelled entry stays cancelled, and one that has ended stays as it ended.
-/

namespace Combo

/-! ## Entries -/

/-- What can become of an entry at once. -/
inductive Entry.Change (device : Device) (attackMs now : Nat) (e : Entry) : Entry → Prop where
  | stay : Change device attackMs now e e
  | cancel : Change device attackMs now e e.cancel
  | release : Change device attackMs now e e.release
  | fail (message : String) : Change device attackMs now e (e.fail message)
  | poll {progress : Progress} {exchange : Option Exchange} (ready : e.runnable now = true)
      (h : e.progress.poll device attackMs now e.action e.cancelled = (progress, exchange)) :
      Change device attackMs now e { e with progress }

/-- What an entry can have become after some time. -/
structure Entry.Evolves (e e' : Entry) : Prop where
  action : e'.action = e.action
  key : e'.key = e.key
  cancelled : e.cancelled = true → e'.cancelled = true
  ended : e.progress.isEnded = true → e'.progress = e.progress
  started : e.progress.isQueued = false → e'.progress.isQueued = false

/-- An action that has ended cannot go on. -/
theorem Entry.isEnded_of_runnable {e : Entry} {now : Nat} (h : e.runnable now = true) :
    e.progress.isEnded = false := by
  unfold runnable at h
  cases hp : e.progress <;> simp_all [Progress.runnable, Progress.isEnded]

namespace Entry.Evolves

variable {e e' e'' : Entry}

theorem refl (e : Entry) : Evolves e e := ⟨rfl, rfl, id, fun _ => rfl, id⟩

theorem trans (h : Evolves e e') (h' : Evolves e' e'') : Evolves e e'' where
  action := h'.action.trans h.action
  key := h'.key.trans h.key
  cancelled := fun hc => h'.cancelled (h.cancelled hc)
  ended := by
    intro he
    have he' : e'.progress.isEnded = true := by
      rw [h.ended he]
      exact he
    exact (h'.ended he').trans (h.ended he)
  started := fun hs => h'.started (h.started hs)

end Entry.Evolves

/-- Every change of an entry is one it does not come back from. -/
theorem Entry.Change.evolves {device : Device} {attackMs now : Nat} {e e' : Entry}
    (h : Change device attackMs now e e') : e.Evolves e' := by
  cases h with
  | stay => exact .refl e
  | cancel => exact ⟨rfl, rfl, fun _ => rfl, fun _ => rfl, id⟩
  | release =>
      unfold Entry.release
      split
      · rename_i queued
        refine ⟨rfl, rfl, id, fun ended => ?_, fun _ => rfl⟩
        cases hp : e.progress <;> simp_all [Progress.isQueued, Progress.isEnded]
      · exact .refl e
  | fail message =>
      unfold Entry.fail
      split
      · exact .refl e
      · rename_i running
        exact ⟨rfl, rfl, id, fun ended => absurd ended running, fun _ => rfl⟩
  | poll ready hpoll =>
      refine ⟨rfl, rfl, id, fun ended => ?_, fun _ => (Progress.poll_polled ready hpoll).isQueued_eq_false⟩
      rw [isEnded_of_runnable ready] at ended
      cases ended

namespace Run

variable {device : Device} {attackMs now : Nat}

/-! ## Runs -/

/-- What can become of a run at once, while some actions are layered onto it. -/
structure Change (device : Device) (attackMs now : Nat) (added : List Action) (r r' : Run) :
    Prop where
  id : r'.id = r.id
  needsFocus : r'.needsFocus = r.needsFocus
  cancelled : r.cancelled = true → r'.cancelled = true
  actions : r'.actions = r.actions ++ added
  kept : ∀ (i : Nat) (e : Entry), r.entries[i]? = some e →
    ∃ e', r'.entries[i]? = some e' ∧ e.Change device attackMs now e'
  fresh : ∀ (i : Nat) (e : Entry), r.entries[i]? = none → r'.entries[i]? = some e → e.IsFresh

/-- A property of entries that survives every change, and holds of fresh entries, holds of all. -/
theorem Change.forall_entries {P : Entry → Prop} {added : List Action} {r r' : Run}
    (h : Change device attackMs now added r r')
    (stable : ∀ e e', Entry.Change device attackMs now e e' → P e → P e')
    (fresh : ∀ e : Entry, e.IsFresh → P e) (hall : ∀ e ∈ r.entries, P e) :
    ∀ e ∈ r'.entries, P e := by
  intro e' he'
  obtain ⟨i, hi⟩ := List.mem_iff_getElem?.1 he'
  cases he : r.entries[i]? with
  | none => exact fresh e' (h.fresh i e' he hi)
  | some e =>
      obtain ⟨e'', hi'', change⟩ := h.kept i e he
      cases hi.symm.trans hi''
      exact stable e e' change (hall e (List.mem_of_getElem? he))

/-- A run whose entries change in their places, and which may be cancelled meanwhile. -/
theorem change_inPlace (r : Run) {entries : List Entry} {cancelled : Bool}
    (hc : r.cancelled = true → cancelled = true) (f : Nat → Entry → Entry)
    (heq : ∀ i : Nat, entries[i]? = r.entries[i]?.map (f i))
    (hf : ∀ (i : Nat) (e : Entry), r.entries[i]? = some e → Entry.Change device attackMs now e (f i e)) :
    Change device attackMs now [] r { r with cancelled, entries } where
  id := rfl
  needsFocus := rfl
  cancelled := hc
  actions := by
    rw [List.append_nil]
    apply List.ext_getElem?
    intro i
    simp only [actions, List.getElem?_map, heq]
    cases he : r.entries[i]? with
    | none => rfl
    | some e => exact congrArg some (hf i e he).evolves.action
  kept := by
    intro i e he
    exact ⟨f i e, by rw [heq, he]; rfl, hf i e he⟩
  fresh := by
    intro i e' hnone he'
    rw [heq, hnone] at he'
    cases he'

theorem change_refl (r : Run) : Change device attackMs now [] r r :=
  change_inPlace r (fun hc => hc) (fun _ e => e) (by simp) fun _ _ _ => .stay

/-- A run with one change made to all of its entries. -/
theorem change_map (r : Run) {cancelled : Bool} (hc : r.cancelled = true → cancelled = true)
    (f : Entry → Entry) (hf : ∀ e, Entry.Change device attackMs now e (f e)) :
    Change device attackMs now [] r { r with cancelled, entries := r.entries.map f } :=
  change_inPlace r hc (fun _ => f) (by simp) fun _ e _ => hf e

theorem change_releaseAll (r : Run) : Change device attackMs now [] r r.releaseAll :=
  change_map r (fun hc => hc) Entry.release fun _ => .release

theorem change_failAll (message : String) (r : Run) :
    Change device attackMs now [] r (r.failAll message) :=
  change_map r (fun hc => hc) (Entry.fail message) fun _ => .fail message

theorem change_interruptAll (r : Run) : Change device attackMs now [] r r.interruptAll.1 :=
  change_map r (fun _ => rfl) Entry.cancel fun _ => .cancel

theorem change_interruptConflicting (kinds : List Kind) (r : Run) :
    Change device attackMs now [] r (r.interruptConflicting kinds).1 := by
  refine change_map r (fun hc => hc) (fun e => if Entry.hitBy kinds e then e.cancel else e) fun e => ?_
  split
  · exact .cancel
  · exact .stay

theorem change_receive (r : Run) : Change device attackMs now [] r r.receive := by
  rcases receive_cases r with heq | ⟨position, heq⟩
  · rw [heq]
    exact change_refl r
  · rw [heq]
    refine change_inPlace r (fun hc => hc) (fun i e => if position = i then e.release else e) ?_ ?_
    · intro i
      rw [List.getElem?_modify]
      rfl
    · intro i e _
      split
      · exact .release
      · exact .stay

theorem change_set (r : Run) {position : Nat} {entry entry' : Entry}
    (h : r.entries[position]? = some entry) (change : Entry.Change device attackMs now entry entry') :
    Change device attackMs now [] r { r with entries := r.entries.set position entry' } := by
  refine change_inPlace r (fun hc => hc) (fun i e => if position = i then entry' else e) ?_ ?_
  · intro i
    rw [List.getElem?_set]
    split
    · rename_i hi
      subst hi
      obtain ⟨hlt, -⟩ := List.getElem?_eq_some_iff.1 h
      simp [hlt]
    · cases r.entries[i]? <;> rfl
  · intro i e he
    split
    · rename_i hi
      subst hi
      cases h.symm.trans he
      exact change
    · exact .stay

theorem change_layer (added : List Action) (r : Run) :
    Change device attackMs now added r (r.layer added) := by
  obtain ⟨new, heq, hadded, fresh⟩ := exists_layer added r
  rw [heq]
  refine ⟨rfl, rfl, fun hc => hc, by simp [actions, hadded], fun i e he => ⟨e, ?_, .stay⟩,
    fun i e' hnone he' => ?_⟩
  · have hlt := (List.getElem?_eq_some_iff.1 he).1
    exact (List.getElem?_append_left hlt).trans he
  · have hle := List.getElem?_eq_none_iff.1 hnone
    rw [show ({ r with entries := r.entries ++ new } : Run).entries[i]? = (r.entries ++ new)[i]? from rfl,
      List.getElem?_append_right hle] at he'
    exact fresh e' (List.mem_of_getElem? he')

end Run

end Combo
