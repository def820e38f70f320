-- SUMMARY: What dispatch, layering, interrupts and progress do to the entries of a run, and the inputs a run holds.
import Combo.Executor.Run

/-!
# The entries of a run

Each operation on a run is described by its effect on the list of entries:
entries are only ever appended, their actions never change, and only a poll
gives an action an input to hold. `Run.holds` lists the inputs by position.
-/

namespace Combo

/-- The input an action holds. -/
def Progress.held? : Progress → Option Input
  | .holding input _ => some input
  | .queued | .ready | .pressing _ _ | .pausing _ | .ended _ => none

theorem Progress.held?_of_isEnded {p : Progress} (h : p.isEnded = true) : p.held? = none := by
  cases p <;> simp_all [isEnded, held?]

theorem Progress.held?_of_isQueued {p : Progress} (h : p.isQueued = true) : p.held? = none := by
  cases p <;> simp_all [isQueued, held?]

namespace Entry

@[simp] theorem cancel_action (e : Entry) : e.cancel.action = e.action := rfl

@[simp] theorem cancel_progress (e : Entry) : e.cancel.progress = e.progress := rfl

@[simp] theorem cancel_cancelled (e : Entry) : e.cancel.cancelled = true := rfl

@[simp] theorem release_action (e : Entry) : e.release.action = e.action := by
  unfold release
  split <;> rfl

@[simp] theorem release_cancelled (e : Entry) : e.release.cancelled = e.cancelled := by
  unfold release
  split <;> rfl

@[simp] theorem release_isQueued (e : Entry) : e.release.progress.isQueued = false := by
  unfold release
  split
  · rfl
  · rename_i h
    simpa using h

@[simp] theorem release_held? (e : Entry) : e.release.progress.held? = e.progress.held? := by
  unfold release
  split
  · rename_i h
    rw [Progress.held?_of_isQueued h]
    rfl
  · rfl

@[simp] theorem fail_action (message : String) (e : Entry) : (e.fail message).action = e.action := by
  unfold fail
  split <;> rfl

@[simp] theorem fail_cancelled (message : String) (e : Entry) :
    (e.fail message).cancelled = e.cancelled := by
  unfold fail
  split <;> rfl

@[simp] theorem fail_isEnded (message : String) (e : Entry) :
    (e.fail message).progress.isEnded = true := by
  unfold fail
  split
  · assumption
  · rfl

end Entry

/-- Whether an entry is as layering makes it: not cancelled, waiting to be started. -/
def Entry.IsFresh (e : Entry) : Prop := e.cancelled = false ∧ e.progress = .queued

/-- Whether an entry is as dispatch makes it: cancelled when the interrupts hit it, else fresh. -/
def Entry.IsDispatched (d : Deferred) (e : Entry) : Prop :=
  if d.hits e.action then e.cancelled = true ∧ e.progress = .ended .cancelled else e.IsFresh

namespace Run

/-! ## Dispatch and layering -/

/-- Where each action is appended as one entry, the actions together are appended in order. -/
theorem exists_foldl_snoc {f : List Entry → Action → List Entry} {P : Entry → Prop}
    (hf : ∀ entries a, ∃ e, f entries a = entries ++ [e] ∧ e.action = a ∧ P e)
    (actions : List Action) (entries : List Entry) :
    ∃ new, actions.foldl f entries = entries ++ new ∧
      new.map (·.action) = actions ∧ ∀ e ∈ new, P e := by
  induction actions generalizing entries with
  | nil => exact ⟨[], by simp⟩
  | cons a actions ih =>
      obtain ⟨e, heq, rfl, he⟩ := hf entries a
      obtain ⟨new, hnew, hactions, hall⟩ := ih (entries ++ [e])
      refine ⟨e :: new, ?_, by simp [hactions], ?_⟩
      · rw [List.foldl_cons, heq, hnew]
        simp
      · intro e' he'
        rcases List.mem_cons.1 he' with rfl | he'
        · exact he
        · exact hall e' he'

/-- Layering appends a fresh entry for each action and changes nothing else. -/
theorem exists_layer (actions : List Action) (r : Run) :
    ∃ new, r.layer actions = { r with entries := r.entries ++ new } ∧
      new.map (·.action) = actions ∧ ∀ e ∈ new, e.IsFresh := by
  obtain ⟨new, heq, hactions, hall⟩ :=
    exists_foldl_snoc (f := enlist) (P := Entry.IsFresh)
      (fun _ _ => ⟨_, rfl, rfl, rfl, rfl⟩) actions r.entries
  exact ⟨new, by rw [layer, heq], hactions, hall⟩

theorem layer_actions (actions : List Action) (r : Run) :
    (r.layer actions).actions = r.actions ++ actions := by
  obtain ⟨new, heq, hactions, -⟩ := exists_layer actions r
  simp [heq, Run.actions, hactions]

/-- Dispatch makes one entry for each action, in order. -/
theorem dispatch_spec (requireFocus : Bool) (d : Deferred) (t : Ticket) :
    (dispatch requireFocus d t).actions = t.group.actions ∧
      ∀ e ∈ (dispatch requireFocus d t).entries, e.IsDispatched d := by
  obtain ⟨new, heq, hactions, hall⟩ :=
    exists_foldl_snoc (P := Entry.IsDispatched d)
      (f := fun entries a => if d.hits a then skip entries a else enlist entries a)
      (by
        intro entries a
        by_cases hit : d.hits a
        · exact ⟨⟨a, a.key, true, .ended .cancelled⟩, by simp [hit, skip], rfl,
            by simp [Entry.IsDispatched, hit]⟩
        · exact ⟨⟨a, freshKey (keysOf entries) a.key, false, .queued⟩, by simp [hit, enlist], rfl,
            by simp [Entry.IsDispatched, Entry.IsFresh, hit]⟩)
      t.group.actions []
  simp only [dispatch, actions, dispatchEntries, heq, List.nil_append]
  exact ⟨hactions, hall⟩

/-! ## Receiving -/

/-- To receive is to release one entry, or none. -/
theorem receive_cases (r : Run) :
    r.receive = r ∨ ∃ i, r.receive = { r with entries := r.entries.modify i Entry.release } := by
  unfold receive
  split
  · rename_i i _
    exact .inr ⟨i, rfl⟩
  · exact .inl rfl

/-- What releasing leaves alone in each entry, receiving leaves alone in the whole run. -/
theorem map_receive {β : Type} (f : Entry → β) (h : ∀ e : Entry, f e.release = f e) (r : Run) :
    r.receive.entries.map f = r.entries.map f := by
  rcases receive_cases r with heq | ⟨i, heq⟩
  · rw [heq]
  · rw [heq]
    apply List.ext_getElem?
    intro j
    simp only [List.getElem?_map, List.getElem?_modify]
    cases r.entries[j]? with
    | none => rfl
    | some e => by_cases hij : i = j <;> simp [hij, h]

/-! ## Actions stay -/

@[simp] theorem releaseAll_actions (r : Run) : r.releaseAll.actions = r.actions := by
  simp [releaseAll, actions]

@[simp] theorem receive_actions (r : Run) : r.receive.actions = r.actions :=
  map_receive _ Entry.release_action r

@[simp] theorem receive_id (r : Run) : r.receive.id = r.id := by
  rcases receive_cases r with heq | ⟨i, heq⟩ <;> rw [heq]

@[simp] theorem receive_cancelled (r : Run) : r.receive.cancelled = r.cancelled := by
  rcases receive_cases r with heq | ⟨i, heq⟩ <;> rw [heq]

@[simp] theorem releaseAll_id (r : Run) : r.releaseAll.id = r.id := rfl

@[simp] theorem failAll_id (message : String) (r : Run) : (r.failAll message).id = r.id := rfl

@[simp] theorem failAll_actions (message : String) (r : Run) :
    (r.failAll message).actions = r.actions := by
  simp [failAll, actions]

@[simp] theorem interruptAll_actions (r : Run) : r.interruptAll.1.actions = r.actions := by
  simp [interruptAll, actions]

@[simp] theorem interruptConflicting_actions (kinds : List Kind) (r : Run) :
    (r.interruptConflicting kinds).1.actions = r.actions := by
  simp only [interruptConflicting, actions, List.map_map]
  apply List.map_congr_left
  intro e _
  by_cases hit : Entry.hitBy kinds e = true <;> simp [hit]

/-- The position of an entry is one of the run's actions. -/
theorem lt_actions_length {r : Run} {position : Nat} {entry : Entry}
    (h : r.entries[position]? = some entry) : position < r.actions.length := by
  rw [actions, List.length_map]
  exact (List.getElem?_eq_some_iff.1 h).1

/-- A poll leaves the actions of the run as they are. -/
theorem set_actions {r : Run} {position : Nat} {entry : Entry}
    (h : r.entries[position]? = some entry) (entry' : Entry) (haction : entry'.action = entry.action) :
    actions { r with entries := r.entries.set position entry' } = r.actions := by
  obtain ⟨hlt, rfl⟩ := List.getElem?_eq_some_iff.1 h
  apply List.ext_getElem?
  intro i
  simp only [actions, List.getElem?_map, List.getElem?_set]
  by_cases hi : position = i
  · subst hi
    simp [hlt, haction]
  · rw [if_neg hi]

/-! ## What is held -/

/-- The input the action at a position holds. -/
def heldAt (r : Run) (position : Nat) : Option Input :=
  (r.entries[position]?).bind fun e => e.progress.held?

/-- The inputs that are held, in order of position. -/
def holding (r : Run) : List Input := r.entries.filterMap fun e => e.progress.held?

/-- Whether no action holds an input. -/
def HoldsNothing (r : Run) : Prop := ∀ e ∈ r.entries, e.progress.held? = none

theorem HoldsNothing.heldAt {r : Run} (h : r.HoldsNothing) (position : Nat) :
    r.heldAt position = none := by
  unfold Run.heldAt
  cases he : r.entries[position]? with
  | none => rfl
  | some e => exact h e (List.mem_of_getElem? he)

theorem HoldsNothing.holding {r : Run} (h : r.HoldsNothing) : r.holding = [] :=
  List.filterMap_eq_nil_iff.2 h

/-- When one entry is replaced, what the others hold stays. -/
theorem exists_holding_set {r : Run} {position : Nat} {entry : Entry}
    (h : r.entries[position]? = some entry) (entry' : Entry) :
    ∃ rest, r.holding.Perm (entry.progress.held?.toList ++ rest) ∧
      (holding { r with entries := r.entries.set position entry' }).Perm
        (entry'.progress.held?.toList ++ rest) := by
  obtain ⟨hlt, rfl⟩ := List.getElem?_eq_some_iff.1 h
  have front : ∀ (o : Option Input) (left right : List Input),
      (left ++ (o.toList ++ right)).Perm (o.toList ++ (left ++ right)) := by
    intro o left right
    rw [← List.append_assoc, ← List.append_assoc]
    exact List.perm_append_comm.append_right right
  have single : ∀ e : Entry, [e].filterMap (fun e => e.progress.held?) = e.progress.held?.toList := by
    intro e
    cases he : e.progress.held? <;> simp [he]
  refine ⟨(r.entries.take position).filterMap (fun e => e.progress.held?) ++
    (r.entries.drop (position + 1)).filterMap (fun e => e.progress.held?), ?_, ?_⟩
  · refine .trans (.of_eq ?_) (front _ _ _)
    rw [← single, ← List.filterMap_append, ← List.filterMap_append, List.singleton_append,
      ← List.drop_eq_getElem_cons, List.take_append_drop]
    rfl
  · refine .trans (.of_eq ?_) (front _ _ _)
    rw [← single, ← List.filterMap_append, ← List.filterMap_append, List.singleton_append,
      holding, List.set_eq_take_append_cons_drop, if_pos hlt]

/-- Two runs whose entries hold the same inputs, up to entries at the end that hold nothing. -/
def SameHolds (r r' : Run) : Prop :=
  ∃ new : List Entry, (∀ e ∈ new, e.progress.held? = none) ∧
    r'.entries.map (·.progress.held?) = (r.entries ++ new).map (·.progress.held?)

theorem SameHolds.of_map {r r' : Run}
    (h : r'.entries.map (·.progress.held?) = r.entries.map (·.progress.held?)) : SameHolds r r' :=
  ⟨[], by simp, by simpa using h⟩

theorem SameHolds.heldAt {r r' : Run} (h : SameHolds r r') (position : Nat) :
    r'.heldAt position = r.heldAt position := by
  obtain ⟨new, hnew, heq⟩ := h
  have hget := congrArg (fun l => l[position]?.join) heq
  simp only [List.getElem?_map] at hget
  have key : r'.heldAt position = ((r.entries ++ new)[position]?.map (·.progress.held?)).join := by
    rw [← hget, Run.heldAt]
    cases r'.entries[position]? <;> rfl
  rw [key, Run.heldAt]
  by_cases hlt : position < r.entries.length
  · rw [List.getElem?_append_left hlt]
    cases r.entries[position]? <;> rfl
  · rw [List.getElem?_eq_none (Nat.le_of_not_lt hlt),
      List.getElem?_append_right (Nat.le_of_not_lt hlt)]
    cases he : new[position - r.entries.length]? with
    | none => rfl
    | some e => simp [hnew e (List.mem_of_getElem? he)]

theorem SameHolds.holding {r r' : Run} (h : SameHolds r r') : r'.holding = r.holding := by
  obtain ⟨new, hnew, heq⟩ := h
  have hmap : ∀ l : List Entry,
      l.filterMap (fun e => e.progress.held?) = (l.map (·.progress.held?)).filterMap fun o => o := by
    intro l
    rw [List.filterMap_map]
    rfl
  rw [Run.holding, Run.holding, hmap, heq, ← hmap, List.filterMap_append,
    List.filterMap_eq_nil_iff.2 hnew, List.append_nil]

theorem sameHolds_interruptAll (r : Run) : SameHolds r r.interruptAll.1 :=
  .of_map (by simp [interruptAll])

theorem sameHolds_interruptConflicting (kinds : List Kind) (r : Run) :
    SameHolds r (r.interruptConflicting kinds).1 := by
  refine .of_map ?_
  simp only [interruptConflicting, List.map_map]
  apply List.map_congr_left
  intro e _
  by_cases hit : Entry.hitBy kinds e = true <;> simp [hit]

theorem sameHolds_releaseAll (r : Run) : SameHolds r r.releaseAll :=
  .of_map (by simp [releaseAll])

theorem sameHolds_receive (r : Run) : SameHolds r r.receive :=
  .of_map (map_receive _ (by simp) r)

theorem sameHolds_layer (actions : List Action) (r : Run) : SameHolds r (r.layer actions) := by
  obtain ⟨new, heq, -, hall⟩ := exists_layer actions r
  refine ⟨new, ?_, by rw [heq]⟩
  intro e he
  rw [(hall e he).2]
  rfl

theorem holdsNothing_failAll (message : String) (r : Run) : (r.failAll message).HoldsNothing := by
  intro e he
  obtain ⟨e', -, rfl⟩ := List.mem_map.1 he
  exact Progress.held?_of_isEnded (Entry.fail_isEnded message e')

theorem holdsNothing_dispatch (requireFocus : Bool) (d : Deferred) (t : Ticket) :
    (dispatch requireFocus d t).HoldsNothing := by
  intro e he
  have hd := (dispatch_spec requireFocus d t).2 e he
  unfold Entry.IsDispatched at hd
  split at hd
  · rw [hd.2]
    rfl
  · rw [hd.2]
    rfl

end Run

end Combo
