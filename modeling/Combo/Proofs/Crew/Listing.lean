-- SUMMARY: A run under its own worker's token alone: what cancelling and listing do to it, compared with a run that lists itself.
import Mathlib.Data.List.Induction
import Combo.Crew.Move
import Combo.Proofs.Clockwork.Sound
import Combo.Proofs.Executor.Run

/-!
# Runs without guests

An action of a run without guests is under the token of its own worker's round. As
long as the board lists just the actions of such a run that are not cancelled,
`Run.shown`, the calls of a crew do to the run what the run does to itself: to
cancel the token is to interrupt everything, to cancel listed actions is to
interrupt those that conflict, and actions that are accepted get the same keys.
-/

namespace Combo

/-- A row that is mapped position by position to itself. -/
theorem mapIdx_eq_self {α : Type} {f : Nat → α → α} {l : List α}
    (h : ∀ (i : Nat) (a : α), l[i]? = some a → f i a = a) : l.mapIdx f = l := by
  refine List.ext_getElem? fun i => ?_
  rw [List.getElem?_mapIdx]
  cases ha : l[i]? with
  | none => rfl
  | some a => simp [h i a ha]

/-- A row that is mapped position by position as it is mapped element by element. -/
theorem mapIdx_eq_map {α β : Type} {f : Nat → α → β} {g : α → β} {l : List α}
    (h : ∀ (i : Nat) (a : α), l[i]? = some a → f i a = g a) : l.mapIdx f = l.map g := by
  refine List.ext_getElem? fun i => ?_
  rw [List.getElem?_mapIdx, List.getElem?_map]
  cases ha : l[i]? with
  | none => rfl
  | some a => simp [h i a ha]

/-! ## What a run lists -/

/-- How an entry of a worker's run is listed. -/
def Entry.listing? (worker position : Nat) (e : Entry) : Option Listing :=
  if e.cancelled then none else some ⟨e.key, e.action.kind, worker, position⟩

/-- The listings of entries. -/
def Listing.ofEntries (worker : Nat) (entries : List Entry) : List Listing :=
  entries.zipIdx.filterMap fun (e, position) => e.listing? worker position

/-- The listings of a worker's run. -/
def Run.shown (worker : Nat) (r : Run) : List Listing := Listing.ofEntries worker r.entries

namespace Listing

variable {worker : Nat} {entries : List Entry}

theorem ofEntries_snoc (worker : Nat) (entries : List Entry) (e : Entry) :
    ofEntries worker (entries ++ [e]) =
      ofEntries worker entries ++ (e.listing? worker entries.length).toList := by
  rw [ofEntries, List.zipIdx_append, List.filterMap_append, ← ofEntries]
  cases h : e.listing? worker entries.length <;> simp [h]

/-- What is listed, read off the entries. -/
theorem map_ofEntries {β : Type} (f : Listing → β) (g : Entry → β)
    (h : ∀ (e : Entry) (position : Nat), f ⟨e.key, e.action.kind, worker, position⟩ = g e) :
    (ofEntries worker entries).map f = (Run.listed entries).map g := by
  induction entries using List.reverseRecOn with
  | nil => rfl
  | append_singleton entries e ih =>
      rw [ofEntries_snoc, List.map_append, ih, Run.listed, Run.listed, List.filter_append,
        List.map_append]
      cases hc : e.cancelled <;> simp [Entry.listing?, hc, h]

theorem keys_ofEntries (worker : Nat) (entries : List Entry) :
    (ofEntries worker entries).map (·.key) = Run.keysOf entries :=
  map_ofEntries _ _ fun _ _ => rfl

theorem length_ofEntries (worker : Nat) (entries : List Entry) :
    (ofEntries worker entries).length = (Run.listed entries).length := by
  have same : (ofEntries worker entries).map (fun _ => ()) = (Run.listed entries).map fun _ => () :=
    map_ofEntries _ _ fun _ _ => rfl
  simpa using congrArg List.length same

theorem mem_ofEntries {l : Listing} : l ∈ ofEntries worker entries ↔
    ∃ e, entries[l.position]? = some e ∧ e.cancelled = false ∧
      l = ⟨e.key, e.action.kind, worker, l.position⟩ := by
  simp only [ofEntries, List.mem_filterMap, Prod.exists, List.mem_zipIdx_iff_getElem?,
    Entry.listing?]
  constructor
  · rintro ⟨e, position, he, hl⟩
    split at hl
    · cases hl
    · rename_i listed
      cases hl
      exact ⟨e, he, by simpa using listed, rfl⟩
  · rintro ⟨e, he, listed, hl⟩
    exact ⟨e, l.position, he, by rw [listed]; simpa using hl.symm⟩

/-- Entries that are all cancelled are not listed. -/
theorem ofEntries_of_cancelled (h : ∀ e ∈ entries, e.cancelled = true) :
    ofEntries worker entries = [] := by
  refine List.eq_nil_iff_forall_not_mem.2 fun l hl => ?_
  obtain ⟨e, he, listed, -⟩ := mem_ofEntries.1 hl
  rw [h e (List.mem_of_getElem? he)] at listed
  cases listed

/-- An entry is among the listings of some kinds if it is not cancelled and of such a kind. -/
theorem any_ofEntries (p : Kind → Bool) {position : Nat} {e : Entry}
    (he : entries[position]? = some e) :
    (((ofEntries worker entries).filter fun l => p l.kind).any fun l =>
      l.worker == worker && l.position == position) = (!e.cancelled && p e.action.kind) := by
  rw [Bool.eq_iff_iff, List.any_eq_true, Bool.and_eq_true]
  constructor
  · rintro ⟨l, hl, hat⟩
    obtain ⟨hl, hit⟩ := List.mem_filter.1 hl
    obtain ⟨e', he', listed, heq⟩ := mem_ofEntries.1 hl
    simp only [Bool.and_eq_true, beq_iff_eq] at hat
    rw [hat.2, he] at he'
    cases he'
    rw [heq] at hit
    exact ⟨by rw [listed]; rfl, hit⟩
  · rintro ⟨listed, hit⟩
    refine ⟨⟨e.key, e.action.kind, worker, position⟩, ?_, by simp⟩
    exact List.mem_filter.2 ⟨mem_ofEntries.2 ⟨e, he, by simpa using listed, rfl⟩, hit⟩

end Listing

/-- What an entry is listed by, which stays while its action gets on. -/
def Entry.tag (e : Entry) : Bool × String × Action := (e.cancelled, e.key, e.action)

@[simp] theorem Entry.release_tag (e : Entry) : e.release.tag = e.tag := by
  unfold release
  split <;> rfl

@[simp] theorem Entry.fail_tag (message : String) (e : Entry) : (e.fail message).tag = e.tag := by
  unfold fail
  split <;> rfl

namespace Run

variable {worker : Nat} {own : Shift} {ledger : Ledger} {r r' : Run}

/-- Runs with the same tags list the same. -/
theorem shown_congr (same : r'.entries.map Entry.tag = r.entries.map Entry.tag) :
    r'.shown worker = r.shown worker := by
  let row : List (Bool × String × Action) → List Listing := fun tags =>
    tags.zipIdx.filterMap fun (tag, position) =>
      if tag.1 then none else some ⟨tag.2.1, tag.2.2.kind, worker, position⟩
  have read : ∀ entries : List Entry, Listing.ofEntries worker entries = row (entries.map Entry.tag) := by
    intro entries
    simp only [row, Listing.ofEntries, List.zipIdx_map, List.filterMap_map]
    rfl
  rw [shown, shown, read, read, same]

/-- A poll leaves the tags as they are. -/
theorem set_tag {position : Nat} {entry entry' : Entry} (h : r.entries[position]? = some entry)
    (same : entry'.tag = entry.tag) :
    (r.entries.set position entry').map Entry.tag = r.entries.map Entry.tag := by
  obtain ⟨lt, rfl⟩ := List.getElem?_eq_some_iff.1 h
  rw [List.map_set, same]
  refine List.ext_getElem? fun i => ?_
  rw [List.getElem?_set]
  split
  · rename_i hi
    subst hi
    simp [lt]
  · rfl

theorem shown_of_cancelled (coherent : r.Coherent) (cancelled : r.cancelled = true) :
    r.shown worker = [] :=
  Listing.ofEntries_of_cancelled (coherent cancelled)

/-! ## Cancelling -/

theorem shiftAt_of_guests (h : ledger.guests = []) (position : Nat) :
    ledger.shiftAt own position = own := by
  simp [Ledger.shiftAt, h]

/-- To cancel the token of its round is to interrupt everything in a run without guests. -/
theorem cancelUnder_of_hit {hit : Shift → Bool} (h : ledger.guests = []) (hown : hit own = true) :
    r.cancelUnder hit own ledger = r.interruptAll.1 := by
  simp only [cancelUnder, interruptAll, hown, Bool.or_true]
  congr 1
  exact mapIdx_eq_map fun i e _ => by rw [shiftAt_of_guests h, if_pos hown]

/-- The tokens of other rounds do not matter to a run without guests. -/
theorem cancelUnder_of_not_hit {hit : Shift → Bool} (h : ledger.guests = [])
    (hown : hit own = false) : r.cancelUnder hit own ledger = r := by
  have entries : (r.entries.mapIdx fun position e =>
      if hit (ledger.shiftAt own position) then e.cancel else e) = r.entries :=
    mapIdx_eq_self fun i e _ => by simp [shiftAt_of_guests h, hown]
  simp only [cancelUnder, hown, Bool.or_false, entries]

/-- What is cancelled stays as it is when everything is interrupted. -/
theorem interruptAll_of_cancelled (coherent : r.Coherent) (cancelled : r.cancelled = true) :
    r.interruptAll.1 = r := by
  have entries : r.entries.map Entry.cancel = r.entries := by
    refine (List.map_congr_left fun e he => ?_).trans (List.map_id _)
    have := coherent cancelled e he
    cases e
    simp_all [Entry.cancel]
  obtain ⟨id, estimate, _, needsFocus, entries'⟩ := r
  simp_all [interruptAll]

/-- What is cancelled stays as it is, whatever else is cancelled. -/
theorem cancelUnder_of_cancelled (coherent : r.Coherent) (cancelled : r.cancelled = true) (hit : Shift → Bool)
    (own : Shift) (ledger : Ledger) : r.cancelUnder hit own ledger = r := by
  have entries : (r.entries.mapIdx fun position e =>
      if hit (ledger.shiftAt own position) then e.cancel else e) = r.entries := by
    refine mapIdx_eq_self fun i e he => ?_
    have := coherent cancelled e (List.mem_of_getElem? he)
    cases e
    simp_all [Entry.cancel]
  obtain ⟨id, estimate, _, needsFocus, entries'⟩ := r
  simp_all [cancelUnder]

theorem cancelListed_of_cancelled (listings : List Listing) (h : ∀ e ∈ r.entries, e.cancelled = true) :
    r.cancelListed listings worker = r := by
  have entries : (r.entries.mapIdx fun position e =>
      if listings.any (fun l => l.worker == worker && l.position == position) then e.cancel else e) =
        r.entries := by
    refine mapIdx_eq_self fun i e he => ?_
    have := h e (List.mem_of_getElem? he)
    cases e
    simp_all [Entry.cancel]
  simp only [cancelListed, entries]

@[simp] theorem cancelListed_nil (worker : Nat) (r : Run) : r.cancelListed [] worker = r := by
  have entries : (r.entries.mapIdx fun _ e => e) = r.entries := mapIdx_eq_self fun _ _ _ => rfl
  simp [cancelListed, entries]

/-- To cancel the listed actions of some kinds is to interrupt what conflicts. -/
theorem cancelListed_shown (kinds : List Kind) (worker : Nat) (r : Run) :
    r.cancelListed ((r.shown worker).filter fun l => l.kind.interrupted kinds) worker =
      (r.interruptConflicting kinds).1 := by
  simp only [cancelListed, interruptConflicting]
  congr 1
  refine mapIdx_eq_map fun i e he => ?_
  rw [shown, Listing.any_ofEntries (fun kind => kind.interrupted kinds) he]
  rfl

theorem length_filter_shown (kinds : List Kind) (worker : Nat) (r : Run) :
    ((r.shown worker).filter fun l => l.kind.interrupted kinds).length =
      (r.interruptConflicting kinds).2 := by
  have kept : (r.shown worker).map (fun l => l.kind.interrupted kinds) =
      (listed r.entries).map fun e => e.action.kind.interrupted kinds := Listing.map_ofEntries _ _ fun _ _ => rfl
  rw [← List.countP_eq_length_filter, interruptConflicting, ← List.countP_eq_length_filter]
  have count := congrArg (List.countP fun b => b) kept
  simp only [List.countP_map, listed, List.countP_filter] at count
  rw [shown]
  refine Eq.trans count (List.countP_congr fun e _ => ?_)
  simp [Entry.hitBy, and_comm]

/-- The actions that are left listed are those that are left uncancelled. -/
theorem filter_shown (kinds : List Kind) (worker : Nat) (r : Run) :
    (r.shown worker).filter (fun l => !l.kind.interrupted kinds) =
      (r.interruptConflicting kinds).1.shown worker := by
  simp only [shown, interruptConflicting]
  induction r.entries using List.reverseRecOn with
  | nil => rfl
  | append_singleton entries e ih =>
      rw [List.map_append, List.map_singleton, Listing.ofEntries_snoc, Listing.ofEntries_snoc,
        List.filter_append, ih, List.length_map]
      congr 1
      cases hc : e.cancelled <;> cases hk : e.action.kind.interrupted kinds <;>
        simp [Entry.hitBy, Entry.listing?, hc, hk]

/-! ## Accepting -/

/-- Layered actions get the entries and listings that the run itself gives them. -/
theorem foldl_enlist (actions : List Action) (worker : Nat) (r : Run) :
    actions.foldl (Listing.enlist worker false) (r.entries, r.shown worker) =
      ((r.layer actions).entries, (r.layer actions).shown worker) := by
  simp only [layer, shown]
  generalize r.entries = entries
  induction actions generalizing entries with
  | nil => rfl
  | cons a actions ih =>
      rw [List.foldl_cons, List.foldl_cons, ← ih]
      congr 1
      rw [enlist, Listing.ofEntries_snoc, Listing.enlist]
      simp [Entry.listing?, Listing.keys_ofEntries]

/-- The actions of a dequeued group get the entries and listings that a run gives them. -/
theorem foldl_accept (d : Deferred) (actions : List Action) (worker : Nat) (entries : List Entry) :
    actions.foldl (Listing.accept d worker false) (entries, Listing.ofEntries worker entries) =
      (let entries := actions.foldl
        (fun entries a => if d.hits a then skip entries a else enlist entries a) entries
      (entries, Listing.ofEntries worker entries)) := by
  induction actions generalizing entries with
  | nil => rfl
  | cons a actions ih =>
      rw [List.foldl_cons, List.foldl_cons, ← ih]
      congr 1
      unfold Listing.accept
      split
      · rw [skip, Listing.ofEntries_snoc]
        simp [Entry.listing?]
      · rw [enlist, Listing.ofEntries_snoc, Listing.enlist]
        simp [Entry.listing?, Listing.keys_ofEntries]

/-- A worker that is told to stop lists nothing when everything is deferred to the group. -/
theorem foldl_accept_all {d : Deferred} (all : d.all = true) (cancelled cancelled' : Bool)
    (actions : List Action) (worker : Nat) (lists : List Entry × List Listing) :
    actions.foldl (Listing.accept d worker cancelled) lists =
      actions.foldl (Listing.accept d worker cancelled') lists := by
  have hits : ∀ a, d.hits a = true := fun a => by simp [Deferred.hits, all]
  congr 1
  funext lists a
  simp [Listing.accept, hits]

/-- The run of a dispatched group, put together from its entries. -/
theorem ofEntries_dispatch (requireFocus : Bool) (d : Deferred) (t : Ticket) :
    ofEntries requireFocus d.all t (dispatch requireFocus d t).entries = dispatch requireFocus d t := by
  have queued : ((dispatch requireFocus d t).entries.any fun e =>
      e.progress.isQueued && e.action.kind.needsFocus) =
        (listed (dispatch requireFocus d t).entries).any (·.action.kind.needsFocus) := by
    rw [listed, List.any_filter, Bool.eq_iff_iff, List.any_eq_true, List.any_eq_true]
    refine exists_congr fun e => and_congr_right fun he => ?_
    have dispatched := (dispatch_spec requireFocus d t).2 e he
    unfold Entry.IsDispatched Entry.IsFresh at dispatched
    split at dispatched <;> simp [dispatched.1, dispatched.2, Progress.isQueued]
  rw [ofEntries, queued]
  rfl

/-! ## Joining -/

theorem isDrained_of_isJoined (h : r.isJoined ledger = true) : r.isDrained = true := by
  refine List.all_eq_true.2 fun e he => ?_
  obtain ⟨position, he⟩ := List.mem_iff_getElem?.1 he
  have := List.all_eq_true.1 h (e, position) (List.mem_zipIdx_iff_getElem?.2 he)
  simp only [Bool.or_eq_true, Bool.and_eq_true] at this ⊢
  exact this.imp_right And.left

/-- When all actions have ended and all outcomes are taken, the worker knows of all of them. -/
theorem isJoined_of_isDrained (h : r.isDrained = true) (taken : r.joinable? ledger = none) :
    r.isJoined ledger = true := by
  refine List.all_eq_true.2 fun ⟨e, position⟩ he => ?_
  have drained := List.all_eq_true.1 h e (List.mem_of_getElem? (List.mem_zipIdx_iff_getElem?.1 he))
  have known := List.findSome?_eq_none_iff.1 taken (e, position) he
  cases hq : e.progress.isQueued <;> simp_all

theorem releaseAll_of_not_queued (h : r.hasQueued = false) : r.releaseAll = r := by
  have entries : r.entries.map Entry.release = r.entries := by
    refine (List.map_congr_left fun e he => ?_).trans (List.map_id _)
    have hq : e.progress.isQueued = false := by simpa using List.any_eq_false.1 h e he
    simp [Entry.release, hq]
  simp only [releaseAll, entries]

end Run

end Combo
