-- SUMMARY: The search for a free key ends, with a key among the first candidates that is not taken, so that no two listed actions share a key.
import Mathlib.Data.List.Nodup
import Mathlib.Data.List.Perm.Subperm
import Mathlib.Data.Nat.Find
import Combo.Executor.Run
import Combo.Proofs.Number.Integer

/-!
# Fresh keys

The candidates for a key differ, because their numbers do, so one of them more
than there are taken keys is free. The first free one is the fresh key, and the
search that tries one candidate after another ends with it (`search_iff`). Whatever
is appended to a list of entries, their listed keys stay apart.
-/

namespace Combo

/-- Different candidates for a key have different texts. -/
theorem keyCandidate_injective (base : String) : Function.Injective (keyCandidate base) := by
  have numbered : ∀ n, base ≠ base ++ "#" ++ Number.natText n := by
    intro n heq
    have lengths := congrArg String.length heq
    have mark : "#".length = 1 := rfl
    simp only [String.length_append, mark] at lengths
    omega
  intro m n heq
  unfold keyCandidate at heq
  split at heq <;> split at heq
  · omega
  · exact absurd heq (numbered n)
  · exact absurd heq.symm (numbered m)
  · refine Number.natText_injective (String.toList_inj.1 ?_)
    simpa using congrArg String.toList heq

/-- One candidate more than there are taken keys includes a free one. -/
theorem exists_keyCandidate_not_mem (taken : List String) (base : String) :
    ∃ n ≤ taken.length, keyCandidate base n ∉ taken := by
  by_contra! all
  have apart : ((List.range (taken.length + 1)).map (keyCandidate base)).Nodup :=
    List.nodup_range.map (keyCandidate_injective base)
  have within : ((List.range (taken.length + 1)).map (keyCandidate base)) ⊆ taken := by
    intro key hkey
    obtain ⟨n, hn, rfl⟩ := List.mem_map.1 hkey
    exact all n (Nat.lt_succ_iff.1 (List.mem_range.1 hn))
  have fits := (apart.subperm within).length_le
  rw [List.length_map, List.length_range] at fits
  omega

/-- The candidates before the first free one are taken, and they are no more than the taken keys. -/
theorem exists_first_free (taken : List String) (base : String) :
    ∃ n ≤ taken.length, keyCandidate base n ∉ taken ∧ ∀ m < n, keyCandidate base m ∈ taken := by
  obtain ⟨bound, within, free⟩ := exists_keyCandidate_not_mem taken base
  have some : ∃ n, keyCandidate base n ∉ taken := ⟨bound, free⟩
  refine ⟨Nat.find some, Nat.le_trans (Nat.find_min' some free) within, Nat.find_spec some, ?_⟩
  exact fun m before => not_not.1 (Nat.find_min some before)

section

variable {taken : List String} {base : String} {n : Nat}

/-- The fresh key is the first free candidate. -/
theorem freshKey_eq (within : n ≤ taken.length) (free : keyCandidate base n ∉ taken)
    (first : ∀ m < n, keyCandidate base m ∈ taken) : freshKey taken base = keyCandidate base n := by
  have found : (List.range (taken.length + 1)).find?
      ((fun key => !taken.contains key) ∘ keyCandidate base) = some n := by
    refine List.find?_range_eq_some.2 ⟨by simpa using free, ?_, fun m before => ?_⟩
    · exact List.mem_range.2 (Nat.lt_succ_of_le within)
    · simpa using first m before
  rw [freshKey, List.find?_map, found]
  rfl

/-- The fresh key is not taken. -/
theorem freshKey_not_mem (taken : List String) (base : String) : freshKey taken base ∉ taken := by
  obtain ⟨n, within, free, first⟩ := exists_first_free taken base
  rwa [freshKey_eq within free first]

/-- It matters for the fresh key which keys are taken, and not in which order or how often they are listed. -/
theorem freshKey_congr {taken' : List String} (same : ∀ key, key ∈ taken ↔ key ∈ taken')
    (base : String) : freshKey taken base = freshKey taken' base := by
  obtain ⟨n, within, free, first⟩ := exists_first_free taken base
  obtain ⟨n', within', free', first'⟩ := exists_first_free taken' base
  have least : ¬n < n' := fun lt => free ((same _).2 (first' n lt))
  have least' : ¬n' < n := fun lt => free' ((same _).1 (first n' lt))
  obtain rfl : n = n' := by omega
  rw [freshKey_eq within free first, freshKey_eq within' free' first']

/-! ## The search -/

/--
The search for a free key as a loop: as long as the key at hand is taken, the next one is the base with the
suffix `n`. `Search taken base key n found m` says that the loop comes to its end from `key` and `n`,
with the key `found` and the suffix `m` that would be tried next. Nothing bounds the number of rounds.
-/
inductive Search (taken : List String) (base : String) : String → Nat → String → Nat → Prop where
  | stop {key : String} {n : Nat} (free : key ∉ taken) : Search taken base key n key n
  | next {key found : String} {n m : Nat} (occupied : key ∈ taken)
      (rest : Search taken base (base ++ "#" ++ Number.natText n) (n + 1) found m) :
      Search taken base key n found m

/-- The search can end in one way only. -/
theorem Search.unique {key found found' : String} {m m' : Nat} (h : Search taken base key n found m)
    (h' : Search taken base key n found' m') : found = found' ∧ m = m' := by
  induction h with
  | stop free =>
      cases h' with
      | stop => exact ⟨rfl, rfl⟩
      | next occupied => exact absurd occupied free
  | next occupied rest ih =>
      cases h' with
      | stop free => exact absurd occupied free
      | next _ rest' => exact ih rest'

/-- From every candidate before the first free one the search comes to that one. -/
theorem search_candidate (free : keyCandidate base n ∉ taken)
    (first : ∀ m < n, keyCandidate base m ∈ taken) {m : Nat} (h : m ≤ n) :
    Search taken base (keyCandidate base m) (m + 1) (keyCandidate base n) (n + 1) := by
  -- backwards from the free candidate, since a round of the loop only leads to the next one
  induction h using Nat.decreasingInduction with
  | self => exact .stop free
  | of_succ m before ih => exact .next (first m before) ih

/-- The search ends with the fresh key, after no more suffixes than there are taken keys. -/
theorem search_iff (taken : List String) (base : String) :
    ∃ n ≤ taken.length, ∀ found m,
      Search taken base base 1 found m ↔ found = freshKey taken base ∧ m = n + 1 := by
  obtain ⟨n, within, free, first⟩ := exists_first_free taken base
  have ends : Search taken base base 1 (freshKey taken base) (n + 1) := by
    rw [freshKey_eq within free first]
    exact search_candidate free first n.zero_le
  refine ⟨n, within, fun found m => ⟨fun h => h.unique ends, ?_⟩⟩
  rintro ⟨rfl, rfl⟩
  exact ends

end

namespace Run

@[simp] theorem keysOf_skip (entries : List Entry) (a : Action) :
    keysOf (skip entries a) = keysOf entries := by
  simp [keysOf, listed, skip]

@[simp] theorem keysOf_enlist (entries : List Entry) (a : Action) :
    keysOf (enlist entries a) = keysOf entries ++ [freshKey (keysOf entries) a.key] := by
  simp [keysOf, listed, enlist]

/-- An action that is appended is listed under a key of its own. -/
theorem nodup_keysOf_enlist {entries : List Entry} (h : (keysOf entries).Nodup) (a : Action) :
    (keysOf (enlist entries a)).Nodup := by
  rw [keysOf_enlist, ← List.concat_eq_append]
  exact h.concat (freshKey_not_mem _ _)

/-- What keeps the keys apart for one action keeps them apart for many. -/
theorem nodup_keysOf_foldl {f : List Entry → Action → List Entry}
    (hf : ∀ entries a, (keysOf entries).Nodup → (keysOf (f entries a)).Nodup)
    (actions : List Action) {entries : List Entry} (h : (keysOf entries).Nodup) :
    (keysOf (actions.foldl f entries)).Nodup := by
  induction actions generalizing entries with
  | nil => exact h
  | cons a actions ih => exact ih (hf entries a h)

theorem nodup_keysOf_dispatch (requireFocus : Bool) (d : Deferred) (t : Ticket) :
    (keysOf (dispatch requireFocus d t).entries).Nodup := by
  refine nodup_keysOf_foldl (fun entries a h => ?_) t.group.actions List.nodup_nil
  split
  · rw [keysOf_skip]
    exact h
  · exact nodup_keysOf_enlist h a

theorem nodup_keysOf_layer {r : Run} (h : (keysOf r.entries).Nodup) (actions : List Action) :
    (keysOf (r.layer actions).entries).Nodup :=
  nodup_keysOf_foldl (fun _ a h => nodup_keysOf_enlist h a) actions h

end Run

end Combo
