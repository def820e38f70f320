-- SUMMARY: Splitting a script at commas and then at ampersands finds the pieces that one scan finds, and loses no character of it.
import Combo.Proofs.Script.Verdict

/-!
# Two levels of splitting in one scan

A comma cuts a script only where it is outside parentheses, so every group begins
at depth 0 of the whole script, and a counter that starts anew for each group
counts what the one counter of a scan counts (`scanAt_eq`). Trimming a group before
it is cut changes nothing either, since its pieces are trimmed.

The texts between separators give the text back when they are joined, and lie in
it where a walk over the bytes of its characters finds them (`map_slice_ranges`).
-/

namespace Combo.Script

/-! ## One scan -/

/-- The raw pieces of some groups, the first of which begins at a given depth. -/
def cutGroups (depth : Nat) : List (List Char) → List (List (List Char))
  | [] => []
  | g :: gs => splitAt '&' depth g :: gs.map (splitAt '&' 0)

theorem cutGroups_zero (groups : List (List Char)) :
    cutGroups 0 groups = groups.map (splitAt '&' 0) := by
  cases groups <;> rfl

/-- A scan cuts a text into its groups, and each of them into its raw pieces. -/
theorem scanAt_eq (depth : Nat) (text : List Char) :
    scanAt depth text = cutGroups depth (splitAt ',' depth text) := by
  induction text generalizing depth with
  | nil => rfl
  | cons c r ih =>
    rw [scanAt, splitAt]
    by_cases comma : depth = 0 ∧ c = ','
    · -- the next group begins at the depth 0 at which the comma cuts
      obtain ⟨rfl, rfl⟩ := comma
      rw [if_pos ⟨rfl, rfl⟩, if_pos ⟨rfl, rfl⟩, ih, cutGroups_zero, cutGroups]
      rfl
    · obtain ⟨g, gs, groups⟩ := List.exists_cons_of_ne_nil (splitAt_ne_nil ',' (depthAfter depth c) r)
      rw [if_neg comma, if_neg (mt And.symm comma), groups, consFirst, cutGroups, splitAt]
      by_cases ampersand : depth = 0 ∧ c = '&'
      · obtain ⟨rfl, rfl⟩ := ampersand
        have plain : depthAfter 0 '&' = 0 := by decide
        rw [plain] at groups
        rw [if_pos ⟨rfl, rfl⟩, if_pos ⟨rfl, rfl⟩, ih, groups, cutGroups]
      · rw [if_neg ampersand, if_neg (mt And.symm ampersand), ih, groups, cutGroups]

/-- A scan finds the pieces of every group. -/
theorem scan_eq (script : List Char) : scan script = (splitAt ',' 0 script).map (split '&') := by
  rw [scan, scanAt_eq, cutGroups_zero, List.map_map]
  rfl

/-- The pieces of a script are those of its groups that are not blank. -/
theorem pieces_eq (script : List Char) : pieces script =
    ((splitAt ',' 0 script).filter fun g => Text.trim g ≠ []).map (split '&') := by
  rw [pieces, split, List.filter_map, List.map_map]
  exact List.map_congr_left fun g _ => split_trim (by decide) g

/-- A group is blank just when its only raw piece is. -/
theorem trim_eq_nil_iff (group : List Char) :
    Text.trim group = [] ↔ (splitAt '&' 0 group).map Text.trim = [[]] := by
  constructor
  · intro blank
    rw [← map_trim_splitAt_trim (by decide), blank]
    rfl
  · intro blank
    have one := congrArg List.length blank
    rw [List.length_map, List.length_singleton] at one
    rw [isWhole_of_length one.le] at blank
    simpa using blank

/-- The pieces of a script are those of a scan, without the groups that are blank. -/
theorem pieces_eq_scanAt (script : List Char) : pieces script =
    ((scanAt 0 script).filter fun group => group.map Text.trim ≠ [[]]).map fun group =>
      (group.map Text.trim).filter (· ≠ []) := by
  have same : ((fun group => decide (group.map Text.trim ≠ [[]])) ∘ splitAt '&' 0) =
      fun g => decide (Text.trim g ≠ []) :=
    funext fun g => decide_eq_decide.2 (not_congr (trim_eq_nil_iff g).symm)
  rw [pieces_eq, scanAt_eq, cutGroups_zero, List.filter_map, List.map_map, same]
  rfl

/-- A blank group has no pieces. -/
theorem split_of_blank {group : List Char} (blank : Text.trim group = []) : split '&' group = [] := by
  rw [split, (trim_eq_nil_iff group).1 blank]
  rfl

/-- The groups that have pieces are those of a scan. -/
theorem filter_pieces (script : List Char) :
    (pieces script).filter (· ≠ []) = (scan script).filter (· ≠ []) := by
  rw [pieces_eq, scan_eq, List.filter_map, List.filter_map, List.filter_filter]
  refine congrArg (List.map _) (List.filter_congr fun g _ => ?_)
  by_cases blank : Text.trim g = []
  · simp [blank, split_of_blank blank]
  · simp [blank]

/-- Groups without pieces add nothing to what is read. -/
theorem ofPieces_filter (groups : List (List (List Char))) :
    Reading.ofPieces ((groups.filter (· ≠ [])).map (·.map Piece.ofText)) =
      Reading.ofPieces (groups.map (·.map Piece.ofText)) := by
  induction groups with
  | nil => rfl
  | cons g groups ih =>
    have apart (g : List Piece) (gs : List (List Piece)) := ofPieces_append [g] gs
    simp only [List.singleton_append] at apart
    cases g with
    | nil =>
      rw [List.filter_cons_of_neg (by simp), ih, List.map_cons, apart]
      simp [Reading.ofPieces]
    | cons p g =>
      rw [List.filter_cons_of_pos (by simp)]
      simp only [List.map_cons]
      rw [apart, ih, ← apart]

/-! ## The text from its parts -/

section

variable {separator : Char}

/-- The texts between the separators give the text back when they are joined by it. -/
theorem intercalate_splitAt (text : List Char) :
    [separator].intercalate (splitAt separator 0 text) = text := by
  apply splitAt_induct (P := fun text ps => [separator].intercalate ps = text)
  · intro text _
    exact List.intercalate_singleton
  · intro a b _ _ ih
    obtain ⟨p, ps, parts⟩ := List.exists_cons_of_ne_nil (splitAt_ne_nil separator 0 b)
    rw [parts] at ih ⊢
    rw [List.intercalate_cons_cons, ih, List.append_assoc, List.singleton_append]

/-- No text between separators has one of them outside its own parentheses. -/
theorem isShielded_of_mem_splitAt {text : List Char} :
    ∀ p ∈ splitAt separator 0 text, IsShielded separator p :=
  fun p hp => isWhole_iff_isShielded.1 (isWhole_of_mem_splitAt p hp)

end

/-! ## Offsets -/

/-- The number of bytes of a text in UTF-8. -/
def byteLength (text : List Char) : Nat := (String.ofList text).utf8ByteSize

@[simp] theorem byteLength_append (a b : List Char) :
    byteLength (a ++ b) = byteLength a + byteLength b := by
  simp [byteLength, String.ofList_append]

@[simp] theorem byteLength_singleton (c : Char) : byteLength [c] = c.utf8Size := by
  rw [byteLength, ← String.singleton_eq_ofList, String.utf8ByteSize_singleton]

/--
Where the texts between the separators begin and end, in bytes: the text at hand began at byte
`start`, and what is left begins at byte `position` and at a given depth.
-/
def rangesAt (separator : Char) (depth start position : Nat) : List Char → List (Nat × Nat)
  | [] => [(start, position)]
  | c :: r =>
    let next := position + c.utf8Size
    if c = separator ∧ depth = 0 then (start, position) :: rangesAt separator 0 next next r
    else rangesAt separator (depthAfter depth c) start next r

/-- Where the texts between the separators of a text begin and end, in bytes. -/
def ranges (separator : Char) (text : String) : List (Nat × Nat) :=
  rangesAt separator 0 0 0 text.toList

/-- The bytes of a text from the first of two offsets up to the second. -/
def slice (text : String) (range : Nat × Nat) : ByteArray := text.toByteArray.extract range.1 range.2

/-- A part of a text begins after the bytes before it and ends where they end together. -/
theorem slice_part (before part after : List Char) :
    slice (String.ofList (before ++ part ++ after)) (byteLength before, byteLength (before ++ part)) =
      (String.ofList part).toByteArray := by
  have size (text : List Char) : byteLength text = (String.ofList text).toByteArray.size :=
    String.size_toByteArray.symm
  rw [slice, String.ofList_append, String.toByteArray_append, size (before ++ part),
    ByteArray.extract_append_size_left, String.ofList_append, String.toByteArray_append]
  exact ByteArray.extract_append_eq_right (size before) ByteArray.size_append

/-- A text put in front of some texts lengthens the first of them. -/
theorem foldr_consFirst (text p : List Char) (ps : List (List Char)) :
    text.foldr consFirst (p :: ps) = (text ++ p) :: ps := by
  induction text with
  | nil => rfl
  | cons c r ih => rw [List.foldr_cons, ih]; rfl

/-- In the middle of a text, the walk over its bytes goes on to find the texts between separators. -/
theorem map_slice_rangesAt (separator : Char) (depth : Nat) (before part rest : List Char) :
    (rangesAt separator depth (byteLength before) (byteLength (before ++ part)) rest).map
        (slice (String.ofList (before ++ part ++ rest))) =
      (part.foldr consFirst (splitAt separator depth rest)).map
        fun p => (String.ofList p).toByteArray := by
  induction rest generalizing depth before part with
  | nil =>
    rw [rangesAt, splitAt, foldr_consFirst, List.map_singleton, List.map_singleton, slice_part,
      List.append_nil]
  | cons c r ih =>
    have next : byteLength (before ++ part) + c.utf8Size = byteLength (before ++ part ++ [c]) := by
      rw [byteLength_append _ [c], byteLength_singleton]
    have text : before ++ part ++ c :: r = before ++ part ++ [c] ++ r := by simp
    rw [rangesAt, splitAt, next]
    split
    · -- the text at hand is cut off, and the next one begins after the separator
      have rest := ih 0 (before ++ part ++ [c]) []
      rw [List.append_nil, ← text, List.foldr_nil] at rest
      rw [List.map_cons, slice_part, rest, foldr_consFirst, List.map_cons, List.append_nil]
    · have rest := ih (depthAfter depth c) before (part ++ [c])
      rw [← List.append_assoc, ← text, List.foldr_append] at rest
      exact rest

/-- The slices of a text at its ranges are the bytes of the texts between its separators. -/
theorem map_slice_ranges (separator : Char) (text : String) :
    (ranges separator text).map (slice text) =
      (splitAt separator 0 text.toList).map fun p => (String.ofList p).toByteArray := by
  have walk := map_slice_rangesAt separator 0 [] [] text.toList
  rw [List.append_nil, List.nil_append, String.ofList_toList] at walk
  exact walk

/-! ## Both together -/

/--
The pieces of a script are those of one scan with a single depth, in the same groups and order, but for
the groups that are blank, which are left out. So the groups that have pieces are the same, and the
script reads as what the scan has found. Of whatever text, and for whatever separator, the texts between
the separators give the text back when they are joined by it, none of them has it outside its own
parentheses, and they are the slices of the text at the offsets that a walk over its bytes has noted.
-/
theorem pieces_scanned (script : String) :
    pieces script.toList =
      ((scanAt 0 script.toList).filter fun group => group.map Text.trim ≠ [[]]).map (fun group =>
        (group.map Text.trim).filter (· ≠ [])) ∧
    (pieces script.toList).filter (· ≠ []) = (scan script.toList).filter (· ≠ []) ∧
    read script = Reading.ofPieces ((scan script.toList).map (·.map Piece.ofText)) ∧
    ∀ (separator : Char) (text : String),
      [separator].intercalate (splitAt separator 0 text.toList) = text.toList ∧
      (∀ piece ∈ splitAt separator 0 text.toList, IsShielded separator piece) ∧
      (ranges separator text).map (slice text) =
        (splitAt separator 0 text.toList).map fun piece => (String.ofList piece).toByteArray := by
  have groups := filter_pieces script.toList
  refine ⟨pieces_eq_scanAt script.toList, groups, ?_, fun separator text => ?_⟩
  · rw [read, readChars, ← ofPieces_filter, groups, ofPieces_filter]
  · exact ⟨intercalate_splitAt text.toList, isShielded_of_mem_splitAt, map_slice_ranges separator text⟩

/-- A blank group is left out and one without pieces is not; a stray and an open parenthesis, and wide characters. -/
theorem pieces_scanned_blankGroup :
    let script := "W(2)& ,\u2003, &,é)& q(a,b&c"
    pieces script.toList = [["W(2)".toList], [], ["é)".toList, "q(a,b&c".toList]] ∧
      scan script.toList = [["W(2)".toList], [], [], ["é)".toList, "q(a,b&c".toList]] ∧
      ranges '&' "é)& q(a,b&c" = [(0, 3), (4, 12)] ∧
      slice "é)& q(a,b&c" (4, 12) = " q(a,b&c".toByteArray ∧
      ∀ before after, " q(a,b&c".toList = before ++ '&' :: after → depthOf before ≠ 0 := by
  intro script
  obtain ⟨same, -, -, cuts⟩ := pieces_scanned script
  have parts : splitAt '&' 0 "é)& q(a,b&c".toList = ["é)".toList, " q(a,b&c".toList] := by decide +kernel
  have found : ranges '&' "é)& q(a,b&c" = [(0, 3), (4, 12)] := by decide +kernel
  obtain ⟨-, shielded, slices⟩ := cuts '&' "é)& q(a,b&c"
  rw [parts, found] at slices
  rw [parts] at shielded
  refine ⟨?_, by decide +kernel, found, ?_, shielded _ (by simp)⟩
  · rw [same]
    decide +kernel
  · exact (List.cons.inj (List.cons.inj slices).2).1

end Combo.Script
