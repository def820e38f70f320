-- SUMMARY: Reading is compositional: two scripts joined by a separator read as the one and then the other.
import Combo.Proofs.Script.RoundTrip

/-!
# Scripts joined by a separator

A text that ends outside parentheses leaves the depth at 0, so a separator after it
cuts there, and what follows is cut as it would be alone. At a comma the pieces of
two scripts follow each other. At an ampersand two groups become one; here the cut
is made in a text that was trimmed before, and `split_trim` shows that this
changes nothing.
-/

namespace Combo.Script

/-! ## Shielded separators -/

/-- Whether a separator stands nowhere in a text outside its parentheses. -/
def IsShielded (separator : Char) (text : List Char) : Prop :=
  ∀ before after, text = before ++ separator :: after → depthOf before ≠ 0

/-- A text is whole just when the separator is shielded in it. -/
theorem isWhole_iff_isShielded {separator : Char} {text : List Char} :
    IsWhole separator 0 text ↔ IsShielded separator text := by
  constructor
  · rintro whole before after rfl closed
    obtain ⟨-, cut⟩ := whole.of_append
    rw [show depthFrom 0 before = 0 from closed] at cut
    exact (isWhole_cons.1 cut).1 ⟨rfl, rfl⟩
  · intro shielded
    rcases isWhole_or_cut separator 0 text with whole | ⟨before, after, heq, -, closed⟩
    · exact whole
    · exact absurd closed (shielded before after heq)

instance (separator : Char) (text : List Char) : Decidable (IsShielded separator text) :=
  decidable_of_iff (splitAt separator 0 text = [text]) isWhole_iff_isShielded

/-! ## Joined texts -/

section

variable {separator : Char}

/-- A separator after a text that ends outside parentheses cuts there. -/
theorem splitAt_append_cons (plain : depthAfter 0 separator = 0) {a : List Char}
    (closed : depthOf a = 0) (b : List Char) :
    splitAt separator 0 (a ++ separator :: b) = splitAt separator 0 a ++ splitAt separator 0 b := by
  revert closed
  apply splitAt_induct (P := fun text ps => depthOf text = 0 →
    splitAt separator 0 (text ++ separator :: b) = ps ++ splitAt separator 0 b)
  · intro text whole closed
    rw [whole.splitAt_append closed]
    rfl
  · intro first rest whole closed ih closed'
    rw [depthOf_append_cons plain closed] at closed'
    rw [List.append_assoc, List.cons_append, whole.splitAt_append closed, ih closed', List.cons_append]

theorem split_append_cons (plain : depthAfter 0 separator = 0) {a : List Char}
    (closed : depthOf a = 0) (b : List Char) :
    split separator (a ++ separator :: b) = split separator a ++ split separator b := by
  rw [split, splitAt_append_cons plain closed, List.map_append, List.filter_append]
  rfl

/-! ## Trimmed texts -/

/-- A blank in front of a text is in front of its first part. -/
theorem map_trim_consFirst {c : Char} (blank : Text.isBlank c = true) {ps : List (List Char)}
    (hne : ps ≠ []) : (consFirst c ps).map Text.trim = ps.map Text.trim := by
  cases ps with
  | nil => exact absurd rfl hne
  | cons p ps => simp [consFirst, Text.trim, Text.trimStart, blank]

/-- To trim a text at its start is to trim its first part there. -/
theorem map_trim_splitAt_trimStart (solid : Text.isBlank separator = false) (text : List Char) :
    (splitAt separator 0 (Text.trimStart text)).map Text.trim =
      (splitAt separator 0 text).map Text.trim := by
  induction text with
  | nil => rfl
  | cons c r ih =>
    cases blank : Text.isBlank c with
    | false => rw [Text.trimStart_eq_self (by simpa using blank)]
    | true =>
      have uncut : ¬(c = separator ∧ 0 = 0) := by
        rintro ⟨rfl, -⟩
        rw [solid] at blank
        cases blank
      have start : Text.trimStart (c :: r) = Text.trimStart r := by simp [Text.trimStart, blank]
      rw [start, ih, splitAt, if_neg uncut, depthAfter_of_blank blank,
        map_trim_consFirst blank (splitAt_ne_nil _ _ _)]

/-- What is trimmed at its end may have a character put in front of it. -/
theorem map_trimEnd_consFirst (c : Char) {ps qs : List (List Char)}
    (h : ps.map Text.trimEnd = qs.map Text.trimEnd) :
    (consFirst c ps).map Text.trimEnd = (consFirst c qs).map Text.trimEnd := by
  cases ps with
  | nil =>
    cases qs with
    | nil => rfl
    | cons q qs => simp at h
  | cons p ps =>
    cases qs with
    | nil => simp at h
    | cons q qs =>
      simp only [List.map_cons, List.cons.injEq] at h
      simp only [consFirst, List.map_cons, h.2, Text.trimEnd_cons, h.1]

/-- To trim a text at its end is to trim its last part there. -/
theorem map_trimEnd_splitAt_trimEnd (solid : Text.isBlank separator = false) (depth : Nat)
    (text : List Char) :
    (splitAt separator depth (Text.trimEnd text)).map Text.trimEnd =
      (splitAt separator depth text).map Text.trimEnd := by
  induction text generalizing depth with
  | nil => rfl
  | cons c r ih =>
    rw [Text.trimEnd_cons]
    split
    · -- nothing is left: the text has blanks only, and so has its one part
      rename_i h
      obtain ⟨nothing, blank⟩ := h
      have uncut : ¬(c = separator ∧ depth = 0) := by
        rintro ⟨rfl, -⟩
        rw [solid] at blank
        cases blank
      have rest := map_trimEnd_consFirst c (ih depth)
      rw [nothing] at rest
      rw [splitAt.eq_2, if_neg uncut, depthAfter_of_blank blank, ← rest]
      simp [splitAt, consFirst, Text.trimEnd, blank]
    · rw [splitAt, splitAt.eq_2]
      split
      · rw [List.map_cons, List.map_cons, ih]
      · exact map_trimEnd_consFirst c (ih _)

/-- A text need not be trimmed before it is split, since its parts are. -/
theorem map_trim_splitAt_trim (solid : Text.isBlank separator = false) (text : List Char) :
    (splitAt separator 0 (Text.trim text)).map Text.trim =
      (splitAt separator 0 text).map Text.trim := by
  have last (ps : List (List Char)) :
      ps.map Text.trim = (ps.map Text.trimEnd).map Text.trimStart := by
    rw [List.map_map]
    exact List.map_congr_left fun p _ => (Text.trimStart_trimEnd_comm p).symm
  rw [Text.trim, last, map_trimEnd_splitAt_trimEnd solid, ← last, map_trim_splitAt_trimStart solid]

theorem split_trim (solid : Text.isBlank separator = false) (text : List Char) :
    split separator (Text.trim text) = split separator text := by
  rw [split, map_trim_splitAt_trim solid, split]

/-- A whole text that is trimmed and not empty is the one part of itself. -/
theorem split_of_isWhole {text : List Char} (whole : IsWhole separator 0 text) :
    split separator text = if Text.trim text = [] then [] else [Text.trim text] := by
  rw [split, whole, List.map_singleton]
  by_cases h : Text.trim text = [] <;> simp [h]

end

/-! ## Joined scripts -/

/-- A comma after a script that ends outside parentheses puts its pieces before those of another. -/
theorem pieces_append_cons {a : List Char} (closed : depthOf a = 0) (b : List Char) :
    pieces (a ++ ',' :: b) = pieces a ++ pieces b := by
  rw [pieces, split_append_cons (by decide) closed, List.map_append]
  rfl

theorem ofPieces_append (first second : List (List Piece)) :
    Reading.ofPieces (first ++ second) =
      ⟨(Reading.ofPieces first).groups ++ (Reading.ofPieces second).groups,
        (Reading.ofPieces first).unknown ++ (Reading.ofPieces second).unknown⟩ := by
  simp [Reading.ofPieces]

/-- The group of some actions, if there are any. -/
def oneGroup (actions : List Action) : List Group :=
  if actions = [] then [] else [Group.of actions]

theorem ofPieces_singleton (group : List Piece) :
    Reading.ofPieces [group] =
      ⟨oneGroup (group.filterMap Piece.action?), group.filterMap Piece.unknown?⟩ := by
  by_cases h : group.filterMap Piece.action? = [] <;> simp [Reading.ofPieces, oneGroup, h]

/-- A script without a comma outside parentheses is one group, cut at the ampersands. -/
theorem readChars_of_isShielded {script : List Char} (shielded : IsShielded ',' script) :
    readChars script = Reading.ofPieces [(split '&' script).map Piece.ofText] := by
  rw [readChars, pieces, split_of_isWhole (isWhole_iff_isShielded.2 shielded)]
  split
  · -- a script of blanks has no pieces at all
    rename_i blank
    have nothing : split '&' script = [] := by
      rw [← split_trim (by decide), blank]
      rfl
    rw [nothing]
    rfl
  · rw [List.map_singleton, List.map_singleton, split_trim (by decide)]

/-- A script without a comma outside parentheses has one group, if any. -/
theorem groups_of_isShielded {script : String} (shielded : IsShielded ',' script.toList) :
    (read script).groups = oneGroup (read script).actions := by
  rw [read, readChars_of_isShielded shielded, actions_ofPieces, ofPieces_singleton,
    List.flatten_singleton]

/-- An ampersand joins two groups. -/
theorem isShielded_append_cons {a b : List Char} (closed : depthOf a = 0)
    (ha : IsShielded ',' a) (hb : IsShielded ',' b) : IsShielded ',' (a ++ '&' :: b) := by
  rw [← isWhole_iff_isShielded] at ha hb ⊢
  apply ha.append
  rw [show depthFrom 0 a = 0 from closed]
  exact isWhole_cons.2 ⟨by decide, hb⟩

/-- An ampersand after a group that ends outside parentheses puts its actions before those of another. -/
theorem readChars_append_cons {a b : List Char} (closed : depthOf a = 0)
    (ha : IsShielded ',' a) (hb : IsShielded ',' b) :
    readChars (a ++ '&' :: b) =
      ⟨oneGroup ((readChars a).actions ++ (readChars b).actions),
        (readChars a).unknown ++ (readChars b).unknown⟩ := by
  rw [readChars_of_isShielded (isShielded_append_cons closed ha hb), readChars_of_isShielded ha,
    readChars_of_isShielded hb, split_append_cons (by decide) closed, List.map_append,
    actions_ofPieces, actions_ofPieces, ofPieces_singleton, ofPieces_singleton, ofPieces_singleton,
    List.filterMap_append, List.filterMap_append, List.flatten_singleton, List.flatten_singleton]

/-- Whether no piece of a script is an action: it is empty, malformed or of an unknown name. -/
def IsIdle (script : String) : Prop :=
  ∀ piece ∈ (pieces script.toList).flatten, (Piece.ofText piece).action? = none

instance (script : String) : Decidable (IsIdle script) := inferInstanceAs (Decidable (∀ _ ∈ _, _))

theorem IsIdle.actions {script : String} (idle : IsIdle script) : (read script).actions = [] := by
  rw [actions_read]
  exact List.filterMap_eq_nil_iff.2 idle

theorem IsIdle.groups {script : String} (idle : IsIdle script) : (read script).groups = [] :=
  (groups_eq_nil_iff script).2 idle.actions

/--
Two scripts, the first of which ends outside parentheses. Joined by a comma they read as the groups of
the one and then those of the other. Joined by an ampersand they read, if neither has a comma outside
parentheses, as one group with the actions of the one and then those of the other, or as none
without actions. The unknown names are those of the one and then those of the other, too. A side
without actions leaves the groups of the other as they are, and malformed pieces leave nothing.
-/
theorem read_joined (a b : String) (closed : depthOf a.toList = 0) :
    let unknown := (read a).unknown ++ (read b).unknown
    let shielded := IsShielded ',' a.toList ∧ IsShielded ',' b.toList
    read (a ++ "," ++ b) = ⟨(read a).groups ++ (read b).groups, unknown⟩ ∧
    (shielded → read (a ++ "&" ++ b) =
      ⟨oneGroup ((read a).actions ++ (read b).actions), unknown⟩) ∧
    (IsIdle a → read (a ++ "," ++ b) = ⟨(read b).groups, unknown⟩ ∧
      (shielded → read (a ++ "&" ++ b) = ⟨(read b).groups, unknown⟩)) ∧
    (IsIdle b → read (a ++ "," ++ b) = ⟨(read a).groups, unknown⟩ ∧
      (shielded → read (a ++ "&" ++ b) = ⟨(read a).groups, unknown⟩)) ∧
    ∀ c ∈ [a, b], (∀ piece ∈ (pieces c.toList).flatten, Piece.ofText piece = .malformed) →
      IsIdle c ∧ (read c).unknown = [] := by
  intro unknown shielded
  have comma : read (a ++ "," ++ b) = ⟨(read a).groups ++ (read b).groups, unknown⟩ := by
    have joined : (a ++ "," ++ b).toList = a.toList ++ ',' :: b.toList := by simp
    rw [read, joined, readChars, pieces_append_cons closed, List.map_append, ofPieces_append]
    rfl
  have ampersand (h : shielded) : read (a ++ "&" ++ b) =
      ⟨oneGroup ((read a).actions ++ (read b).actions), unknown⟩ := by
    have joined : (a ++ "&" ++ b).toList = a.toList ++ '&' :: b.toList := by simp
    rw [read, joined, readChars_append_cons closed h.1 h.2]
    rfl
  refine ⟨comma, ampersand, fun idle => ⟨?_, fun h => ?_⟩, fun idle => ⟨?_, fun h => ?_⟩, ?_⟩
  · rw [comma, idle.groups, List.nil_append]
  · rw [ampersand h, idle.actions, List.nil_append, ← groups_of_isShielded h.2]
  · rw [comma, idle.groups, List.append_nil]
  · rw [ampersand h, idle.actions, List.append_nil, ← groups_of_isShielded h.1]
  · intro c _ malformed
    have silent : ∀ piece ∈ (pieces c.toList).flatten, (Piece.ofText piece).unknown? = none :=
      fun piece hpiece => by rw [malformed piece hpiece]; rfl
    refine ⟨fun piece hpiece => by rw [malformed piece hpiece]; rfl, ?_⟩
    rw [unknown_read]
    exact List.filterMap_eq_nil_iff.2 silent

/-- A stray parenthesis, an unknown name and an open parenthesis at the end stay on their own side. -/
theorem read_joined_strayParentheses :
    let a := "W(2)&)&moveby( 1,2 )"
    let b := " Fly& &e(a(b)"
    let actions := [Action.make .moveForward (some "2"), Action.make .moveBy (some "1,2")]
    let skill := Action.make .skill (some "a(b")
    (depthOf a.toList = 0 ∧ IsShielded ',' a.toList ∧ IsShielded ',' b.toList) ∧
      read (a ++ "," ++ b) = ⟨[Group.of actions, Group.of [skill]], ["fly"]⟩ ∧
      read (a ++ "&" ++ b) = ⟨[Group.of (actions ++ [skill])], ["fly"]⟩ ∧
      (IsIdle " ,)!" ∧ read (a ++ "," ++ " ,)!") = ⟨[Group.of actions], []⟩) := by
  intro a b actions skill
  have closed : depthOf a.toList = 0 := by decide +kernel
  have shielded : IsShielded ',' a.toList ∧ IsShielded ',' b.toList := by decide +kernel
  have first : read a = ⟨[Group.of actions], []⟩ := by decide +kernel
  have second : read b = ⟨[Group.of [skill]], ["fly"]⟩ := by decide +kernel
  have idle : IsIdle " ,)!" := by decide +kernel
  obtain ⟨comma, ampersand, -⟩ := read_joined a b closed
  obtain ⟨-, -, -, quiet, malformed⟩ := read_joined a " ,)!" closed
  obtain ⟨-, nameless⟩ := malformed " ,)!" (by simp) (by decide +kernel)
  refine ⟨⟨closed, shielded⟩, ?_, ?_, idle, ?_⟩
  · rw [comma, first, second]
    rfl
  · rw [ampersand shielded, first, second]
    rfl
  · rw [(quiet idle).1, first, nameless]
    rfl

end Combo.Script
