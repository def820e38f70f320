-- SUMMARY: The verdict on a script is that on its pieces: it is accepted if each piece is, and refused for the fault of one of them.
import Mathlib.Data.List.Basic
import Combo.Proofs.Script.Compose

/-!
# The verdict on a script, piece by piece

A piece of a script has no separator outside its parentheses and no blank at an
end, so that taken alone as a script it is its own one piece (`pieces_of_mem`).
`check_alone` is the verdict on such a script. The verdict on a whole script is put
together from these, whatever stands between the pieces: the first unknown name
decides, or else the first piece that is refused, and malformed pieces decide
nothing.
-/

namespace Combo.Script

/-! ## Pieces taken alone -/

section

variable {separator : Char} {text : List Char}

/-- A text that is cut into no more than one part is whole. -/
theorem isWhole_of_length (h : (splitAt separator 0 text).length ≤ 1) : IsWhole separator 0 text := by
  rcases isWhole_or_cut separator 0 text with whole | ⟨a, b, rfl, whole, closed⟩
  · exact whole
  · have rest := List.length_pos_iff.2 (splitAt_ne_nil separator 0 b)
    rw [whole.splitAt_append closed, List.length_cons] at h
    omega

/-- A text stays whole when it is trimmed. -/
theorem IsWhole.trim (solid : Text.isBlank separator = false) (whole : IsWhole separator 0 text) :
    IsWhole separator 0 (Text.trim text) := by
  have parts := congrArg List.length (map_trim_splitAt_trim solid text)
  rw [List.length_map, List.length_map, whole, List.length_singleton] at parts
  exact isWhole_of_length parts.le

/-- The texts between separators are whole. -/
theorem isWhole_of_mem_splitAt : ∀ p ∈ splitAt separator 0 text, IsWhole separator 0 p := by
  apply splitAt_induct (P := fun _ ps => ∀ p ∈ ps, IsWhole separator 0 p)
  · intro text whole p hp
    rwa [List.mem_singleton.1 hp]
  · intro a b whole _ ih p hp
    rcases List.mem_cons.1 hp with rfl | hp
    · exact whole
    · exact ih p hp

/-- What is whole for one separator is cut at another one into whole texts. -/
theorem IsWhole.of_mem_splitAt {other : Char} (plain : depthAfter 0 other = 0)
    (whole : IsWhole separator 0 text) : ∀ p ∈ splitAt other 0 text, IsWhole separator 0 p := by
  revert whole
  apply splitAt_induct (P := fun text ps => IsWhole separator 0 text → ∀ p ∈ ps, IsWhole separator 0 p)
  · intro text _ whole p hp
    rwa [List.mem_singleton.1 hp]
  · intro a b _ closed ih whole p hp
    obtain ⟨first, rest⟩ := whole.of_append
    rcases List.mem_cons.1 hp with rfl | hp
    · exact first
    · rw [show depthFrom 0 a = 0 from closed] at rest
      refine ih ?_ p hp
      simpa [plain] using (isWhole_cons.1 rest).2

/-- What a text is split into are trimmed texts between its separators, and not empty. -/
theorem exists_of_mem_split {p : List Char} (h : p ∈ split separator text) :
    p ≠ [] ∧ ∃ q ∈ splitAt separator 0 text, p = Text.trim q := by
  obtain ⟨trimmed, hne⟩ := List.mem_filter.1 h
  obtain ⟨q, hq, rfl⟩ := List.mem_map.1 trimmed
  exact ⟨by simpa using hne, q, hq, rfl⟩

end

/-- A piece of a script is, taken alone, the one piece of itself. -/
theorem pieces_of_mem {script piece : List Char} (h : piece ∈ (pieces script).flatten) :
    pieces piece = [[piece]] := by
  obtain ⟨group, hgroup, hpiece⟩ := List.mem_flatten.1 h
  obtain ⟨g, hg, rfl⟩ := List.mem_map.1 hgroup
  obtain ⟨-, g, hcut, rfl⟩ := exists_of_mem_split hg
  obtain ⟨hne, p, hp, rfl⟩ := exists_of_mem_split hpiece
  have commas : IsWhole ',' 0 p :=
    ((isWhole_of_mem_splitAt g hcut).trim (by decide)).of_mem_splitAt (by decide) p hp
  have one {separator : Char} (solid : Text.isBlank separator = false)
      (whole : IsWhole separator 0 p) : split separator (Text.trim p) = [Text.trim p] := by
    rw [split_trim solid, split_of_isWhole whole, if_neg hne]
  rw [pieces, one (by decide) commas, List.map_singleton,
    one (by decide) (isWhole_of_mem_splitAt p hp)]

/-! ## Verdicts on pieces -/

/-- Whether a piece matches the grammar of an action. -/
def matchesGrammar (piece : List Char) : Bool := (nameAndParameter? piece).isSome

/-- Whether a piece matches the grammar with a name that is no token. -/
def isUnsupported (piece : List Char) : Bool :=
  (nameAndParameter? piece).any fun (name, _) =>
    (Kind.ofToken? (String.ofList (name.map Char.toLower))).isNone

/-- The actions of a piece that is accepted as a script of its own. -/
def actionsAlone (max : Float) (piece : List Char) : List Action :=
  match check max (String.ofList piece) with
  | .ok groups => groups.flatMap (·.actions)
  | .error _ => []

/-- What is wrong with a piece, if anything; nothing is wrong with what matches no grammar. -/
def Piece.fault? (max : Float) : Piece → Option Fault
  | .action a => actionFault? max a
  | .unknown name => some (.ofUnknown name)
  | .malformed => none

theorem ofText_eq_malformed_iff {piece : List Char} :
    Piece.ofText piece = .malformed ↔ matchesGrammar piece = false := by
  unfold Piece.ofText matchesGrammar
  split
  · rename_i h
    simp [h]
  · rename_i name parameter h
    simp only [h]
    split <;> simp

theorem isUnsupported_eq (piece : List Char) :
    isUnsupported piece = (Piece.ofText piece).unknown?.isSome := by
  unfold Piece.ofText isUnsupported
  split
  · rename_i h
    simp [h, Piece.unknown?]
  · rename_i name parameter h
    simp only [h]
    split
    · rename_i hkind
      simp [hkind, Piece.unknown?]
    · rename_i hkind
      simp [hkind, Piece.unknown?]

/-- A name that is no token is a fault. -/
theorem fault?_of_isUnsupported {piece : List Char} (h : isUnsupported piece = true) (max : Float) :
    ∃ fault, (Piece.ofText piece).fault? max = some fault := by
  rw [isUnsupported_eq] at h
  cases hpiece : Piece.ofText piece with
  | unknown name => exact ⟨_, rfl⟩
  | action a => simp [hpiece, Piece.unknown?] at h
  | malformed => simp [hpiece, Piece.unknown?] at h

/-- The verdict on a piece that matches the grammar and is taken alone. -/
theorem check_alone {piece : List Char} (alone : pieces piece = [[piece]])
    (matching : matchesGrammar piece = true) (max : Float) :
    check max (String.ofList piece) =
      match (Piece.ofText piece).fault? max with
      | some fault => .error fault
      | none => .ok [Group.of (Piece.ofText piece).action?.toList] := by
  have one : read (String.ofList piece) = Reading.ofPieces [[Piece.ofText piece]] := by
    rw [read, String.toList_ofList, readChars, alone]
    rfl
  rw [check, one, ofPieces_singleton]
  cases h : Piece.ofText piece with
  | malformed =>
      rw [ofText_eq_malformed_iff.1 h] at matching
      cases matching
  | unknown name => rfl
  | action a =>
      simp only [Piece.fault?, Reading.fault?, Reading.actions, oneGroup, Group.of, Piece.action?,
        Piece.unknown?, List.filterMap_cons, List.filterMap_nil]
      cases hfault : actionFault? max a <;> simp [hfault]

/-! ## Verdicts on scripts -/

/-- The pieces of a script that match the grammar of an action, in order. -/
def matchingPieces (script : String) : List (List Char) :=
  (pieces script.toList).flatten.filter matchesGrammar

section

variable {script : String} {max : Float} {piece : List Char}

theorem alone_of_mem_matchingPieces (h : piece ∈ matchingPieces script) (max : Float) :
    check max (String.ofList piece) =
      match (Piece.ofText piece).fault? max with
      | some fault => .error fault
      | none => .ok [Group.of (Piece.ofText piece).action?.toList] := by
  obtain ⟨hpiece, matching⟩ := List.mem_filter.1 h
  exact check_alone (pieces_of_mem hpiece) matching max

/-- What malformed pieces do not contribute to can be read off the others. -/
theorem filterMap_matchingPieces {α : Type} {f : Piece → Option α} (h : f .malformed = none)
    (script : String) :
    (pieces script.toList).flatten.filterMap (fun piece => f (Piece.ofText piece)) =
      (matchingPieces script).filterMap fun piece => f (Piece.ofText piece) := by
  rw [matchingPieces, List.filterMap_filter]
  refine List.filterMap_congr fun piece _ => ?_
  split
  · rfl
  · rename_i other
    rw [ofText_eq_malformed_iff.2 (by simpa using other), h]

/-- The first unknown name is the fault of a script. -/
theorem fault?_of_unsupported (h : (matchingPieces script).find? isUnsupported = some piece)
    (max : Float) : (read script).fault? max = (Piece.ofText piece).fault? max := by
  obtain ⟨unsupported, before, after, whole, supported⟩ := List.find?_eq_some_iff_append.1 h
  rw [isUnsupported_eq] at unsupported
  obtain ⟨name, hname⟩ := Option.isSome_iff_exists.1 unsupported
  have nothing : before.filterMap (fun p => (Piece.ofText p).unknown?) = [] := by
    refine List.filterMap_eq_nil_iff.2 fun p hp => ?_
    simpa [isUnsupported_eq] using supported p hp
  have unknown := (unknown_read script).trans (filterMap_matchingPieces rfl script)
  rw [whole, List.filterMap_append, nothing, List.nil_append, List.filterMap_cons, hname] at unknown
  rw [Reading.fault?, unknown]
  cases hpiece : Piece.ofText piece <;> simp_all [Piece.unknown?, Piece.fault?]

/-- Pieces that are actions are those that are collected from them. -/
theorem map_action_filterMap {ps : List Piece} (h : ∀ p ∈ ps, ∃ a, p = .action a) :
    (ps.filterMap Piece.action?).map .action = ps := by
  induction ps with
  | nil => rfl
  | cons p ps ih =>
    obtain ⟨a, rfl⟩ := h p List.mem_cons_self
    simp only [List.filterMap_cons, Piece.action?, List.map_cons]
    rw [ih fun p hp => h p (List.mem_cons_of_mem _ hp)]

/-- Without unknown names the fault of a script is that of its first piece that has one. -/
theorem fault?_of_supported (h : (matchingPieces script).find? isUnsupported = none) (max : Float) :
    (read script).fault? max =
      if matchingPieces script = [] then some .emptyScript
      else (matchingPieces script).findSome? fun p => (Piece.ofText p).fault? max := by
  have supported : ∀ p ∈ matchingPieces script, (Piece.ofText p).unknown? = none := fun p hp => by
    simpa [isUnsupported_eq] using List.find?_eq_none.1 h p hp
  have unknown : (read script).unknown = [] := by
    rw [unknown_read, filterMap_matchingPieces rfl]
    exact List.filterMap_eq_nil_iff.2 supported
  -- what matches the grammar and has a known name is an action
  have action : ∀ p ∈ (matchingPieces script).map Piece.ofText, ∃ a, p = .action a := by
    intro p hp
    obtain ⟨text, htext, rfl⟩ := List.mem_map.1 hp
    cases hpiece : Piece.ofText text with
    | action a => exact ⟨a, rfl⟩
    | unknown name => simpa [hpiece, Piece.unknown?] using supported text htext
    | malformed =>
        have matching := (List.mem_filter.1 htext).2
        rw [ofText_eq_malformed_iff.1 hpiece] at matching
        cases matching
  have actions : (read script).actions.map .action = (matchingPieces script).map Piece.ofText := by
    rw [actions_read, filterMap_matchingPieces rfl, ← map_action_filterMap action, List.filterMap_map]
    rfl
  have empty : (read script).groups = [] ↔ matchingPieces script = [] := by
    rw [groups_eq_nil_iff, ← List.map_eq_nil_iff (f := Piece.action), actions, List.map_eq_nil_iff]
  have first : (matchingPieces script).findSome? (fun p => (Piece.ofText p).fault? max) =
      (read script).actions.findSome? (actionFault? max) := by
    have mapped := List.findSome?_map (p := Piece.fault? max) (f := Piece.ofText)
      (l := matchingPieces script)
    rw [← actions, List.findSome?_map] at mapped
    exact mapped.symm
  rw [first, Reading.fault?, unknown]
  cases hgroups : (read script).groups with
  | nil => rw [if_pos (empty.1 hgroups)]
  | cons g groups => rw [if_neg (mt empty.2 (by simp [hgroups]))]

/-- A script is accepted just if it has no fault. -/
theorem isOk_check (max : Float) (script : String) :
    (check max script).isOk = ((read script).fault? max).isNone := by
  unfold check
  cases h : (read script).fault? max <;> simp [h, Except.isOk, Except.toBool]

theorem check_of_fault? {fault : Fault} (h : (read script).fault? max = some fault) :
    check max script = .error fault := by
  simp only [check, h]

/-! ## Piece by piece -/

/-- A matching piece is accepted alone just if nothing is wrong with it. -/
theorem isOk_alone (h : piece ∈ matchingPieces script) (max : Float) :
    (check max (String.ofList piece)).isOk = ((Piece.ofText piece).fault? max).isNone := by
  rw [alone_of_mem_matchingPieces h]
  cases (Piece.ofText piece).fault? max <;> rfl

/-- What is wrong with a matching piece is its fault alone. -/
theorem alone_of_fault? {fault : Fault} (h : piece ∈ matchingPieces script)
    (hfault : (Piece.ofText piece).fault? max = some fault) :
    check max (String.ofList piece) = .error fault := by
  rw [alone_of_mem_matchingPieces h, hfault]

/-- A matching piece that is refused alone has something wrong with it. -/
theorem exists_fault?_of_refused (h : piece ∈ matchingPieces script)
    (refused : (check max (String.ofList piece)).isOk = false) :
    ∃ fault, (Piece.ofText piece).fault? max = some fault := by
  rw [isOk_alone h, Option.isNone_eq_false_iff] at refused
  exact Option.isSome_iff_exists.1 refused

/-- A script is accepted just if it has matching pieces and each of them is accepted alone. -/
theorem isOk_check_iff (max : Float) (script : String) : (check max script).isOk = true ↔
    matchingPieces script ≠ [] ∧
      ∀ piece ∈ matchingPieces script, (check max (String.ofList piece)).isOk = true := by
  rw [isOk_check]
  cases hfind : (matchingPieces script).find? isUnsupported with
  | some piece =>
      have hpiece := List.mem_of_find?_eq_some hfind
      obtain ⟨fault, hfault⟩ := fault?_of_isUnsupported (List.find?_some hfind) max
      rw [fault?_of_unsupported hfind, hfault]
      refine ⟨fun h => by simp at h, fun h => ?_⟩
      rw [← hfault, ← isOk_alone hpiece]
      exact h.2 piece hpiece
  | none =>
      rw [fault?_of_supported hfind]
      by_cases nothing : matchingPieces script = []
      · simp [nothing]
      · rw [if_neg nothing, Option.isNone_iff_eq_none, List.findSome?_eq_none_iff]
        refine ⟨fun h => ⟨nothing, fun piece hpiece => ?_⟩, fun h piece hpiece => ?_⟩
        · rw [isOk_alone hpiece, h piece hpiece]
          rfl
        · rw [← Option.isNone_iff_eq_none, ← isOk_alone hpiece]
          exact h.2 piece hpiece

/-- The actions of an accepted script are those that its matching pieces have alone. -/
theorem actions_of_check {groups : List Group} (h : check max script = .ok groups) :
    groups.flatMap (·.actions) = (matchingPieces script).flatMap (actionsAlone max) := by
  have each := ((isOk_check_iff max script).1 (by rw [h]; rfl)).2
  calc groups.flatMap (·.actions)
      = (read script).actions := by rw [(read_of_check h).1, Reading.actions]
    _ = (matchingPieces script).filterMap fun piece => (Piece.ofText piece).action? :=
        (actions_read script).trans (filterMap_matchingPieces rfl script)
    _ = (matchingPieces script).flatMap (actionsAlone max) := by
        rw [List.filterMap_eq_flatMap_toList]
        refine List.flatMap_congr fun piece hpiece => ?_
        have faultless := each piece hpiece
        rw [isOk_alone hpiece, Option.isNone_iff_eq_none] at faultless
        simp [actionsAlone, alone_of_mem_matchingPieces hpiece, faultless, Group.of]

/-- Without unknown names a script has the fault of the first matching piece that is refused. -/
theorem check_of_first_refused {fault : Fault}
    (known : (matchingPieces script).find? isUnsupported = none)
    (hfind : (matchingPieces script).find?
      (fun piece => !(check max (String.ofList piece)).isOk) = some piece)
    (hfault : (Piece.ofText piece).fault? max = some fault) : check max script = .error fault := by
  obtain ⟨-, before, after, whole, earlier⟩ := List.find?_eq_some_iff_append.1 hfind
  have first : (matchingPieces script).findSome? (fun p => (Piece.ofText p).fault? max) =
      some fault := by
    refine List.findSome?_eq_some_iff.2 ⟨before, piece, after, whole, hfault, fun p hp => ?_⟩
    have hmem : p ∈ matchingPieces script := whole ▸ List.mem_append_left _ hp
    rw [← Option.isNone_iff_eq_none, ← isOk_alone hmem]
    simpa using earlier p hp
  have nonempty := List.ne_nil_of_mem (List.mem_of_find?_eq_some hfind)
  exact check_of_fault? (by rw [fault?_of_supported known, if_neg nonempty, first])

end

/--
A script is accepted just if one of its pieces matches the grammar and all that do are accepted when
each is taken alone as a script, and then its actions are those of these pieces, in order. If the
name of a matching piece is no token, the fault of the script is that of the first such piece alone;
else, if a piece is refused, it is that of the first matching piece that is refused alone; and
without a matching piece the script is empty. What does not match decides nothing.
-/
theorem check_by_pieces (max : Float) (script : String) :
    let alone : List Char → Except Fault (List Group) := fun piece =>
      check max (String.ofList piece)
    let matching := matchingPieces script
    ((check max script).isOk = true ↔
      matching ≠ [] ∧ ∀ piece ∈ matching, (alone piece).isOk = true) ∧
    (∀ groups, check max script = .ok groups →
      groups.flatMap (·.actions) = matching.flatMap (actionsAlone max)) ∧
    (∀ piece, matching.find? isUnsupported = some piece →
      ∃ fault, alone piece = .error fault ∧ check max script = .error fault) ∧
    (matching.find? isUnsupported = none →
      ∀ piece, matching.find? (fun piece => !(alone piece).isOk) = some piece →
        ∃ fault, alone piece = .error fault ∧ check max script = .error fault) ∧
    (matching = [] → check max script = .error .emptyScript) := by
  intro alone matching
  refine ⟨isOk_check_iff max script, fun groups => actions_of_check, ?_, ?_, ?_⟩
  · intro piece hfind
    obtain ⟨fault, hfault⟩ := fault?_of_isUnsupported (List.find?_some hfind) max
    exact ⟨fault, alone_of_fault? (List.mem_of_find?_eq_some hfind) hfault,
      check_of_fault? ((fault?_of_unsupported hfind max).trans hfault)⟩
  · intro known piece hfind
    have hpiece := List.mem_of_find?_eq_some hfind
    obtain ⟨fault, hfault⟩ := exists_fault?_of_refused hpiece
      (show (alone piece).isOk = false by simpa using List.find?_some hfind)
    exact ⟨fault, alone_of_fault? hpiece hfault, check_of_first_refused known hfind hfault⟩
  · intro nothing
    have none_left : matching.find? isUnsupported = none := by rw [nothing]; rfl
    exact check_of_fault? ((fault?_of_supported none_left max).trans (if_pos nothing))

/-- An unknown name decides before a slot out of range, and that before a walk that is too long. -/
theorem check_by_pieces_badSlot :
    let refused := fun piece => !(check 10.0 (String.ofList piece)).isOk
    (check 10.0 " w(1)&!!, e(hold)" = .ok
        [Group.of [Action.make .moveForward (some "1")], Group.of [Action.make .skill (some "hold")]] ∧
      (matchingPieces " w(1)&!!, e(hold)").flatMap (actionsAlone 10.0) =
        [Action.make .moveForward (some "1"), Action.make .skill (some "hold")]) ∧
      ((matchingPieces "w&!!,sw(9),w(99)&Fly").find? isUnsupported = some "Fly".toList ∧
        check 10.0 "w&!!,sw(9),w(99)&Fly" = .error (.unsupportedType "fly")) ∧
      ((matchingPieces "w&!!,sw(9),w(99)").find? isUnsupported = none ∧
        (matchingPieces "w&!!,sw(9),w(99)").find? refused = some "sw(9)".toList ∧
        check 10.0 "w&!!,sw(9),w(99)" =
          .error (.invalidParameter "sw(9)" "expected a character index from 1 to 4")) := by
  intro refused
  have accepted : check 10.0 " w(1)&!!, e(hold)" = .ok
      [Group.of [Action.make .moveForward (some "1")], Group.of [Action.make .skill (some "hold")]] := by
    rfl
  have unknown : (matchingPieces "w&!!,sw(9),w(99)&Fly").find? isUnsupported = some "Fly".toList := by
    decide +kernel
  have known : (matchingPieces "w&!!,sw(9),w(99)").find? isUnsupported = none := by decide +kernel
  have slot : (matchingPieces "w&!!,sw(9),w(99)").find? refused = some "sw(9)".toList := by
    decide +kernel
  obtain ⟨-, actions, -⟩ := check_by_pieces 10.0 " w(1)&!!, e(hold)"
  obtain ⟨-, -, unsupported, -⟩ := check_by_pieces 10.0 "w&!!,sw(9),w(99)&Fly"
  obtain ⟨-, -, -, supported, -⟩ := check_by_pieces 10.0 "w&!!,sw(9),w(99)"
  obtain ⟨_, name, script⟩ := unsupported _ unknown
  obtain ⟨_, reason, script'⟩ := supported known _ slot
  have name_alone : check 10.0 (String.ofList "Fly".toList) = .error (.unsupportedType "fly") := by
    decide +kernel
  have slot_alone : check 10.0 (String.ofList "sw(9)".toList) =
      .error (.invalidParameter "sw(9)" "expected a character index from 1 to 4") := by
    decide +kernel
  exact ⟨⟨accepted, (actions _ accepted).symm⟩,
    ⟨unknown, script.trans (name.symm.trans name_alone)⟩,
    known, slot, script'.trans (reason.symm.trans slot_alone)⟩

end Combo.Script
