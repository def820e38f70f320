-- SUMMARY: What a script reads as is canonical, and canonical groups are read back from their text.
import Combo.Proofs.Script.Piece
import Combo.Script.Check

/-!
# Reading what was written

In the groups that a script reads as, only the very last action can leave a
parenthesis open: all pieces before it end outside parentheses. For such groups
the text is cut where it was put together, so reading it gives them back.
`read_format_canonical` puts both directions together.
-/

namespace Combo.Script

/-! ## Written groups -/

/-- Whether all actions of a row but the last leave nothing open. -/
def AreClosed (actions : List Action) : Prop :=
  actions.Pairwise fun a _ => ∀ p ∈ a.parameter, IsClosed p

/-- To hold of all but the last is to hold of each that has another one after it. -/
theorem forall_mem_dropLast_iff {α : Type} {P : α → Prop} {l : List α} :
    (∀ x ∈ l.dropLast, P x) ↔ l.Pairwise fun x _ => P x := by
  induction l with
  | nil => simp
  | cons x l ih =>
    cases l with
    | nil => simp
    | cons y l =>
      rw [List.dropLast_cons_cons, List.pairwise_cons, ← ih, List.forall_mem_cons]
      exact and_congr_left' ⟨fun hx _ _ => hx, fun hx => hx y List.mem_cons_self⟩

theorem toList_groupText (g : Group) :
    g.text.toList = ['&'].intercalate (g.actions.map (·.text.toList)) := by
  simp only [Group.text, String.toList_intercalate, List.map_map]
  rfl

theorem toList_format (groups : List Group) :
    (format groups).toList = [','].intercalate (groups.map (·.text.toList)) := by
  simp only [format, String.toList_intercalate, List.map_map]
  rfl

/-- A row of tight texts is tight. -/
theorem isTight_intercalate {glue : List Char} {texts : List (List Char)} (hne : texts ≠ [])
    (h : ∀ t ∈ texts, IsTight t) : IsTight (glue.intercalate texts) := by
  induction texts with
  | nil => exact absurd rfl hne
  | cons t rest ih =>
    have ht := h t List.mem_cons_self
    cases rest with
    | nil => rwa [List.intercalate_singleton]
    | cons u rest =>
      rw [List.intercalate_cons_cons, List.append_assoc]
      exact ht.append (ih (by simp) fun v hv => h v (List.mem_cons_of_mem _ hv)) glue

section

variable {g : Group} (canonical : ∀ a ∈ g.actions, IsCanonicalAction a)
include canonical

theorem pairwise_texts (closed : AreClosed g.actions) :
    (g.actions.map (·.text.toList)).Pairwise fun t _ => depthOf t = 0 := by
  rw [List.pairwise_map]
  exact closed.imp_of_mem fun ha _ closed => depthOf_text (canonical _ ha) closed

theorem isWhole_groupText (closed : AreClosed g.actions) : IsWhole ',' 0 g.text.toList := by
  rw [toList_groupText]
  apply isWhole_intercalate (isWhole_of_not_mem (by decide)) (by decide) _
    (pairwise_texts canonical closed)
  intro t ht
  obtain ⟨a, ha, rfl⟩ := List.mem_map.1 ht
  exact isWhole_text (.inl rfl) (canonical a ha)

theorem depthOf_groupText (closed : ∀ a ∈ g.actions, ∀ p ∈ a.parameter, IsClosed p) :
    depthOf g.text.toList = 0 := by
  rw [toList_groupText]
  apply depthOf_intercalate (by decide)
  intro t ht
  obtain ⟨a, ha, rfl⟩ := List.mem_map.1 ht
  exact depthOf_text (canonical a ha) (closed a ha)

/-- A written group is cut into its written actions. -/
theorem split_groupText (closed : AreClosed g.actions) :
    split '&' g.text.toList = g.actions.map (·.text.toList) := by
  rw [toList_groupText]
  apply split_intercalate _ (pairwise_texts canonical closed)
  · intro t ht
    obtain ⟨a, -, rfl⟩ := List.mem_map.1 ht
    exact ⟨(isTight_text a).trim, (isTight_text a).1⟩
  · intro t ht
    obtain ⟨a, ha, rfl⟩ := List.mem_map.1 ht
    exact isWhole_text (.inr rfl) (canonical a ha)

end

theorem isTight_groupText {g : Group} (hne : g.actions ≠ []) : IsTight g.text.toList := by
  rw [toList_groupText]
  apply isTight_intercalate (by simpa using hne)
  intro t ht
  obtain ⟨a, -, rfl⟩ := List.mem_map.1 ht
  exact isTight_text a

/-! ## Whole scripts -/

/-- The actions that are read are those of the pieces, in order. -/
theorem actions_ofPieces (pieces : List (List Piece)) :
    (Reading.ofPieces pieces).actions = pieces.flatten.filterMap Piece.action? := by
  induction pieces with
  | nil => rfl
  | cons group pieces ih =>
    rw [List.flatten_cons, List.filterMap_append, ← ih]
    simp only [Reading.actions, Reading.ofPieces, List.map_cons]
    cases group.filterMap Piece.action? with
    | nil => simp
    | cons a r => simp [Group.of]

/-- The actions of a script are those among its pieces, in order. -/
theorem actions_read (script : String) : (read script).actions =
    (pieces script.toList).flatten.filterMap fun piece => (Piece.ofText piece).action? := by
  have collected := actions_ofPieces ((pieces script.toList).map (·.map Piece.ofText))
  rw [← List.map_flatten, List.filterMap_map] at collected
  exact collected

/-- The unknown names of a script are those of its pieces, in order. -/
theorem unknown_read (script : String) : (read script).unknown =
    (pieces script.toList).flatten.filterMap fun piece => (Piece.ofText piece).unknown? := by
  rw [List.filterMap_flatten, ← List.flatMap_def]
  simp only [read, readChars, Reading.ofPieces, List.flatMap_map, List.filterMap_map]
  rfl

theorem groupOf_of_mem_groups {script : String} {g : Group} (h : g ∈ (read script).groups) :
    g.actions ≠ [] ∧ g = Group.of g.actions := by
  obtain ⟨actions, hactions, rfl⟩ := List.mem_map.1 h
  exact ⟨by simpa [Group.of] using (List.mem_filter.1 hactions).2, rfl⟩

/-- Every group that is read has actions, so that there are no groups without them. -/
theorem groups_eq_nil_iff (script : String) :
    (read script).groups = [] ↔ (read script).actions = [] := by
  refine ⟨fun h => by rw [Reading.actions, h, List.flatMap_nil], fun h => ?_⟩
  refine List.eq_nil_iff_forall_not_mem.2 fun g hg => (groupOf_of_mem_groups hg).1 ?_
  exact List.flatMap_eq_nil_iff.1 h g hg

/-- Whatever is read is canonical. -/
theorem isCanonical_read (script : String) : IsCanonical (read script).groups := by
  have hactions : (read script).groups.flatMap (·.actions) = _ := actions_read script
  refine ⟨fun g hg => (groupOf_of_mem_groups hg).1, ?_, ?_⟩
  · intro g hg a ha
    have hmem : a ∈ (read script).groups.flatMap (·.actions) := List.mem_flatMap.2 ⟨g, hg, ha⟩
    rw [hactions] at hmem
    obtain ⟨piece, -, hpiece⟩ := List.mem_filterMap.1 hmem
    exact isCanonicalAction_of_ofText hpiece
  · rw [forall_mem_dropLast_iff, hactions, List.pairwise_filterMap]
    apply (pairwise_flatten_pieces script.toList).imp
    intro piece _ closed a ha _ _
    exact isClosed_of_ofText ha closed

/-- Canonical groups are cut into their written actions. -/
theorem pieces_format {groups : List Group} (h : IsCanonical groups) :
    pieces (format groups).toList =
      groups.map fun g => g.actions.map (·.text.toList) := by
  obtain ⟨hne, canonical, closed⟩ := h
  obtain ⟨inner, outer⟩ := List.pairwise_flatMap.1 (forall_mem_dropLast_iff.1 closed)
  -- a group with another one after it leaves nothing open, for that one has an action
  have outer : groups.Pairwise fun g _ => ∀ a ∈ g.actions, ∀ p ∈ a.parameter, IsClosed p := by
    apply outer.imp_of_mem
    intro g g' _ hg' hall a ha
    obtain ⟨b, hb⟩ := List.exists_mem_of_ne_nil _ (hne g' hg')
    exact hall a ha b hb
  rw [pieces, toList_format, split_intercalate, List.map_map]
  · apply List.map_congr_left
    intro g hg
    exact split_groupText (canonical g hg) (inner g hg)
  · intro t ht
    obtain ⟨g, hg, rfl⟩ := List.mem_map.1 ht
    exact isWhole_groupText (canonical g hg) (inner g hg)
  · rw [List.pairwise_map]
    exact outer.imp_of_mem fun hg _ closed => depthOf_groupText (canonical _ hg) closed
  · intro t ht
    obtain ⟨g, hg, rfl⟩ := List.mem_map.1 ht
    exact ⟨(isTight_groupText (hne g hg)).trim, (isTight_groupText (hne g hg)).1⟩

/-- Canonical groups are read back from their text, with their estimates counted anew. -/
theorem read_format {groups : List Group} (h : IsCanonical groups) :
    read (format groups) = ⟨groups.map fun g => Group.of g.actions, []⟩ := by
  have hpieces : (pieces (format groups).toList).map (·.map Piece.ofText) =
      groups.map fun g => g.actions.map Piece.action := by
    rw [pieces_format h, List.map_map]
    apply List.map_congr_left
    intro g hg
    simp only [Function.comp_apply, List.map_map]
    exact List.map_congr_left fun a ha => ofText_text (h.2.1 g hg a ha)
  have hactions : ∀ actions : List Action,
      (actions.map Piece.action).filterMap Piece.action? = actions := by
    intro actions
    rw [List.filterMap_map]
    exact List.filterMap_some
  have hunknown : ∀ actions : List Action,
      (actions.map Piece.action).filterMap Piece.unknown? = [] := by
    intro actions
    rw [List.filterMap_map]
    exact List.filterMap_eq_nil_iff.2 fun _ _ => rfl
  have hkept : (groups.map (·.actions)).filter (· ≠ []) = groups.map (·.actions) := by
    apply List.filter_eq_self.2
    intro actions hmem
    obtain ⟨g, hg, rfl⟩ := List.mem_map.1 hmem
    simpa using h.1 g hg
  rw [read, readChars, hpieces, Reading.ofPieces]
  simp only [List.map_map, Function.comp_def, hactions, hunknown, List.flatMap_map]
  rw [hkept, List.map_map]
  simp [Function.comp_def, List.flatMap_eq_nil_iff]

/-- What is read is read back from its text as it was. -/
theorem read_format_read (script : String) :
    read (format (read script).groups) = ⟨(read script).groups, []⟩ := by
  have same : (read script).groups.map (fun g => Group.of g.actions) =
      (read script).groups.map id :=
    List.map_congr_left fun g hg => (groupOf_of_mem_groups hg).2.symm
  rw [read_format (isCanonical_read script), same, List.map_id]

/-- Groups that pass the check are what the script reads as, with no unknown names. -/
theorem read_of_check {max : Float} {script : String} {groups : List Group}
    (h : check max script = .ok groups) :
    read script = ⟨groups, []⟩ ∧ (read script).fault? max = none := by
  simp only [check] at h
  split at h
  · cases h
  · rename_i hfault
    cases h
    refine ⟨?_, hfault⟩
    have hunknown : (read script).unknown = [] := by
      unfold Reading.fault? at hfault
      split at hfault
      · cases hfault
      · assumption
    rw [← hunknown]

/--
Whatever a script reads as is canonical, and canonical groups are read back from their text: with
no unknown names, and with the same actions in the same groups. So the text of what was read stays
the same when it is read and written again, and a script that passes the check is written as one
that passes it with the same groups.
-/
theorem read_format_canonical :
    (∀ script, IsCanonical (read script).groups) ∧
    (∀ groups, IsCanonical groups → (read (format groups)).unknown = [] ∧
      (read (format groups)).groups.map (·.actions) = groups.map (·.actions)) ∧
    (∀ script, format (read (format (read script).groups)).groups = format (read script).groups) ∧
    (∀ max script groups, check max script = .ok groups → check max (format groups) = .ok groups) := by
  refine ⟨isCanonical_read, ?_, ?_, ?_⟩
  · intro groups h
    rw [read_format h]
    refine ⟨rfl, ?_⟩
    rw [List.map_map]
    rfl
  · intro script
    rw [read_format_read]
  · intro max script groups h
    obtain ⟨hread, hfault⟩ := read_of_check h
    have hgroups : (read script).groups = groups := by rw [hread]
    have hback := read_format_read script
    rw [hgroups, ← hread] at hback
    simp only [check, hback, hfault, hgroups]

/-- Groups with separators in their parameters, and a parenthesis left open in the last one. -/
def shieldedGroups : List Group :=
  [Group.of [Action.make .moveForward (some "2"), Action.make .moveBy (some "1,2")],
    Group.of [Action.make .skill (some "a(b&c")]]

/-- Separators in parameters are read back, and so is a script that passes the check. -/
theorem read_format_canonical_shielded :
    IsCanonical shieldedGroups ∧ format shieldedGroups = "w(2)&moveby(1,2),e(a(b&c)" ∧
      (read (format shieldedGroups)).groups.map (·.actions) = shieldedGroups.map (·.actions) ∧
      ∃ groups, check 10.0 " W( 2 )&(),, moveby(1, 2)" = .ok groups ∧
        format groups = "w(2),moveby(1, 2)" ∧ check 10.0 (format groups) = .ok groups := by
  have canonical : IsCanonical shieldedGroups := by decide +kernel
  obtain ⟨-, back, -, again⟩ := read_format_canonical
  have checked : check 10.0 " W( 2 )&(),, moveby(1, 2)" =
      .ok [Group.of [Action.make .moveForward (some "2")],
        Group.of [Action.make .moveBy (some "1, 2")]] := by rfl
  exact ⟨canonical, by decide +kernel, (back _ canonical).2, _, checked, by decide +kernel,
    again _ _ _ checked⟩

end Combo.Script
