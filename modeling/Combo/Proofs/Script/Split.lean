-- SUMMARY: How the depth of parentheses decides where a text is cut, and what a row of texts is cut into.
import Combo.Script.Pieces

/-!
# Cutting texts at separators

A text is whole when no separator stands outside its parentheses; `isWhole_or_cut`
finds the first separator of one that is not. `splitAt_induct` turns this into an
induction over the cuts of a text. All texts between separators end outside
parentheses, except perhaps the last, and whole texts that do so are what their
row is cut into.
-/

namespace Combo.Script

/-- The depth of parentheses after a whole text that begins at a given depth. -/
def depthFrom (depth : Nat) (text : List Char) : Nat := text.foldl depthAfter depth

/-- Whether a text that begins at a given depth has no separator outside parentheses. -/
def IsWhole (separator : Char) (depth : Nat) (text : List Char) : Prop :=
  splitAt separator depth text = [text]

/-! ## Depth -/

@[simp] theorem depthFrom_nil (depth : Nat) : depthFrom depth [] = depth := rfl

@[simp] theorem depthFrom_cons (depth : Nat) (c : Char) (r : List Char) :
    depthFrom depth (c :: r) = depthFrom (depthAfter depth c) r := rfl

@[simp] theorem depthFrom_append (depth : Nat) (a b : List Char) :
    depthFrom depth (a ++ b) = depthFrom (depthFrom depth a) b := List.foldl_append

theorem depthAfter_of_plain {c : Char} (hopen : c ≠ '(') (hclose : c ≠ ')') (depth : Nat) :
    depthAfter depth c = depth := by
  simp [depthAfter, hopen, hclose]

/-- A text without parentheses leaves the depth as it is. -/
theorem depthFrom_of_plain {text : List Char} (h : ∀ c ∈ text, c ≠ '(' ∧ c ≠ ')') (depth : Nat) :
    depthFrom depth text = depth := by
  induction text with
  | nil => rfl
  | cons c r ih =>
    obtain ⟨hopen, hclose⟩ := h c List.mem_cons_self
    rw [depthFrom_cons, depthAfter_of_plain hopen hclose]
    exact ih fun d hd => h d (List.mem_cons_of_mem _ hd)

/-- A text without a closing parenthesis deepens by its opening ones. -/
theorem depthFrom_of_unclosed {text : List Char} (h : ')' ∉ text) (depth : Nat) :
    depthFrom depth text = depth + text.count '(' := by
  induction text generalizing depth with
  | nil => rfl
  | cons c r ih =>
    have hc : c ≠ ')' := fun hc => h (hc ▸ List.mem_cons_self)
    have hr : ')' ∉ r := fun hr => h (List.mem_cons_of_mem _ hr)
    by_cases hopen : c = '('
    · subst hopen
      rw [depthFrom_cons, ih hr, List.count_cons_self]
      simp only [depthAfter, if_true]
      omega
    · rw [depthFrom_cons, depthAfter_of_plain hopen hc, ih hr, List.count_cons_of_ne hopen]

theorem isBlank_paren : Text.isBlank '(' = false ∧ Text.isBlank ')' = false := by decide

theorem depthAfter_of_blank {c : Char} (h : Text.isBlank c = true) (depth : Nat) :
    depthAfter depth c = depth := by
  apply depthAfter_of_plain
  · rintro rfl
    rw [isBlank_paren.1] at h
    cases h
  · rintro rfl
    rw [isBlank_paren.2] at h
    cases h

theorem depthFrom_trimStart (depth : Nat) (text : List Char) :
    depthFrom depth (Text.trimStart text) = depthFrom depth text := by
  induction text with
  | nil => rfl
  | cons c r ih =>
    by_cases h : Text.isBlank c = true
    · rw [depthFrom_cons, depthAfter_of_blank h, ← ih]
      simp [Text.trimStart, h]
    · simp [Text.trimStart, h]

theorem depthFrom_trimEnd (depth : Nat) (text : List Char) :
    depthFrom depth (Text.trimEnd text) = depthFrom depth text := by
  induction text generalizing depth with
  | nil => rfl
  | cons c r ih =>
    rw [depthFrom_cons, ← ih]
    simp only [Text.trimEnd]
    cases hr : Text.trimEnd r with
    | nil =>
      by_cases h : Text.isBlank c = true
      · simp [h, depthAfter_of_blank h]
      · simp [h]
    | cons d r' => rfl

/-- Trimming does not change the depth of a text. -/
@[simp] theorem depthOf_trim (text : List Char) : depthOf (Text.trim text) = depthOf text := by
  change depthFrom 0 _ = depthFrom 0 text
  rw [Text.trim, depthFrom_trimEnd, depthFrom_trimStart]

/-! ## Whole texts -/

section

variable {separator : Char} {depth : Nat}

theorem isWhole_nil : IsWhole separator depth [] := rfl

theorem isWhole_cons {c : Char} {r : List Char} :
    IsWhole separator depth (c :: r) ↔
      ¬(c = separator ∧ depth = 0) ∧ IsWhole separator (depthAfter depth c) r := by
  unfold IsWhole
  rw [splitAt]
  split
  · rename_i h
    simp [h]
  · rename_i h
    have := splitAt_ne_nil separator (depthAfter depth c) r
    cases hs : splitAt separator (depthAfter depth c) r with
    | nil => exact absurd hs this
    | cons p ps => simp [consFirst, h]

/-- What goes on where a whole text ends, and is whole, makes one whole text with it. -/
theorem IsWhole.append {a b : List Char} (ha : IsWhole separator depth a)
    (hb : IsWhole separator (depthFrom depth a) b) : IsWhole separator depth (a ++ b) := by
  induction a generalizing depth with
  | nil => exact hb
  | cons c r ih =>
    obtain ⟨hc, hr⟩ := isWhole_cons.1 ha
    exact isWhole_cons.2 ⟨hc, ih hr hb⟩

/-- What is whole as a row of two texts has whole parts. -/
theorem IsWhole.of_append {a b : List Char} (h : IsWhole separator depth (a ++ b)) :
    IsWhole separator depth a ∧ IsWhole separator (depthFrom depth a) b := by
  induction a generalizing depth with
  | nil => exact ⟨isWhole_nil, h⟩
  | cons c r ih =>
    obtain ⟨hc, hr⟩ := isWhole_cons.1 h
    obtain ⟨first, second⟩ := ih hr
    exact ⟨isWhole_cons.2 ⟨hc, first⟩, second⟩

/-- A text without the separator is whole. -/
theorem isWhole_of_not_mem {text : List Char} (h : separator ∉ text) :
    IsWhole separator depth text := by
  induction text generalizing depth with
  | nil => exact isWhole_nil
  | cons c r ih =>
    refine isWhole_cons.2 ⟨fun hc => h (hc.1 ▸ List.mem_cons_self), ?_⟩
    exact ih fun hr => h (List.mem_cons_of_mem _ hr)

/-- A text without a closing parenthesis is whole inside parentheses. -/
theorem isWhole_of_unclosed {text : List Char} (h : ')' ∉ text) :
    IsWhole separator (depth + 1) text := by
  induction text generalizing depth with
  | nil => exact isWhole_nil
  | cons c r ih =>
    have hc : c ≠ ')' := fun hc => h (hc ▸ List.mem_cons_self)
    have hr : ')' ∉ r := fun hr => h (List.mem_cons_of_mem _ hr)
    refine isWhole_cons.2 ⟨fun hcut => Nat.succ_ne_zero _ hcut.2, ?_⟩
    by_cases hopen : c = '('
    · simp only [depthAfter, hopen, if_true]
      exact ih hr
    · rw [depthAfter_of_plain hopen hc]
      exact ih hr

/-- A whole text that ends outside parentheses is cut off by a separator. -/
theorem IsWhole.splitAt_append {a : List Char} (ha : IsWhole separator depth a)
    (closed : depthFrom depth a = 0) (b : List Char) :
    splitAt separator depth (a ++ separator :: b) = a :: splitAt separator 0 b := by
  induction a generalizing depth with
  | nil =>
    cases closed
    simp [splitAt]
  | cons c r ih =>
    obtain ⟨hc, hr⟩ := isWhole_cons.1 ha
    rw [List.cons_append, splitAt, if_neg hc, ih hr closed]
    rfl

/-- A text is whole, or it has a first separator outside parentheses. -/
theorem isWhole_or_cut (separator : Char) (depth : Nat) (text : List Char) :
    IsWhole separator depth text ∨ ∃ a b, text = a ++ separator :: b ∧
      IsWhole separator depth a ∧ depthFrom depth a = 0 := by
  induction text generalizing depth with
  | nil => exact .inl isWhole_nil
  | cons c r ih =>
    by_cases hc : c = separator ∧ depth = 0
    · obtain ⟨rfl, rfl⟩ := hc
      exact .inr ⟨[], r, rfl, isWhole_nil, rfl⟩
    · rcases ih (depthAfter depth c) with whole | ⟨a, b, rfl, whole, closed⟩
      · exact .inl (isWhole_cons.2 ⟨hc, whole⟩)
      · exact .inr ⟨c :: a, b, rfl, isWhole_cons.2 ⟨hc, whole⟩, closed⟩

/-- To show something of the cuts of every text, show it of whole texts and of one more cut. -/
theorem splitAt_induct {P : List Char → List (List Char) → Prop}
    (whole : ∀ text, IsWhole separator 0 text → P text [text])
    (cut : ∀ a b, IsWhole separator 0 a → depthOf a = 0 → P b (splitAt separator 0 b) →
      P (a ++ separator :: b) (a :: splitAt separator 0 b))
    (text : List Char) : P text (splitAt separator 0 text) := by
  induction h : text.length using Nat.strongRecOn generalizing text with
  | ind n ih =>
    rcases isWhole_or_cut separator 0 text with hw | ⟨a, b, rfl, hw, closed⟩
    · rw [hw]
      exact whole text hw
    · rw [hw.splitAt_append closed]
      apply cut a b hw closed
      exact ih b.length (by subst h; simp; omega) b rfl

end

/-! ## The texts a text is cut into -/

variable {separator : Char}

/-- All texts between separators but the last end outside parentheses. -/
theorem pairwise_splitAt (text : List Char) :
    (splitAt separator 0 text).Pairwise fun p _ => depthOf p = 0 := by
  apply splitAt_induct (P := fun _ ps => ps.Pairwise fun p _ => depthOf p = 0)
  · intro text _
    exact List.pairwise_singleton _ _
  · intro a b _ closed ih
    exact List.pairwise_cons.2 ⟨fun _ _ => closed, ih⟩

/-- After a text that ends outside parentheses, the depth goes on as from the start. -/
theorem depthOf_append_cons (plain : depthAfter 0 separator = 0) {a : List Char}
    (closed : depthOf a = 0) (b : List Char) : depthOf (a ++ separator :: b) = depthOf b := by
  change depthFrom 0 _ = depthFrom 0 b
  rw [depthFrom_append, show depthFrom 0 a = 0 from closed, depthFrom_cons, plain]

/-- All texts between the separators of a text that ends outside parentheses do so. -/
theorem depthOf_of_mem_splitAt (hsep : separator ≠ '(') {text : List Char}
    (closed : depthOf text = 0) : ∀ p ∈ splitAt separator 0 text, depthOf p = 0 := by
  revert closed
  apply splitAt_induct (P := fun text ps => depthOf text = 0 → ∀ p ∈ ps, depthOf p = 0)
  · intro text _ closed p hp
    rwa [List.mem_singleton.1 hp]
  · intro a b _ ha ih closed p hp
    rcases List.mem_cons.1 hp with rfl | hp
    · exact ha
    · have plain : depthAfter 0 separator = 0 := by simp [depthAfter, hsep]
      exact ih ((depthOf_append_cons plain ha b).symm.trans closed) p hp

theorem pairwise_split (text : List Char) :
    (split separator text).Pairwise fun p _ => depthOf p = 0 := by
  apply List.Pairwise.filter
  simpa [List.pairwise_map] using pairwise_splitAt text

theorem depthOf_of_mem_split (hsep : separator ≠ '(') {text : List Char}
    (closed : depthOf text = 0) : ∀ p ∈ split separator text, depthOf p = 0 := by
  intro p hp
  obtain ⟨q, hq, rfl⟩ := List.mem_map.1 (List.mem_filter.1 hp).1
  rw [depthOf_trim]
  exact depthOf_of_mem_splitAt hsep closed q hq

/-- All pieces of a script but the very last end outside parentheses. -/
theorem pairwise_flatten_pieces (script : List Char) :
    (pieces script).flatten.Pairwise fun p _ => depthOf p = 0 := by
  rw [pieces, ← List.flatMap_def]
  apply List.pairwise_flatMap.2
  refine ⟨fun group _ => pairwise_split group, ?_⟩
  exact (pairwise_split script).imp fun closed p hp _ _ => depthOf_of_mem_split (by decide) closed p hp

/-! ## Texts with separators between them -/

/-- Whole texts that end outside parentheses, all but the last, are what their row is cut into. -/
theorem splitAt_intercalate {texts : List (List Char)} (hne : texts ≠ [])
    (whole : ∀ t ∈ texts, IsWhole separator 0 t)
    (closed : texts.Pairwise fun t _ => depthOf t = 0) :
    splitAt separator 0 ([separator].intercalate texts) = texts := by
  induction texts with
  | nil => exact absurd rfl hne
  | cons t rest ih =>
    cases rest with
    | nil =>
      rw [List.intercalate_singleton]
      exact whole t List.mem_cons_self
    | cons u rest =>
      obtain ⟨ht, hrest⟩ := List.pairwise_cons.1 closed
      rw [List.intercalate_cons_cons, List.append_assoc, List.singleton_append,
        (whole t List.mem_cons_self).splitAt_append (ht u List.mem_cons_self),
        ih (by simp) (fun v hv => whole v (List.mem_cons_of_mem _ hv)) hrest]

/-- Trimmed texts that are not empty are the pieces of their row. -/
theorem split_intercalate {texts : List (List Char)}
    (whole : ∀ t ∈ texts, IsWhole separator 0 t)
    (closed : texts.Pairwise fun t _ => depthOf t = 0)
    (trimmed : ∀ t ∈ texts, Text.trim t = t ∧ t ≠ []) :
    split separator ([separator].intercalate texts) = texts := by
  by_cases hne : texts = []
  · subst hne
    rfl
  · rw [split, splitAt_intercalate hne whole closed, List.map_congr_left fun t ht => (trimmed t ht).1,
      List.map_id', List.filter_eq_self]
    intro t ht
    simpa using (trimmed t ht).2

/-- A row of texts stays whole for a separator when it is held together by another character. -/
theorem isWhole_intercalate {glue : Char} (hglue : IsWhole separator 0 [glue])
    (plain : depthAfter 0 glue = 0) {texts : List (List Char)}
    (whole : ∀ t ∈ texts, IsWhole separator 0 t)
    (closed : texts.Pairwise fun t _ => depthOf t = 0) :
    IsWhole separator 0 ([glue].intercalate texts) := by
  induction texts with
  | nil => exact isWhole_nil
  | cons t rest ih =>
    cases rest with
    | nil =>
      rw [List.intercalate_singleton]
      exact whole t List.mem_cons_self
    | cons u rest =>
      obtain ⟨ht, hrest⟩ := List.pairwise_cons.1 closed
      have ht : depthFrom 0 t = 0 := ht u List.mem_cons_self
      rw [List.intercalate_cons_cons]
      apply IsWhole.append
      · apply (whole t List.mem_cons_self).append
        rwa [ht]
      · rw [depthFrom_append, ht, depthFrom_cons, plain, depthFrom_nil]
        exact ih (fun v hv => whole v (List.mem_cons_of_mem _ hv)) hrest

/-- A row of texts that end outside parentheses ends there as well. -/
theorem depthOf_intercalate {glue : Char} (plain : depthAfter 0 glue = 0)
    {texts : List (List Char)} (closed : ∀ t ∈ texts, depthOf t = 0) :
    depthOf ([glue].intercalate texts) = 0 := by
  induction texts with
  | nil => rfl
  | cons t rest ih =>
    have ht : depthFrom 0 t = 0 := closed t List.mem_cons_self
    cases rest with
    | nil =>
      rw [List.intercalate_singleton]
      exact ht
    | cons u rest =>
      have ih : depthFrom 0 _ = 0 := ih fun v hv => closed v (List.mem_cons_of_mem _ hv)
      change depthFrom 0 _ = 0
      rw [List.intercalate_cons_cons, depthFrom_append, depthFrom_append, ht, depthFrom_cons, plain,
        depthFrom_nil, ih]

end Combo.Script
