-- SUMMARY: White space: the characters with the White_Space property, and trimming a text of them at both ends.

/-!
# White space

A blank is a character with the Unicode property `White_Space`. There are
twenty-five of them; zero-width characters such as U+200B and U+FEFF are not
among them. Trimming removes the blanks at both ends of a text and keeps those
inside it.
-/

namespace Combo.Text

/-- A character with the property `White_Space`. -/
def isBlank (c : Char) : Bool :=
  let n := c.toNat
  (9 ≤ n && n ≤ 13) || n == 0x20 || n == 0x85 || n == 0xA0 || n == 0x1680
    || (0x2000 ≤ n && n ≤ 0x200A) || n == 0x2028 || n == 0x2029 || n == 0x202F
    || n == 0x205F || n == 0x3000

/-- The text without its leading blanks. -/
def trimStart (s : List Char) : List Char :=
  s.dropWhile isBlank

/-- The text without its trailing blanks. -/
def trimEnd : List Char → List Char
  | [] => []
  | c :: r =>
    match trimEnd r with
    | [] => if isBlank c then [] else [c]
    | d :: r' => c :: d :: r'

/-- The text without the blanks at its two ends. -/
def trim (s : List Char) : List Char :=
  trimEnd (trimStart s)

/-! ## Small laws -/

theorem trimEnd_cons_of_not_blank {c : Char} (h : isBlank c = false) (r : List Char) :
    trimEnd (c :: r) = c :: trimEnd r := by
  simp only [trimEnd]
  split <;> simp_all

theorem trimEnd_cons (c : Char) (r : List Char) :
    trimEnd (c :: r) = if trimEnd r = [] ∧ isBlank c = true then [] else c :: trimEnd r := by
  simp only [trimEnd]
  cases trimEnd r with
  | nil => cases isBlank c <;> rfl
  | cons d r' => rfl

theorem trimEnd_append_of_not_blank (s : List Char) {c : Char} (h : isBlank c = false) :
    trimEnd (s ++ [c]) = s ++ [c] := by
  induction s with
  | nil => simp [trimEnd, h]
  | cons d r ih =>
    simp only [List.cons_append, trimEnd, ih]
    cases r <;> rfl

@[simp] theorem trim_nil : trim [] = [] := rfl

theorem trimEnd_trimEnd (s : List Char) : trimEnd (trimEnd s) = trimEnd s := by
  induction s with
  | nil => rfl
  | cons c r ih =>
    simp only [trimEnd]
    cases h : trimEnd r with
    | nil => cases hc : isBlank c <;> simp [trimEnd, hc]
    | cons d r' =>
      simp only [h] at ih
      simp only [trimEnd] at ih ⊢
      simp only [ih]

theorem trimStart_eq_self {s : List Char} (h : ∀ c ∈ s.head?, isBlank c = false) :
    trimStart s = s := by
  cases s with
  | nil => rfl
  | cons c r => simp [trimStart, h c rfl]

theorem isBlank_head?_trimStart (s : List Char) :
    ∀ c ∈ (trimStart s).head?, isBlank c = false := by
  intro c hc
  have := List.head?_dropWhile_not isBlank s
  rw [show (List.dropWhile isBlank s).head? = some c from hc] at this
  simpa using this

/-- Trimming at the end does not lay a blank open at the start. -/
theorem trimStart_trimEnd {s : List Char} (h : ∀ c ∈ s.head?, isBlank c = false) :
    trimStart (trimEnd s) = trimEnd s := by
  cases s with
  | nil => rfl
  | cons c r =>
    apply trimStart_eq_self
    simp [trimEnd_cons_of_not_blank (h c rfl), h c rfl]

/-- It does not matter which end is trimmed first. -/
theorem trimStart_trimEnd_comm (s : List Char) : trimStart (trimEnd s) = trim s := by
  induction s with
  | nil => rfl
  | cons c r ih =>
    cases blank : isBlank c with
    | false =>
      have start : ∀ d ∈ (c :: r).head?, isBlank d = false := by simpa using blank
      rw [trimStart_trimEnd start, trim, trimStart_eq_self start]
    | true =>
      have start (s : List Char) : trimStart (c :: s) = trimStart s := by simp [trimStart, blank]
      rw [trim, start, trimEnd_cons, ← trim, ← ih]
      split
      · rename_i h
        rw [h.1]
      · exact start _

@[simp] theorem trim_trim (s : List Char) : trim (trim s) = trim s := by
  rw [trim, trim, trimStart_trimEnd (isBlank_head?_trimStart s), trimEnd_trimEnd]

/-- A text without a blank at either end is its own trim. -/
theorem trim_eq_self {s : List Char} (start : ∀ c ∈ s.head?, isBlank c = false)
    (stop : ∀ c ∈ s.getLast?, isBlank c = false) : trim s = s := by
  rw [trim, trimStart_eq_self start]
  rcases List.eq_nil_or_concat s with rfl | ⟨r, c, h⟩
  · rfl
  · rw [List.concat_eq_append] at h
    subst h
    exact trimEnd_append_of_not_blank r (stop c (by simp))

theorem trimEnd_sublist (s : List Char) : (trimEnd s).Sublist s := by
  induction s with
  | nil => exact .refl _
  | cons c r ih =>
    simp only [trimEnd]
    cases h : trimEnd r with
    | nil =>
      cases isBlank c
      · simp
      · simp
    | cons d r' =>
      rw [h] at ih
      exact ih.cons_cons c

/-- Trimming only takes characters away. -/
theorem trim_sublist (s : List Char) : (trim s).Sublist s :=
  (trimEnd_sublist _).trans (List.dropWhile_sublist _)

end Combo.Text
