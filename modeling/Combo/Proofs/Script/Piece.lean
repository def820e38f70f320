-- SUMMARY: What a piece has to be to be an action, and that a canonical action is read back from its text.
import Mathlib.Data.List.TakeDrop
import Mathlib.Data.List.TakeWhile
import Combo.Proofs.Script.Split
import Combo.Script.Canonical

/-!
# Actions and their texts

A piece that is an action is a name, alone or followed by a parameter in
parentheses that closes none of its own. The parameter opens one just when the
piece does not end outside parentheses. What is read so is canonical, and a
canonical action is the one piece that its text is cut into.
-/

namespace Combo.Script

/-! ## One piece -/

theorem enclosed?_eq_some {s inner : List Char} :
    enclosed? s = some inner ↔ s = '(' :: (inner ++ [')']) ∧ ')' ∉ inner := by
  constructor
  · intro h
    unfold enclosed? at h
    split at h
    · rename_i r
      split at h
      · rename_i inner' hspan
        cases h
        rw [List.span_eq_takeWhile_dropWhile] at hspan
        obtain ⟨htake, hdrop⟩ := Prod.mk.inj hspan
        refine ⟨?_, ?_⟩
        · rw [← htake, ← hdrop, List.takeWhile_append_dropWhile]
        · intro hmem
          rw [← htake] at hmem
          have := List.mem_takeWhile_imp hmem
          simp at this
      · cases h
    · cases h
  · rintro ⟨rfl, hnot⟩
    have hne : ∀ c ∈ inner, (c != ')') = true := by
      intro c hc
      simp only [bne_iff_ne, ne_eq]
      rintro rfl
      exact hnot hc
    simp only [enclosed?, List.span_eq_takeWhile_dropWhile]
    rw [List.takeWhile_append_of_pos hne, List.dropWhile_append_of_pos hne]
    simp

/-- A parameter that an action keeps is trimmed, not empty, and made of what stood in the text. -/
theorem parameter?_eq_some {text : Option (List Char)} {p : String}
    (h : parameter? text = some p) :
    ∃ inner, text = some inner ∧ p.toList = Text.trim inner ∧ p ≠ "" := by
  unfold parameter? at h
  cases text with
  | none => cases h
  | some inner =>
    simp only [Option.map_some] at h
    split at h
    · cases h
    · cases h
    · rename_i c r htrim
      cases h
      refine ⟨inner, rfl, ?_, ?_⟩
      · rw [String.toList_ofList]
        exact (Option.some.inj htrim).symm
      · intro hempty
        have := congrArg String.toList hempty
        simp at this

/-- A name and a parameter text of a piece are the whole of it. -/
theorem nameAndParameter?_eq_some {piece name : List Char} {parameter : Option (List Char)}
    (h : nameAndParameter? piece = some (name, parameter)) :
    (∀ c ∈ name, isNameChar c = true) ∧
      ((parameter = none ∧ piece = name) ∨
        ∃ inner, parameter = some inner ∧ piece = name ++ '(' :: (inner ++ [')']) ∧ ')' ∉ inner) := by
  simp only [nameAndParameter?, List.span_eq_takeWhile_dropWhile] at h
  have whole : piece.takeWhile isNameChar ++ piece.dropWhile isNameChar = piece :=
    List.takeWhile_append_dropWhile
  have chars : ∀ c ∈ piece.takeWhile isNameChar, isNameChar c = true :=
    fun c hc => List.mem_takeWhile_imp hc
  split at h
  · cases h
  · split at h
    · rename_i hrest
      cases h
      rw [List.isEmpty_iff.1 hrest, List.append_nil] at whole
      exact ⟨chars, .inl ⟨rfl, whole.symm⟩⟩
    · obtain ⟨inner, henclosed, heq⟩ := Option.map_eq_some_iff.1 h
      cases heq
      obtain ⟨hrest, hnot⟩ := enclosed?_eq_some.1 henclosed
      refine ⟨chars, .inr ⟨inner, rfl, ?_, hnot⟩⟩
      rw [← hrest, whole]

/-- What a piece has to be to be an action. -/
theorem exists_of_ofText_action {piece : List Char} {a : Action}
    (h : (Piece.ofText piece).action? = some a) :
    ∃ name parameter kind, nameAndParameter? piece = some (name, parameter) ∧
      a = Action.make kind (parameter? parameter) := by
  unfold Piece.ofText at h
  split at h
  · cases h
  · rename_i name parameter hname
    simp only at h
    split at h
    · rename_i kind hkind
      cases h
      exact ⟨name, parameter, kind, hname, rfl⟩
    · cases h

/-- What is read as an action is one that a script can name. -/
theorem isCanonicalAction_of_ofText {piece : List Char} {a : Action}
    (h : (Piece.ofText piece).action? = some a) : IsCanonicalAction a := by
  obtain ⟨name, parameter, kind, hname, rfl⟩ := exists_of_ofText_action h
  refine ⟨fun p hp => ?_, rfl⟩
  obtain ⟨inner, rfl, htrim, hne⟩ := parameter?_eq_some hp
  obtain ⟨-, ⟨hnone, -⟩ | ⟨inner', hsome, -, hnot⟩⟩ := nameAndParameter?_eq_some hname
  · cases hnone
  · cases hsome
    refine ⟨hne, ?_, ?_⟩
    · rw [htrim, Text.trim_trim]
    · intro hmem
      rw [htrim] at hmem
      exact hnot ((Text.trim_sublist _).subset hmem)

theorem plain_of_isNameChar {c : Char} (h : isNameChar c = true) :
    c ≠ '(' ∧ c ≠ ')' ∧ c ≠ ',' ∧ c ≠ '&' := by
  refine ⟨?_, ?_, ?_, ?_⟩ <;> rintro rfl <;> revert h <;> decide

/-- A name leaves the depth as it is. -/
theorem depthFrom_name {name : List Char} (h : ∀ c ∈ name, isNameChar c = true) (depth : Nat) :
    depthFrom depth name = depth := by
  refine depthFrom_of_plain (fun c hc => ?_) depth
  obtain ⟨hopen, hclose, -⟩ := plain_of_isNameChar (h c hc)
  exact ⟨hopen, hclose⟩

/-- The depth of a piece with a parameter is the number of opening parentheses in it. -/
theorem depthOf_enclosed {name inner : List Char} (hname : ∀ c ∈ name, isNameChar c = true)
    (hnot : ')' ∉ inner) : depthOf (name ++ '(' :: (inner ++ [')'])) = inner.count '(' := by
  change depthFrom 0 _ = _
  rw [depthFrom_append, depthFrom_name hname, depthFrom_cons, depthFrom_append,
    depthFrom_of_unclosed hnot]
  simp [depthAfter]

/-- A parameter of a piece that ends outside parentheses has none of its own. -/
theorem isClosed_of_ofText {piece : List Char} {a : Action}
    (h : (Piece.ofText piece).action? = some a) (closed : depthOf piece = 0) :
    ∀ p ∈ a.parameter, IsClosed p := by
  obtain ⟨name, parameter, kind, hname, rfl⟩ := exists_of_ofText_action h
  intro p hp hopen
  obtain ⟨inner, rfl, htrim, -⟩ := parameter?_eq_some hp
  obtain ⟨chars, ⟨hnone, -⟩ | ⟨inner', hsome, rfl, hnot⟩⟩ := nameAndParameter?_eq_some hname
  · cases hnone
  · cases hsome
    rw [depthOf_enclosed chars hnot, List.count_eq_zero] at closed
    rw [htrim] at hopen
    exact closed ((Text.trim_sublist _).subset hopen)

/-! ## Texts without blanks at the ends -/

/-- Whether a text is not empty and has no blank at either end. -/
def IsTight (text : List Char) : Prop :=
  text ≠ [] ∧ (∀ c ∈ text.head?, Text.isBlank c = false) ∧
    ∀ c ∈ text.getLast?, Text.isBlank c = false

theorem IsTight.trim {text : List Char} (h : IsTight text) : Text.trim text = text :=
  Text.trim_eq_self h.2.1 h.2.2

/-- What stands between tight texts does not matter for the ends. -/
theorem IsTight.append {a b : List Char} (ha : IsTight a) (hb : IsTight b) (middle : List Char) :
    IsTight (a ++ (middle ++ b)) := by
  obtain ⟨hane, hastart, -⟩ := ha
  obtain ⟨hbne, -, hbstop⟩ := hb
  refine ⟨by simp [hane], ?_, ?_⟩
  · intro c hc
    apply hastart
    simpa [List.head?_append, List.head?_eq_some_head hane] using hc
  · intro c hc
    apply hbstop
    simpa [← List.append_assoc, List.getLast?_append, List.getLast?_eq_some_getLast hbne] using hc

/-- The characters of a name are no blanks. -/
theorem isBlank_of_isNameChar {c : Char} (h : isNameChar c = true) : Text.isBlank c = false := by
  have range : 48 ≤ c.toNat ∧ c.toNat ≤ 122 := by
    have h : (decide ('A'.val ≤ c.val ∧ c.val ≤ 'Z'.val) ||
        (decide ('a'.val ≤ c.val) && decide (c.val ≤ 'z'.val)) ||
        (decide ('0'.val ≤ c.val) && decide (c.val ≤ '9'.val)) || c == '_') = true := h
    simp only [Bool.or_eq_true, Bool.and_eq_true, decide_eq_true_eq, beq_iff_eq,
      UInt32.le_iff_toNat_le] at h
    rcases h with ((⟨hlo, hhi⟩ | ⟨hlo, hhi⟩) | ⟨hlo, hhi⟩) | rfl
    · exact ⟨Nat.le_trans (by decide) hlo, Nat.le_trans hhi (by decide)⟩
    · exact ⟨Nat.le_trans (by decide) hlo, Nat.le_trans hhi (by decide)⟩
    · exact ⟨hlo, Nat.le_trans hhi (by decide)⟩
    · decide
  simp only [Text.isBlank, Bool.or_eq_false_iff, Bool.and_eq_false_iff, decide_eq_false_iff_not,
    beq_eq_false_iff_ne]
  omega

theorem isTight_of_isNameChar {name : List Char} (hne : name ≠ [])
    (h : ∀ c ∈ name, isNameChar c = true) : IsTight name :=
  ⟨hne, fun c hc => isBlank_of_isNameChar (h c (List.mem_of_mem_head? hc)),
    fun c hc => isBlank_of_isNameChar (h c (List.mem_of_mem_getLast? hc))⟩

/-! ## Tokens -/

theorem isNameChar_of_mem_token (kind : Kind) : ∀ c ∈ kind.token.toList, isNameChar c = true := by
  apply List.all_eq_true.1
  cases kind <;> rfl

theorem token_toList_ne_nil (kind : Kind) : kind.token.toList ≠ [] := by
  cases kind <;> decide

theorem map_toLower_token (kind : Kind) :
    kind.token.toList.map Char.toLower = kind.token.toList := by
  cases kind <;> decide

theorem ofToken?_token (kind : Kind) : Kind.ofToken? kind.token = some kind := by
  cases kind <;> decide

/-- A name alone is a piece without a parameter. -/
theorem nameAndParameter?_name {name : List Char} (hne : name ≠ [])
    (h : ∀ c ∈ name, isNameChar c = true) : nameAndParameter? name = some (name, none) := by
  simp only [nameAndParameter?, List.span_eq_takeWhile_dropWhile,
    List.takeWhile_eq_self_iff.2 h, List.dropWhile_eq_nil_iff.2 h]
  simp [hne]

/-- A name with a parameter text is a piece. -/
theorem nameAndParameter?_enclosed {name inner : List Char} (hne : name ≠ [])
    (h : ∀ c ∈ name, isNameChar c = true) (hnot : ')' ∉ inner) :
    nameAndParameter? (name ++ '(' :: (inner ++ [')'])) = some (name, some inner) := by
  have hopen : isNameChar '(' = false := by decide
  have henclosed := enclosed?_eq_some.2 ⟨rfl, hnot⟩
  simp only [nameAndParameter?, List.span_eq_takeWhile_dropWhile,
    List.takeWhile_append_of_pos h, List.dropWhile_append_of_pos h,
    List.takeWhile_cons, List.dropWhile_cons, hopen]
  simp [hne, henclosed]

/-- A parameter that may stand in a script is kept as it is. -/
theorem parameter?_of_isParameter {p : String} (h : IsParameter p) :
    parameter? (some p.toList) = some p := by
  obtain ⟨hne, htrim, -⟩ := h
  have hlist : p.toList ≠ [] := by simpa using hne
  unfold parameter?
  rw [Option.map_some, htrim]
  cases hp : p.toList with
  | nil => exact absurd hp hlist
  | cons c r =>
    simp only [← hp, String.ofList_toList]

/-! ## One written action -/

/-- The characters of a written action. -/
theorem toList_text (a : Action) :
    a.text.toList = a.kind.token.toList ++
      match a.parameter with
      | some p => '(' :: (p.toList ++ [')'])
      | none => [] := by
  unfold Action.text
  cases a.parameter <;> simp

/-- A canonical action is read back from its text. -/
theorem ofText_text {a : Action} (h : IsCanonicalAction a) :
    Piece.ofText a.text.toList = .action a := by
  obtain ⟨hparameter, hmake⟩ := h
  have chars := isNameChar_of_mem_token a.kind
  have hne := token_toList_ne_nil a.kind
  rw [toList_text]
  cases hp : a.parameter with
  | none =>
    rw [hp] at hmake
    simp only [List.append_nil, Piece.ofText, nameAndParameter?_name hne chars, map_toLower_token,
      String.ofList_toList, ofToken?_token]
    rw [hmake]
    rfl
  | some p =>
    have hparam := hparameter p hp
    rw [hp] at hmake
    simp only [Piece.ofText, nameAndParameter?_enclosed hne chars hparam.2.2, map_toLower_token,
      String.ofList_toList, ofToken?_token, parameter?_of_isParameter hparam]
    rw [← hmake]

/-- A written action has no separator outside its parentheses. -/
theorem isWhole_text {separator : Char} (hsep : separator = ',' ∨ separator = '&') {a : Action}
    (h : IsCanonicalAction a) : IsWhole separator 0 a.text.toList := by
  have hname : separator ∉ a.kind.token.toList := by
    intro hmem
    have plain := plain_of_isNameChar (isNameChar_of_mem_token a.kind _ hmem)
    rcases hsep with rfl | rfl
    · exact plain.2.2.1 rfl
    · exact plain.2.2.2 rfl
  rw [toList_text]
  apply (isWhole_of_not_mem hname).append
  rw [depthFrom_name (isNameChar_of_mem_token a.kind)]
  cases hp : a.parameter with
  | none => exact isWhole_nil
  | some p =>
    have hnot := (h.1 p hp).2.2
    refine isWhole_cons.2 ⟨by rcases hsep with rfl | rfl <;> simp, ?_⟩
    apply (isWhole_of_unclosed hnot).append
    apply isWhole_of_not_mem
    rcases hsep with rfl | rfl <;> simp

/-- A written action ends outside parentheses if its parameter opens none. -/
theorem depthOf_text {a : Action} (h : IsCanonicalAction a)
    (closed : ∀ p ∈ a.parameter, IsClosed p) : depthOf a.text.toList = 0 := by
  rw [toList_text]
  have chars := isNameChar_of_mem_token a.kind
  cases hp : a.parameter with
  | none =>
    rw [List.append_nil]
    exact depthFrom_name chars 0
  | some p =>
    simp only
    rw [depthOf_enclosed chars (h.1 p hp).2.2, List.count_eq_zero]
    exact closed p hp

theorem isTight_text (a : Action) : IsTight a.text.toList := by
  have tight := isTight_of_isNameChar (token_toList_ne_nil a.kind) (isNameChar_of_mem_token a.kind)
  rw [toList_text]
  cases a.parameter with
  | none => rwa [List.append_nil]
  | some p =>
    have close : IsTight [')'] := by
      refine ⟨by simp, ?_, ?_⟩ <;> rintro c ⟨⟩ <;> decide
    simpa using tight.append close ('(' :: p.toList)

end Combo.Script
