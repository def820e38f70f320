-- SUMMARY: Strings in TOML: every string is read back from the form it is written in.
import Mathlib.Data.List.TakeDrop
import Combo.Datum.Toml.Lexeme
import Combo.Datum.Toml.Write

/-!
# Strings in TOML

Each form has a reader of its own. With escapes any string can be read back; without them,
the conditions under which a literal form is chosen say that nothing in the string ends it.
The marks of a form over several lines are told from quotes in the string by their number.
-/

namespace Combo.Toml

variable {multi : Bool} {c : Char} {s r : List Char}

/-! ## Escapes -/

/-- What is neither a control character nor a line end may stand in any string. -/
theorem isPlain_of_not_isControl (noControl : isControl c = false) (noNewline : c ≠ '\n') :
    isPlain c = true := by
  by_cases tab : c = '\t'
  · simp [isPlain, tab]
  · simp only [isControl, isPlain, bne_iff_ne, ne_eq, tab, noNewline, not_false_eq_true, beq_iff_eq,
      Bool.and_eq_true, Bool.or_eq_true, Bool.and_eq_false_iff, Bool.or_eq_false_iff, decide_eq_true_iff,
      decide_eq_false_iff_not, beq_eq_false_iff_ne, bne_eq_false_iff_eq, false_or] at *
    omega

/-- What may stand in a string begins no line end. -/
theorem newline?_of_isPlain (plain : isPlain c = true) (s : List Char) : newline? (c :: s) = none := by
  have noNewline : c ≠ '\n' := by
    rintro rfl
    cases plain
  have noReturn : c ≠ '\r' := by
    rintro rfl
    cases plain
  simp [newline?, noNewline, noReturn]

/-- What a character is written as between double quotes, less a quote that is left as it is. -/
inductive Written (multi : Bool) (c : Char) : List Char → Prop
  | plain (plain : isPlain c = true) (noQuote : c ≠ '"') (noBackslash : c ≠ '\\') : Written multi c [c]
  | newline (lines : multi = true) (same : c = '\n') : Written multi c ['\n']
  | escape (e : List Char) (read : ∀ r, escaped? (e ++ r) = some (c, r))
      (kept : ∀ r, newline? (skipSpaces (e ++ r)) = none) : Written multi c ('\\' :: e)

theorem Written.exists_head {w : List Char} (h : Written multi c w) : ∃ d l, w = d :: l ∧ d ≠ '"' := by
  cases h with
  | plain plain noQuote noBackslash => exact ⟨c, [], rfl, noQuote⟩
  | newline lines same => exact ⟨'\n', [], rfl, by decide⟩
  | escape e read kept => exact ⟨'\\', e, rfl, by decide⟩

/-- A control character is read back from its four digits. -/
theorem escaped?_control (control : isControl c = true) (r : List Char) :
    escaped? ('u' :: Number.hexText true 4 c.toNat ++ r) = some (c, r) := by
  have small : c.toNat < 128 := by
    simp only [isControl, Bool.and_eq_true, Bool.or_eq_true, decide_eq_true_iff, beq_iff_eq] at control
    omega
  have digits : ∀ n : Fin 128, (Number.hexText true 4 n).length = 4 ∧
      Number.radixFrom? 16 0 (Number.hexText true 4 n) = some n.val := by decide +kernel
  obtain ⟨four, read⟩ := digits ⟨c.toNat, small⟩
  simp only at four read
  have scalar_eq : scalar 4 (Number.hexText true 4 c.toNat ++ r) = some (c, r) := by
    unfold scalar
    rw [← four]
    simp only [List.take_left', List.drop_left', four, read, Option.bind_eq_bind, Option.bind_some]
    rw [if_neg (by omega), if_pos (.inl (by omega)), Char.ofNat_toNat]
  exact scalar_eq

/-- A character other than a quote is written in one of these ways. -/
theorem escapeFrom_other (multi : Bool) (noQuote : c ≠ '"') :
    ∃ w, Written multi c w ∧ ∀ quotes r, escapeFrom multi quotes (c :: r) = w ++ escapeFrom multi 0 r := by
  refine ⟨_, ?_, fun quotes r => by rw [escapeFrom, if_neg noQuote]⟩
  have kept {d : Char} (visible : d ≠ ' ' ∧ d ≠ '\t' ∧ d ≠ '\n' ∧ d ≠ '\r') (e r : List Char) :
      newline? (skipSpaces (d :: e ++ r)) = none := by
    obtain ⟨noSpace, noTab, noNewline, noReturn⟩ := visible
    simp [skipSpaces, isSpace, noSpace, noTab, newline?, noNewline, noReturn]
  split
  · subst_vars
    exact .escape ['b'] (fun _ => rfl) (kept (by decide) [])
  split
  · subst_vars
    exact .escape ['t'] (fun _ => rfl) (kept (by decide) [])
  split
  · split
    · exact .newline ‹_› ‹_›
    · subst_vars
      exact .escape ['n'] (fun _ => rfl) (kept (by decide) [])
  split
  · subst_vars
    exact .escape ['f'] (fun _ => rfl) (kept (by decide) [])
  split
  · subst_vars
    exact .escape ['r'] (fun _ => rfl) (kept (by decide) [])
  split
  · subst_vars
    exact .escape ['\\'] (fun _ => rfl) (kept (by decide) [])
  split
  · rename_i control
    exact .escape _ (escaped?_control control) (kept (by decide) _)
  · rename_i noNewline _ _ noBackslash noControl
    exact .plain (isPlain_of_not_isControl (by simpa using noControl) noNewline) noQuote noBackslash

/-- A character of a string is written, or it is a quote that is left as it is. -/
theorem escapeFrom_cons (multi : Bool) (quotes : Nat) (c : Char) (s : List Char) :
    (∃ w, Written multi c w ∧ escapeFrom multi quotes (c :: s) = w ++ escapeFrom multi 0 s) ∨
      (multi = true ∧ quotes < 2 ∧ c = '"' ∧
        escapeFrom multi quotes (c :: s) = '"' :: escapeFrom multi (quotes + 1) s) := by
  by_cases quote : c = '"'
  · subst quote
    rw [escapeFrom, if_pos rfl]
    split
    · rename_i kept
      rw [Bool.and_eq_true, decide_eq_true_iff] at kept
      exact .inr ⟨kept.1, kept.2, rfl, rfl⟩
    · exact .inl ⟨_, .escape ['"'] (fun _ => rfl) (fun _ => rfl), rfl⟩
  · obtain ⟨w, written, text⟩ := escapeFrom_other multi quote
    exact .inl ⟨w, written, text quotes s⟩

/-- Escapes do not make a string shorter. -/
theorem length_le_escapeFrom (multi : Bool) (quotes : Nat) (s : List Char) :
    s.length ≤ (escapeFrom multi quotes s).length := by
  induction s generalizing quotes with
  | nil => exact Nat.zero_le _
  | cons c s ih =>
      obtain ⟨w, written, text⟩ | ⟨-, -, -, text⟩ := escapeFrom_cons multi quotes c s
      · obtain ⟨d, l, rfl, -⟩ := written.exists_head
        have rest := ih 0
        rw [text]
        simp only [List.length_cons, List.length_append]
        omega
      · have rest := ih (quotes + 1)
        rw [text, List.length_cons, List.length_cons]
        omega

/-! ## Strings on one line -/

/-- A string between double quotes is read back. -/
theorem basic?_escapeFrom {fuel : Nat} (enough : s.length < fuel) (acc : List Char) :
    basic? fuel acc (escapeFrom false 0 s ++ '"' :: r) = some (String.ofList (acc.reverse ++ s), r) := by
  induction s generalizing fuel acc with
  | nil =>
      obtain ⟨fuel, rfl⟩ := Nat.exists_eq_add_of_lt enough
      simp [escapeFrom, basic?]
  | cons c s ih =>
      obtain ⟨fuel, rfl⟩ : ∃ f, fuel = f + 1 := ⟨_, (Nat.succ_pred_eq_of_pos (by omega)).symm⟩
      have rest := ih (by simpa using enough) (c :: acc)
      rw [List.reverse_cons, List.append_assoc, List.singleton_append] at rest
      obtain ⟨w, written, text⟩ | ⟨lines, -⟩ := escapeFrom_cons false 0 c s
      · rw [text, List.append_assoc]
        cases written with
        | plain plain noQuote noBackslash => simp [basic?, plain, rest]
        | newline lines => cases lines
        | escape e read => simp [basic?, read, rest]
      · cases lines

/-- A string between single quotes is read back. -/
theorem literal?_append (plain : ∀ c ∈ s, isPlain c = true ∧ c ≠ '\'') :
    literal? (s ++ '\'' :: r) = some (String.ofList s, r) := by
  have all : ∀ c ∈ s, (isPlain c && c != '\'') = true := fun c member => by
    simpa using plain c member
  simp [literal?, List.span_eq_takeWhile_dropWhile, List.takeWhile_append_of_pos all,
    List.dropWhile_append_of_pos all]

/-! ## Rows of marks -/

/-- One character of the search for the longest row: the row that ends here, and the longest so far. -/
def rowStep (mark : Char) (state : Nat × Nat) (c : Char) : Nat × Nat :=
  let row := if c = mark then state.1 + 1 else 0
  (row, max state.2 row)

theorem foldl_rowStep (mark : Char) (s : List Char) {state : Nat × Nat} (ordered : state.1 ≤ state.2) :
    (s.foldl (rowStep mark) state).1 ≤ (s.foldl (rowStep mark) state).2 ∧
      state.2 ≤ (s.foldl (rowStep mark) state).2 ∧
      state.1 + marks mark s ≤ (s.foldl (rowStep mark) state).2 := by
  induction s generalizing state with
  | nil => exact ⟨ordered, Nat.le_refl _, ordered⟩
  | cons c s ih =>
      have fits : (rowStep mark state c).1 ≤ (rowStep mark state c).2 := Nat.le_max_right _ _
      obtain ⟨last, kept, grown⟩ := ih fits
      rw [List.foldl_cons]
      refine ⟨last, Nat.le_trans (Nat.le_max_left _ _) kept, ?_⟩
      by_cases same : c = mark
      · have run : marks mark (c :: s) = marks mark s + 1 := by simp [marks, same]
        have row : (rowStep mark state c).1 = state.1 + 1 := if_pos same
        omega
      · have run : marks mark (c :: s) = 0 := by simp [marks, same]
        have most : state.2 ≤ (rowStep mark state c).2 := Nat.le_max_left _ _
        omega

/-- Nowhere in a text is there a longer row than the longest. -/
theorem marks_le_longestRow (mark : Char) {t s : List Char} (suffix : t <:+ s) :
    marks mark t ≤ longestRow mark s := by
  obtain ⟨p, rfl⟩ := suffix
  have search : longestRow mark (p ++ t) = (t.foldl (rowStep mark) (p.foldl (rowStep mark) (0, 0))).2 := by
    rw [← List.foldl_append]
    rfl
  obtain ⟨ordered, -⟩ := foldl_rowStep mark p (show (0, 0).1 ≤ (0, 0).2 from Nat.le_refl _)
  obtain ⟨-, -, row⟩ := foldl_rowStep mark t ordered
  omega

theorem not_mem_of_longestRow {mark : Char} {s : List Char} (none : longestRow mark s = 0) : mark ∉ s := by
  intro member
  obtain ⟨p, t, rfl⟩ := List.append_of_mem member
  have row := marks_le_longestRow mark (List.suffix_append p (mark :: t))
  rw [none] at row
  simp [marks] at row

/-! ## Strings over several lines -/

theorem marks_replicate (mark : Char) (n : Nat) (stop : ∀ d ∈ r.head?, d ≠ mark) :
    marks mark (List.replicate n mark ++ r) = n := by
  induction n with
  | zero =>
      cases r with
      | nil => rfl
      | cons d r => simp [marks, stop d rfl]
  | succ n ih => simpa [marks, List.replicate_succ] using ih

/-- A text is a row of marks, or its row of marks ends inside it. -/
theorem marks_append (mark : Char) (s : List Char) :
    s = List.replicate (marks mark s) mark ∨ ∀ r, marks mark (s ++ r) = marks mark s := by
  induction s with
  | nil => exact .inl rfl
  | cons c s ih =>
      by_cases same : c = mark
      · subst same
        have run (s : List Char) : marks c (c :: s) = marks c s + 1 := by simp [marks]
        obtain row | inside := ih
        · refine .inl ?_
          rw [run, List.replicate_succ, ← row]
        · refine .inr fun r => ?_
          rw [List.cons_append, run, run, inside]
      · refine .inr fun r => ?_
        simp [marks, same]

/-- At the end of a string its own quotes come before the marks. -/
theorem marks_end (mark : Char) (n : Nat) (stop : ∀ d ∈ r.head?, d ≠ mark) :
    marks mark (List.replicate n mark ++ mark :: mark :: mark :: r) = n + 3 ∧
      (List.replicate n mark ++ mark :: mark :: mark :: r).drop (n + 3) = r := by
  have shape : List.replicate n mark ++ mark :: mark :: mark :: r = List.replicate (n + 3) mark ++ r := by
    rw [← List.replicate_append_replicate, List.append_assoc]
    rfl
  rw [shape]
  exact ⟨marks_replicate mark _ stop, by simp⟩

/-- The quotes that are left as they are: those at the end of the string, or too few to end it. -/
theorem marks_escapeFrom {quotes : Nat} (few : quotes ≤ 2) (s : List Char) :
    (∃ n, n + quotes ≤ 2 ∧ s = List.replicate n '"' ∧ escapeFrom true quotes s = List.replicate n '"') ∨
      ∀ r, marks '"' (escapeFrom true quotes s ++ r) + quotes ≤ 2 := by
  induction s generalizing quotes with
  | nil => exact .inl ⟨0, by omega, rfl, rfl⟩
  | cons c s ih =>
      obtain ⟨w, written, text⟩ | ⟨-, fewer, rfl, text⟩ := escapeFrom_cons true quotes c s
      · obtain ⟨d, l, rfl, noQuote⟩ := written.exists_head
        refine .inr fun r => ?_
        rw [text]
        simpa [marks, noQuote] using few
      · obtain ⟨n, bound, rfl, same⟩ | less := ih (show quotes + 1 ≤ 2 by omega)
        · exact .inl ⟨n + 1, by omega, rfl, by rw [text, same]; rfl⟩
        · refine .inr fun r => ?_
          have run := less r
          rw [text]
          simp only [marks, List.cons_append, List.takeWhile_cons, beq_self_eq_true, if_true,
            List.length_cons] at run ⊢
          omega

/-- A string over several lines between double quotes is read back. -/
theorem multiBasic?_escapeFrom {fuel quotes : Nat} (few : quotes ≤ 2) (enough : s.length < fuel)
    (acc : List Char) (stop : ∀ d ∈ r.head?, d ≠ '"') :
    multiBasic? fuel acc (escapeFrom true quotes s ++ '"' :: '"' :: '"' :: r) =
      some (String.ofList (acc.reverse ++ s), r) := by
  induction s generalizing fuel quotes acc with
  | nil =>
      obtain ⟨fuel, rfl⟩ : ∃ f, fuel = f + 1 := ⟨_, (Nat.succ_pred_eq_of_pos (by omega)).symm⟩
      obtain ⟨run, rest⟩ := marks_end '"' 0 stop
      simp only [List.replicate_zero, List.nil_append] at run rest
      simp [escapeFrom, multiBasic?, run]
  | cons c s ih =>
      obtain ⟨fuel, rfl⟩ : ∃ f, fuel = f + 1 := ⟨_, (Nat.succ_pred_eq_of_pos (by omega)).symm⟩
      have short : s.length < fuel := by simpa using enough
      obtain ⟨w, written, text⟩ | ⟨-, fewer, rfl, text⟩ := escapeFrom_cons true quotes c s
      · have rest := ih (show 0 ≤ 2 by decide) short (c :: acc)
        rw [List.reverse_cons, List.append_assoc, List.singleton_append] at rest
        rw [text, List.append_assoc]
        cases written with
        | plain plain noQuote noBackslash =>
            simp [multiBasic?, newline?_of_isPlain plain, plain, rest]
        | newline lines same =>
            subst same
            simpa [multiBasic?, newline?] using rest
        | escape e read kept => simp [multiBasic?, kept, read, rest]
      · -- an unescaped quote: the string ends in a row of them, or the row is too short for marks
        obtain ⟨n, bound, same, left⟩ | less := marks_escapeFrom few ('"' :: s)
        · have shape : '"' :: (escapeFrom true (quotes + 1) s ++ '"' :: '"' :: '"' :: r) =
              List.replicate n '"' ++ '"' :: '"' :: '"' :: r := by
            rw [← left, text]
            rfl
          obtain ⟨run, rest⟩ := marks_end '"' n stop
          have own : min n 2 = n := by omega
          rw [← shape] at run rest
          rw [text, List.cons_append, multiBasic?]
          simp only [run, if_pos (Nat.le_add_left 3 n), Nat.add_sub_cancel, own, rest]
          rw [List.reverse_append, List.reverse_replicate, ← same]
        · have rest := ih (show quotes + 1 ≤ 2 by omega) short ('"' :: acc)
          rw [List.reverse_cons, List.append_assoc, List.singleton_append] at rest
          have run := less ('"' :: '"' :: '"' :: r)
          rw [text] at run ⊢
          rw [List.cons_append] at run ⊢
          rw [multiBasic?]
          simp only [if_neg (show ¬ 3 ≤ marks '"' ('"' :: (escapeFrom true (quotes + 1) s ++
            '"' :: '"' :: '"' :: r)) by omega), rest]

/-- A string over several lines between single quotes is read back. -/
theorem multiLiteral?_append {fuel : Nat} (enough : s.length < fuel) (acc : List Char)
    (plain : ∀ c ∈ s, isPlain c = true ∨ c = '\n') (few : ∀ t, t <:+ s → marks '\'' t ≤ 2)
    (stop : ∀ d ∈ r.head?, d ≠ '\'') :
    multiLiteral? fuel acc (s ++ '\'' :: '\'' :: '\'' :: r) =
      some (String.ofList (acc.reverse ++ s), r) := by
  induction s generalizing fuel acc with
  | nil =>
      obtain ⟨fuel, rfl⟩ : ∃ f, fuel = f + 1 := ⟨_, (Nat.succ_pred_eq_of_pos (by omega)).symm⟩
      obtain ⟨run, rest⟩ := marks_end '\'' 0 stop
      simp only [List.replicate_zero, List.nil_append] at run rest
      simp [multiLiteral?, run]
  | cons c s ih =>
      obtain ⟨fuel, rfl⟩ : ∃ f, fuel = f + 1 := ⟨_, (Nat.succ_pred_eq_of_pos (by omega)).symm⟩
      have short : s.length < fuel := by simpa using enough
      have rest := ih short (c :: acc) (fun d member => plain d (List.mem_cons_of_mem c member))
        fun t suffix => few t (suffix.trans (List.suffix_cons c s))
      rw [List.reverse_cons, List.append_assoc, List.singleton_append] at rest
      by_cases quote : c = '\''
      · subst quote
        have bound := few _ List.suffix_rfl
        obtain same | inside := marks_append '\'' ('\'' :: s)
        · -- the string ends in a row of quotes
          generalize marks '\'' ('\'' :: s) = n at *
          obtain ⟨run, left⟩ := marks_end '\'' n stop
          have own : min n 2 = n := by omega
          rw [← same, List.cons_append] at run left
          rw [List.cons_append, multiLiteral?]
          simp only [run, if_pos (Nat.le_add_left 3 n), Nat.add_sub_cancel, own, left]
          rw [List.reverse_append, List.reverse_replicate, ← same]
        · have run := inside ('\'' :: '\'' :: '\'' :: r)
          rw [List.cons_append] at run ⊢
          rw [multiLiteral?]
          simp only [if_neg (show ¬ 3 ≤ marks '\'' ('\'' :: (s ++ '\'' :: '\'' :: '\'' :: r)) by omega),
            rest]
      · obtain visible | rfl := plain c (List.mem_cons_self)
        · simp [multiLiteral?, newline?_of_isPlain visible, visible, rest]
        · simpa [multiLiteral?, newline?] using rest

/-! ## Forms -/

/-- When a literal form is chosen, nothing in the string ends it. -/
theorem literal_of_for (s : List Char) :
    (Form.for s = .literal → ∀ c ∈ s, isPlain c = true ∧ c ≠ '\'') ∧
      (Form.for s = .multiLiteral →
        (∀ c ∈ s, isPlain c = true ∨ c = '\n') ∧ longestRow '\'' s ≤ 2) := by
  have plain (noControls : s.any isControl = false) : ∀ c ∈ s, isPlain c = true ∨ c = '\n' := by
    intro c member
    by_cases newline : c = '\n'
    · exact .inr newline
    · have control := List.any_eq_false.1 noControls c member
      exact .inl (isPlain_of_not_isControl (by simpa using control) newline)
  unfold Form.for
  simp only
  split
  · exact ⟨nofun, nofun⟩
  split
  · rename_i literal
    simp only [Bool.and_eq_true, Bool.not_eq_true', beq_iff_eq, List.contains_eq_mem,
      decide_eq_false_iff_not] at literal
    obtain ⟨⟨noControls, noQuotes⟩, noNewline⟩ := literal
    refine ⟨fun _ c member => ⟨?_, ?_⟩, nofun⟩
    · refine (plain noControls c member).resolve_right ?_
      rintro rfl
      exact noNewline member
    · rintro rfl
      exact not_mem_of_longestRow noQuotes member
  split
  · exact ⟨nofun, nofun⟩
  split
  · rename_i literal
    simp only [Bool.and_eq_true, Bool.not_eq_true', decide_eq_true_iff] at literal
    exact ⟨nofun, fun _ => ⟨plain literal.1, literal.2⟩⟩
  · split
    · exact ⟨nofun, nofun⟩
    · exact ⟨nofun, nofun⟩

/-- The line end after the opening marks is no part of the string. -/
theorem skipFirstNewline_lead {body : List Char} {lines : Prop} [Decidable lines]
    (first : ¬ lines → newline? body = none) :
    skipFirstNewline ((if lines then ['\n'] else []) ++ body) = body := by
  by_cases h : lines
  · rw [if_pos h]
    rfl
  · rw [if_neg h, List.nil_append, skipFirstNewline, first h]
    rfl

/-- One mark in front is no row of three. -/
theorem string?_single {mark : Char} {body : List Char} (other : ∀ l, body ≠ mark :: mark :: l) :
    (mark = '"' → string? (mark :: body) = basic? (body.length + 1) [] body) ∧
      (mark = '\'' → string? (mark :: body) = literal? body) := by
  constructor
  · rintro rfl
    unfold string?
    split
    · rename_i same
      exact absurd (List.cons.inj same).2 (other _)
    · rename_i same
      rw [(List.cons.inj same).2]
    · rename_i same
      cases (List.cons.inj same).1
    · rename_i same
      cases (List.cons.inj same).1
    · rename_i none_left _ _
      exact absurd rfl (none_left _)
  · rintro rfl
    unfold string?
    split
    · rename_i same
      cases (List.cons.inj same).1
    · rename_i same
      cases (List.cons.inj same).1
    · rename_i same
      exact absurd (List.cons.inj same).2 (other _)
    · rename_i same
      rw [(List.cons.inj same).2]
    · rename_i none_left
      exact absurd rfl (none_left _)

/-- A text in front of a mark, without one at its head, begins with no two of them. -/
theorem ne_marks {mark : Char} (head : ∀ d ∈ s.head?, d ≠ mark) (stop : ∀ d ∈ r.head?, d ≠ mark)
    (l : List Char) : s ++ mark :: r ≠ mark :: mark :: l := by
  intro same
  cases s with
  | nil =>
      rw [List.nil_append] at same
      rw [(List.cons.inj same).2] at stop
      exact stop mark rfl rfl
  | cons d s => exact head d rfl (List.cons.inj same).1

theorem string?_basic (s : List Char) (stop : ∀ d ∈ r.head?, d ≠ '"') :
    string? ('"' :: (escapeFrom false 0 s ++ '"' :: r)) = some (String.ofList s, r) := by
  have head : ∀ d ∈ (escapeFrom false 0 s).head?, d ≠ '"' := by
    cases s with
    | nil => simp [escapeFrom]
    | cons c s =>
        obtain ⟨w, written, text⟩ | ⟨lines, -⟩ := escapeFrom_cons false 0 c s
        · obtain ⟨d, l, rfl, noQuote⟩ := written.exists_head
          rw [text]
          simpa using noQuote
        · cases lines
  have long := length_le_escapeFrom false 0 s
  rw [(string?_single (ne_marks head stop)).1 rfl, basic?_escapeFrom (by simp; omega)]
  rfl

theorem string?_literal (plain : ∀ c ∈ s, isPlain c = true ∧ c ≠ '\'')
    (stop : ∀ d ∈ r.head?, d ≠ '\'') :
    string? ('\'' :: (s ++ '\'' :: r)) = some (String.ofList s, r) := by
  have head : ∀ d ∈ s.head?, d ≠ '\'' := fun d member => (plain d (List.mem_of_mem_head? member)).2
  rw [(string?_single (ne_marks head stop)).2 rfl, literal?_append plain]

theorem string?_multiBasic (s : List Char) (stop : ∀ d ∈ r.head?, d ≠ '"') :
    string? ('"' :: '"' :: '"' :: ((if s.contains '\n' then ['\n'] else []) ++
      (escapeFrom true 0 s ++ '"' :: '"' :: '"' :: r))) = some (String.ofList s, r) := by
  have first : ¬ s.contains '\n' = true →
      newline? (escapeFrom true 0 s ++ '"' :: '"' :: '"' :: r) = none := by
    intro oneLine
    cases s with
    | nil => rfl
    | cons c s =>
        obtain ⟨w, written, text⟩ | ⟨-, -, -, text⟩ := escapeFrom_cons true 0 c s
        · rw [text]
          cases written with
          | plain plain => exact newline?_of_isPlain plain _
          | newline lines same => simp [same] at oneLine
          | escape e => rfl
        · rw [text]
          rfl
  have long := length_le_escapeFrom true 0 s
  rw [string?, skipFirstNewline_lead first,
    multiBasic?_escapeFrom (by decide) (by simp; omega) [] stop]
  rfl

theorem string?_multiLiteral (plain : ∀ c ∈ s, isPlain c = true ∨ c = '\n')
    (few : longestRow '\'' s ≤ 2) (stop : ∀ d ∈ r.head?, d ≠ '\'') :
    string? ('\'' :: '\'' :: '\'' :: ((if s.contains '\n' then ['\n'] else []) ++
      (s ++ '\'' :: '\'' :: '\'' :: r))) = some (String.ofList s, r) := by
  have first : ¬ s.contains '\n' = true → newline? (s ++ '\'' :: '\'' :: '\'' :: r) = none := by
    intro oneLine
    cases s with
    | nil => rfl
    | cons c s =>
        refine newline?_of_isPlain ((plain c List.mem_cons_self).resolve_right ?_) _
        rintro rfl
        simp at oneLine
  rw [string?, skipFirstNewline_lead first,
    multiLiteral?_append (by simp; omega) [] plain
      (fun t suffix => Nat.le_trans (marks_le_longestRow _ suffix) few) stop]
  rfl

/-- Every string is read back from the form it is written in. -/
theorem string?_quote (text : String) (stop : ∀ d ∈ r.head?, d ≠ '"' ∧ d ≠ '\'') :
    string? (quote text ++ r) = some (text, r) := by
  have noDouble : ∀ d ∈ r.head?, d ≠ '"' := fun d member => (stop d member).1
  have noSingle : ∀ d ∈ r.head?, d ≠ '\'' := fun d member => (stop d member).2
  obtain ⟨literal, multiLiteral⟩ := literal_of_for text.toList
  rw [← String.ofList_toList (s := text)]
  cases form : Form.for text.toList with
  | basic =>
      simpa [quote, form, Form.mark, Form.isMulti, Form.body] using string?_basic text.toList noDouble
  | literal =>
      simpa [quote, form, Form.mark, Form.isMulti, Form.body] using string?_literal (literal form) noSingle
  | multiBasic =>
      simpa [quote, form, Form.mark, Form.isMulti, Form.body] using string?_multiBasic text.toList noDouble
  | multiLiteral =>
      obtain ⟨plain, few⟩ := multiLiteral form
      simpa [quote, form, Form.mark, Form.isMulti, Form.body] using string?_multiLiteral plain few noSingle

end Combo.Toml
