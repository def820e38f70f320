-- SUMMARY: Numbers in TOML: the text of a float or of an integer is read as that number, bit for bit, and as no date.
import Combo.Datum.Toml.Lexeme
import Combo.Datum.Toml.Write
import Combo.Proofs.Number.Positional

/-!
# Numbers in TOML

A number is written before the end of a line. The reader takes it whole: a date would
have a colon or a second minus, a float has a point, an integer has none.
-/

namespace Combo.Toml

open Number

variable {whole fraction mark r : List Char}

/-! ## Rows of digits -/

/-- A row of digits is taken up to what can not go on with it. -/
theorem digitRow?_go {l : List Char} (digits : ∀ c ∈ l, isDecimal c = true)
    (stop : ∀ c ∈ r.head?, isDecimal c = false ∧ c ≠ '_') (acc : List Char) :
    digitRow?.go isDecimal acc (l ++ r) = (acc.reverse ++ l, r) := by
  induction l generalizing acc with
  | nil =>
      cases r with
      | nil => simp [digitRow?.go]
      | cons c r =>
          obtain ⟨other, noUnderscore⟩ := stop c rfl
          simp [digitRow?.go, other, noUnderscore]
  | cons c l ih =>
      have digit := digits c (by simp)
      have noUnderscore : c ≠ '_' := by
        rintro rfl
        cases digit
      have rest := ih (fun d member => digits d (List.mem_cons_of_mem c member)) (c :: acc)
      simp [digitRow?.go, noUnderscore, digit, rest]

theorem digitRow?_append {l : List Char} (digits : ∀ c ∈ l, isDecimal c = true) (some : l ≠ [])
    (stop : ∀ c ∈ r.head?, isDecimal c = false ∧ c ≠ '_') :
    digitRow? isDecimal (l ++ r) = Option.some (l, r) := by
  cases l with
  | nil => exact absurd rfl some
  | cons c l =>
      have rest := digitRow?_go (fun d member => digits d (List.mem_cons_of_mem c member)) stop [c]
      simp [digitRow?, digits c (by simp), rest]

/-- A whole part has no zero in front of other digits. -/
theorem whole?_append {n : ℕ} (digits : digitsFrom? 0 whole = some n)
    (lead : whole = ['0'] ∨ ∃ c l, whole = c :: l ∧ c ≠ '0')
    (stop : ∀ c ∈ r.head?, isDecimal c = false ∧ c ≠ '_') : whole? (whole ++ r) = some (whole, r) := by
  have all := isDigit_of_digitsFrom? digits
  obtain rfl | ⟨c, l, rfl, nonzero⟩ := lead
  · rfl
  · have row := digitRow?_append (r := r) all (by simp) stop
    simpa [whole?, nonzero] using row

/-- The sign of a number is no part of its digits. -/
theorem sign_append (signed : mark = [] ∨ mark = ['-']) {s : List Char}
    (digit : ∃ c l, s = c :: l ∧ isDecimal c = true) : sign (mark ++ s) = (mark, s) := by
  obtain ⟨c, l, rfl, digit⟩ := digit
  obtain rfl | rfl := signed
  · have noPlus : c ≠ '+' := by
      rintro rfl
      cases digit
    have noMinus : c ≠ '-' := by
      rintro rfl
      cases digit
    simp [sign, noPlus, noMinus]
  · rfl

/-- A text with a point is a float in digits. -/
theorem digitFloat?_pointed {n : ℕ} (pointed : IsPointed whole fraction n)
    (signed : mark = [] ∨ mark = ['-']) :
    digitFloat? (mark ++ (whole ++ '.' :: fraction) ++ '\n' :: r) =
      some (mark ++ (whole ++ '.' :: fraction), '\n' :: r) := by
  obtain ⟨c, l, begins, digit⟩ := pointed.exists_head
  obtain ⟨m, front, back⟩ := digitsFrom?_append pointed.digits
  have marked := sign_append (s := whole ++ '.' :: (fraction ++ '\n' :: r)) signed
    ⟨c, _, by rw [begins]; rfl, digit⟩
  have taken := whole?_append (r := '.' :: (fraction ++ '\n' :: r)) front pointed.lead
    (by simp [isDecimal])
  have taken' := digitRow?_append (r := '\n' :: r) (isDigit_of_digitsFrom? back) pointed.some
    (by simp [isDecimal])
  have shape : mark ++ (whole ++ '.' :: fraction) ++ '\n' :: r =
      mark ++ (whole ++ '.' :: (fraction ++ '\n' :: r)) := by simp
  simp [shape, digitFloat?, marked, taken, floatTail?, taken', exponent?]

/-! ## Floats -/

/-- A double is whole exactly if it stands for a whole number. -/
theorem isWhole_iff {x : Float} {negative : Bool} {m : ℕ} {e : ℤ}
    (parts : Parts.ofDouble x = .finite negative m e) :
    isWhole x = true ↔ ∃ n : ℕ, (m : ℚ) * 2 ^ e = n := by
  unfold isWhole
  rw [parts]
  cases e with
  | ofNat k =>
      refine iff_of_true rfl ⟨m * 2 ^ k, ?_⟩
      rw [Int.ofNat_eq_natCast, zpow_natCast]
      push_cast
      rfl
  | negSucc k =>
      simp only [beq_iff_eq, ← Nat.dvd_iff_mod_eq_zero]
      have nonzero : (2 : ℚ) ^ (k + 1) ≠ 0 := pow_ne_zero _ two_ne_zero
      rw [zpow_negSucc]
      constructor
      · rintro ⟨n, rfl⟩
        refine ⟨n, ?_⟩
        rw [Nat.pow_eq]
        push_cast
        field_simp
      · rintro ⟨n, exact⟩
        refine ⟨n, ?_⟩
        rw [← div_eq_mul_inv, div_eq_iff nonzero] at exact
        rw [Nat.pow_eq, Nat.mul_comm]
        exact_mod_cast exact

/-- A double as TOML writes it, less the sign: a text with a point that is read as its magnitude. -/
theorem exists_pointed_text {x : Float} (finite : magnitude x < infinityBits) :
    ∃ whole fraction n y, IsPointed whole fraction n ∧
      (doubleText x).toList ++ (if isWhole x then ['.', '0'] else []) =
        (if x.toBits.toNat / 2 ^ 63 = 1 then ['-'] else []) ++ (whole ++ '.' :: fraction) ∧
      magnitude? (whole ++ '.' :: fraction) = some y ∧ y.toBits.toNat / 2 ^ 63 = 0 ∧
      magnitude y = magnitude x := by
  obtain ⟨m, k, narrow, normal, bounded, bits, parts⟩ := parts_of_finite finite
  have whole_iff := isWhole_iff parts
  have signed (body : List Char) :
      (if (x.toBits.toNat / 2 ^ 63 == 1) = true then '-' :: body else body) =
        (if x.toBits.toNat / 2 ^ 63 = 1 then ['-'] else []) ++ body := by
    simp only [beq_iff_eq]
    split
    · rfl
    · rfl
  unfold doubleText
  rw [parts]
  simp only [String.toList_ofList, signed, List.append_assoc, List.append_cancel_left_eq]
  rcases Nat.eq_zero_or_pos m with rfl | pos
  · have isWhole : isWhole x = true := whole_iff.2 ⟨0, by simp⟩
    have zero : k = 0 := by omega
    rw [isWhole]
    refine ⟨['0'], ['0'], 0, 0.0, ⟨rfl, .inl rfl, by simp⟩, rfl, rfl, rfl, ?_⟩
    rw [magnitude_zero, bits, zero, Nat.zero_mul]
  · obtain ⟨some, around, grid⟩ := shortest_spec (k := k) pos narrow
    obtain ⟨whole, fraction, n, pointed, positive, value, text⟩ := Numeral.exists_pointed some
    rw [← value] at around
    obtain ⟨y, read, length, exact⟩ := pointed.reads positive around pos narrow normal bounded
    refine ⟨whole, fraction, n, y, pointed, ?_, read, length.unsigned (by omega), by omega⟩
    simp only [if_neg pos.ne', ← text, whole_iff, ← grid]

/-- The text of a finite double has a point, and is read as the double. -/
theorem exists_floatText {x : Float} (finite : magnitude x < infinityBits) (number : x.isNaN = false) :
    ∃ mark whole fraction n, (mark = [] ∨ mark = ['-']) ∧ IsPointed whole fraction n ∧
      floatText x = mark ++ (whole ++ '.' :: fraction) ∧
      double? (mark ++ (whole ++ '.' :: fraction)) = some x := by
  have top : x.toBits.toNat < 2 ^ 64 := x.toBits.toNat_lt
  obtain ⟨whole, fraction, n, y, pointed, text, read, unsigned, same⟩ := exists_pointed_text finite
  obtain ⟨c, l, begins, digit⟩ := pointed.exists_head
  refine ⟨if x.toBits.toNat / 2 ^ 63 = 1 then ['-'] else [], whole, fraction, n, ?_, pointed, ?_, ?_⟩
  · split
    · exact .inr rfl
    · exact .inl rfl
  · rw [floatText, number, text]
    rfl
  · rw [magnitude, magnitude] at same
    split
    · have opposite : -y = x := eq_of_toBits (by
        rw [toBits_neg unsigned (by unfold magnitude at *; omega)]
        omega)
      rw [List.singleton_append, double?, read, Option.map_some, opposite]
    · obtain rfl : y = x := eq_of_toBits (by omega)
      have noPlus : c ≠ '+' := by
        rintro rfl
        cases digit
      have noMinus : c ≠ '-' := by
        rintro rfl
        cases digit
      rw [← read, List.nil_append, begins]
      simp [double?, noPlus, noMinus]
/-! What is no finite number has a word. -/

theorem floatText_infinity : floatText (1.0 / 0.0) = "inf".toList := rfl

theorem floatText_neg_infinity : floatText (-(1.0 / 0.0)) = "-inf".toList := rfl

theorem floatText_nan : floatText (0.0 / 0.0) = "nan".toList := rfl

/-- A float is read as itself. -/
theorem number?_floatText (x : Float) :
    number? (floatText x ++ '\n' :: r) = some (.float x, '\n' :: r) := by
  obtain ⟨finite, number⟩ | rfl | rfl | rfl := finite_or_special x
  · obtain ⟨mark, whole, fraction, n, signed, pointed, text, read⟩ := exists_floatText finite number
    have noInfinity := not_beq_infinity finite
    rw [text, number?, digitFloat?_pointed pointed signed]
    simp [read, noInfinity]
  · rw [floatText_infinity]
    rfl
  · rw [floatText_neg_infinity]
    rfl
  · rw [floatText_nan]
    rfl

/-! ## Integers -/

theorem decimal_begins (n : ℕ) :
    (decimal n = ['0'] ∨ ∃ c l, decimal n = c :: l ∧ c ≠ '0') ∧
      ∃ c l, decimal n = c :: l ∧ isDecimal c = true := by
  have digits := isDigit_of_digitsFrom? (digitsFrom?_decimal n)
  rcases Nat.eq_zero_or_pos n with rfl | pos
  · have text : decimal 0 = ['0'] := by
      rw [decimal]
      rfl
    exact ⟨.inl text, '0', [], text, by decide⟩
  · obtain ⟨c, l, text, lead⟩ := decimal_lead pos
    exact ⟨.inr ⟨c, l, text, lead⟩, c, l, text, digits c (by simp [text])⟩

theorem digits?_decimal (n : ℕ) : digits? (decimal n) = some n := by
  have read := digitsFrom?_decimal n
  obtain ⟨-, c, l, text, -⟩ := decimal_begins n
  rw [text] at read ⊢
  exact read

/-- The text of an integer is the text of a natural number, with a minus for those below zero. -/
theorem exists_intText (z : ℤ) : ∃ mark n, (mark = [] ∨ mark = ['-']) ∧
    (intText z).toList = mark ++ decimal n ∧
    (-(Nat.pow 2 63 : ℤ) ≤ z ∧ z < Nat.pow 2 63 → signed? 64 (mark ++ decimal n) = some z) := by
  cases z with
  | ofNat n =>
      refine ⟨[], n, .inl rfl, by simp [intText, natText], fun fits => ?_⟩
      obtain ⟨-, c, l, text, digit⟩ := decimal_begins n
      have read := digits?_decimal n
      have noPlus : c ≠ '+' := by
        rintro rfl
        cases digit
      have noMinus : c ≠ '-' := by
        rintro rfl
        cases digit
      refine Option.filter_eq_some_iff.2 ⟨?_, by simpa using fits⟩
      rw [List.nil_append]
      split
      · rename_i same
        exact absurd (List.cons.inj (text.symm.trans same)).1 noMinus
      · rename_i same
        exact absurd (List.cons.inj (text.symm.trans same)).1 noPlus
      · rw [read]
        rfl
  | negSucc n =>
      refine ⟨['-'], n + 1, .inr rfl, by simp [intText, natText], fun fits => ?_⟩
      refine Option.filter_eq_some_iff.2 ⟨?_, by simpa using fits⟩
      simp only [List.singleton_append, digits?_decimal]
      rfl

/-- No decimal text begins like one of another radix. -/
theorem ne_radix (signed : mark = [] ∨ mark = ['-']) (n : ℕ) {c : Char} (letter : c ≠ '\n')
    (s : List Char) : mark ++ (decimal n ++ '\n' :: r) ≠ '0' :: c :: s := by
  intro same
  obtain rfl | rfl := signed
  · obtain ⟨zero | ⟨d, l, text, nonzero⟩, -⟩ := decimal_begins n
    · rw [zero] at same
      exact letter (List.cons.inj (List.cons.inj same).2).1.symm
    · rw [text] at same
      exact nonzero (List.cons.inj same).1
  · exact absurd (List.cons.inj same).1 (by decide)

/-- An integer that fits is read as itself. -/
theorem number?_intText {z : ℤ} (fits : -(Nat.pow 2 63 : ℤ) ≤ z ∧ z < Nat.pow 2 63) :
    number? ((intText z).toList ++ '\n' :: r) = some (.integer z, '\n' :: r) := by
  obtain ⟨mark, n, signed, text, read⟩ := exists_intText z
  obtain ⟨lead, c, l, begins, digit⟩ := decimal_begins n
  have noLetter : c ≠ 'i' ∧ c ≠ 'n' ∧ c ≠ '-' := by
    refine ⟨?_, ?_, ?_⟩ <;>
    · rintro rfl
      cases digit
  have marked := sign_append (s := decimal n ++ '\n' :: r) signed ⟨c, _, by rw [begins]; rfl, digit⟩
  have taken := whole?_append (r := '\n' :: r) (digitsFrom?_decimal n) lead (by simp [isDecimal])
  have noFloat : digitFloat? (mark ++ (decimal n ++ '\n' :: r)) = none := by
    simp [digitFloat?, marked, taken, floatTail?, exponent?]
  have noWord : specialFloat? (mark ++ (decimal n ++ '\n' :: r)) = none := by
    rw [specialFloat?, marked, begins]
    simp [Json.after?, noLetter.1.symm, noLetter.2.1.symm]
  rw [text, List.append_assoc, number?, noFloat, noWord, integer?.eq_def]
  dsimp only
  split
  · rename_i radix
    exact absurd radix (ne_radix signed n (by decide) _)
  · rename_i radix
    exact absurd radix (ne_radix signed n (by decide) _)
  · rename_i radix
    exact absurd radix (ne_radix signed n (by decide) _)
  · simp [marked, taken, read fits]

/-! ## No date -/

/-- A field of a date is taken from the text before the end of its line. -/
theorem field?_before_newline {places low high n : ℕ} {l s : List Char}
    (h : field? places low high (l ++ '\n' :: r) = some (n, s)) : s = l.drop places ++ '\n' :: r := by
  unfold field? at h
  simp only [Option.bind_eq_bind] at h
  split at h
  · cases h
  · rename_i enough
    obtain ⟨m, digits, h⟩ := Option.bind_eq_some_iff.1 h
    split at h
    · have rest : (l ++ '\n' :: r).drop places = s := congrArg Prod.snd (Option.some.inj h)
      rw [← rest, List.drop_append]
      rcases Nat.lt_or_ge l.length places with short | long
      · -- the end of the line would be one of the digits
        have member : '\n' ∈ (l ++ '\n' :: r).take places := by
          obtain ⟨d, hd⟩ : ∃ d, places - l.length = d + 1 := ⟨_, (Nat.succ_pred_eq_of_pos (by omega)).symm⟩
          rw [List.take_append, hd]
          simp
        have digits' : digitsFrom? 0 ((l ++ '\n' :: r).take places) = some m := by
          unfold digits? at digits
          split at digits
          · cases digits
          · rename_i same
            rwa [same]
        exact absurd (isDigit_of_digitsFrom? digits' _ member) (by decide)
      · rw [Nat.sub_eq_zero_of_le long, List.drop_zero]
    · cases h

theorem mem_of_after? {c : Char} {l s : List Char} (other : c ≠ '\n')
    (h : Json.after? [c] (l ++ '\n' :: r) = some s) : c ∈ l := by
  cases l with
  | nil => simp [Json.after?, other] at h
  | cons d l =>
      simp only [List.cons_append, Json.after?] at h
      split at h
      · rename_i same
        simp [same]
      · cases h

/-- A line without a colon, and with no minus but in front, begins with no date. -/
theorem date?_eq_none {l : List Char} (noColon : ':' ∉ l) (noMinus : '-' ∉ l.tail) :
    date? (l ++ '\n' :: r) = none := by
  have noDay : day? (l ++ '\n' :: r) = none := by
    refine Option.eq_none_iff_forall_ne_some.2 fun rest h => ?_
    obtain ⟨⟨year, s⟩, first, h⟩ := Option.bind_eq_some_iff.1 h
    obtain rfl := field?_before_newline first
    obtain ⟨s, minus, -⟩ := Option.bind_eq_some_iff.1 h
    have member := mem_of_after? (by decide) minus
    rw [← List.drop_one] at noMinus
    exact noMinus (List.drop_subset_drop_left l (by decide) member)
  have noTime : time? (l ++ '\n' :: r) = none := by
    refine Option.eq_none_iff_forall_ne_some.2 fun rest h => ?_
    obtain ⟨⟨hour, s⟩, first, h⟩ := Option.bind_eq_some_iff.1 h
    obtain rfl := field?_before_newline first
    obtain ⟨s, colon, -⟩ := Option.bind_eq_some_iff.1 h
    exact noColon (List.mem_of_mem_drop (mem_of_after? (by decide) colon))
  rw [date?, skipDate?, noDay, noTime]
  rfl

/-- A text that begins like a number and cannot be a date. -/
structure IsNumeric (l : List Char) : Prop where
  begins : ∃ c s, l = c :: s ∧ (isDecimal c = true ∨ c ∈ ['-', 'i', 'n'])
  noColon : ':' ∉ l
  noMinus : '-' ∉ l.tail

theorem IsNumeric.of_digits {l : List Char} (signed : mark = [] ∨ mark = ['-'])
    (begins : ∃ c s, l = c :: s ∧ isDecimal c = true) (all : ∀ c ∈ l, isDecimal c = true ∨ c = '.') :
    IsNumeric (mark ++ l) := by
  have noColon : ':' ∉ l := fun member => absurd (all _ member) (by decide)
  have noMinus : '-' ∉ l := fun member => absurd (all _ member) (by decide)
  obtain ⟨c, s, rfl, digit⟩ := begins
  obtain rfl | rfl := signed
  · exact ⟨⟨c, s, rfl, .inl digit⟩, noColon, fun member => noMinus (List.mem_cons_of_mem c member)⟩
  · exact ⟨⟨'-', c :: s, rfl, .inr (by simp)⟩, by simpa using noColon, noMinus⟩

theorem isNumeric_floatText (x : Float) : IsNumeric (floatText x) := by
  obtain ⟨finite, number⟩ | rfl | rfl | rfl := finite_or_special x
  · obtain ⟨mark, whole, fraction, n, signed, pointed, text, -⟩ := exists_floatText finite number
    have digits := isDigit_of_digitsFrom? pointed.digits
    obtain ⟨c, l, begins, digit⟩ := pointed.exists_head
    rw [text]
    refine .of_digits signed ⟨c, _, by rw [begins]; rfl, digit⟩ fun d member => ?_
    rw [List.mem_append, List.mem_cons] at member
    rcases member with front | rfl | back
    · exact .inl (digits d (List.mem_append_left _ front))
    · exact .inr rfl
    · exact .inl (digits d (List.mem_append_right _ back))
  · rw [floatText_infinity]
    exact ⟨⟨'i', _, rfl, by decide⟩, by decide, by decide⟩
  · rw [floatText_neg_infinity]
    exact ⟨⟨'-', _, rfl, by decide⟩, by decide, by decide⟩
  · rw [floatText_nan]
    exact ⟨⟨'n', _, rfl, by decide⟩, by decide, by decide⟩

theorem isNumeric_intText (z : ℤ) : IsNumeric (intText z).toList := by
  obtain ⟨mark, n, signed, text, -⟩ := exists_intText z
  have digits := isDigit_of_digitsFrom? (digitsFrom?_decimal n)
  rw [text]
  exact .of_digits signed (decimal_begins n).2 fun c member => .inl (digits c member)

end Combo.Toml
