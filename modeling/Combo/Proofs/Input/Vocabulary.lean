-- SUMMARY: The names of keys as a relation of their own, and the exact texts that are read as a key.
import Mathlib.Data.List.Nodup
import Combo.Input.Key
import Combo.Proofs.Number.Integer

/-!
# Key names

`Key.IsNamed` lists the names: single letters and digits, the vocabulary, and `f1` to
`f12`. Function keys are read by the general reader of unsigned numerals, which takes a
plus sign and zeros in front of the number; `Key.IsPadded` lists what is read because of
that. Every other text is refused, and the error quotes it as it was given.
-/

namespace Combo.Key

/-- A name of a key, in lower case. -/
inductive IsNamed : List Char → Key → Prop
  | single (c : Char) (ascii : c.isAlphanum = true) : IsNamed [c] (.code c.toUpper.toNat)
  | listed (name : String) (key : Key) (mem : (name, key) ∈ vocabulary) : IsNamed name.toList key
  | function (n : Nat) (least : 1 ≤ n) (most : n ≤ 12) :
      IsNamed ('f' :: Number.decimal n) (.code (0x6F + n))

/-- The numeral of a function key with what may stand in front of its number. -/
def padded (plus : Bool) (zeros n : Nat) : List Char :=
  (if plus then ['+'] else []) ++ List.replicate zeros '0' ++ Number.decimal n

/-- A function key whose number has a plus sign or zeros in front. -/
inductive IsPadded : List Char → Key → Prop
  | function (plus : Bool) (zeros n : Nat) (more : plus = true ∨ 0 < zeros) (least : 1 ≤ n)
      (most : n ≤ 12) : IsPadded ('f' :: padded plus zeros n) (.code (0x6F + n))

/-! ## The vocabulary -/

/-- No name is listed twice, and none is a single letter or begins like a function key. -/
theorem vocabulary_apart :
    (vocabulary.map fun entry => entry.1.toList).Nodup ∧
      ∀ entry ∈ vocabulary, 2 ≤ entry.1.toList.length ∧ entry.1.toList.head? ≠ some 'f' := by
  decide

theorem of_find?_vocabulary {word : List Char} {entry : String × Key}
    (h : vocabulary.find? (fun entry => entry.1.toList == word) = some entry) :
    entry ∈ vocabulary ∧ entry.1.toList = word :=
  ⟨List.mem_of_find?_eq_some h, by simpa using List.find?_some h⟩

/-- A listed name is found with its key. -/
theorem find?_vocabulary_of_mem {name : String} {key : Key} (h : (name, key) ∈ vocabulary) :
    vocabulary.find? (fun entry => entry.1.toList == name.toList) = some (name, key) := by
  cases found : vocabulary.find? (fun entry => entry.1.toList == name.toList) with
  | none => exact absurd (List.find?_eq_none.1 found _ h) (by simp)
  | some entry =>
      obtain ⟨mem, same⟩ := of_find?_vocabulary found
      rw [List.inj_on_of_nodup_map vocabulary_apart.1 mem h same]

/-- A single letter, and what begins like a function key, is not listed. -/
theorem find?_vocabulary_eq_none (word : List Char)
    (h : word.length ≤ 1 ∨ word.head? = some 'f') :
    vocabulary.find? (fun entry => entry.1.toList == word) = none := by
  rw [List.find?_eq_none]
  intro entry mem same
  obtain rfl : entry.1.toList = word := by simpa using same
  obtain ⟨long, other⟩ := vocabulary_apart.2 entry mem
  rcases h with short | f
  · omega
  · exact other f

/-! ## Function keys -/

/-- The numerals of a positive number are its digits, and those with zeros and a plus sign in front. -/
theorem unsigned?_eq_some_iff (max : Nat) {n : Nat} (pos : 0 < n) (le : n ≤ max) (numeral : List Char) :
    Number.unsigned? max numeral = some n ↔ ∃ plus zeros, numeral = padded plus zeros n := by
  have noDigit : Number.digit? '+' = none := by decide
  unfold Number.unsigned?
  rw [Option.filter_eq_some_iff]
  constructor
  · rintro ⟨read, -⟩
    split at read
    · obtain ⟨zeros, rfl⟩ := (Number.digits?_eq_some_iff pos _).1 read
      exact ⟨true, zeros, rfl⟩
    · obtain ⟨zeros, rfl⟩ := (Number.digits?_eq_some_iff pos _).1 read
      exact ⟨false, zeros, rfl⟩
  · rintro ⟨plus, zeros, rfl⟩
    have read := (Number.digits?_eq_some_iff pos _).2 ⟨zeros, rfl⟩
    refine ⟨?_, by simpa using le⟩
    cases plus with
    | true => exact read
    | false =>
        rw [padded, if_neg Bool.false_ne_true, List.nil_append]
        split
        · rename_i r text
          rw [text] at read
          simp [Number.digits?, Number.digitsFrom?, noDigit] at read
        · exact read

theorem functionKey?_eq_some_iff (numeral : List Char) (key : Key) :
    functionKey? numeral = some key ↔
      ∃ plus zeros n, 1 ≤ n ∧ n ≤ 12 ∧ numeral = padded plus zeros n ∧ key = .code (0x6F + n) := by
  have read {n : Nat} (least : 1 ≤ n) (most : n ≤ 12) :=
    unsigned?_eq_some_iff (Number.wordMax 16) least (Nat.le_trans most (by decide)) numeral
  unfold functionKey?
  constructor
  · intro h
    split at h
    · rename_i n value
      split at h
      · rename_i range
        obtain ⟨plus, zeros, rfl⟩ := (read range.1 range.2).1 value
        exact ⟨plus, zeros, n, range.1, range.2, rfl, (Option.some.inj h).symm⟩
      · cases h
    · cases h
  · rintro ⟨plus, zeros, n, least, most, rfl, rfl⟩
    rw [(read least most).2 ⟨plus, zeros, rfl⟩]
    exact if_pos ⟨least, most⟩

/-! ## All names -/

/-- What is not listed and is read is a letter, a digit or a function key. -/
theorem of_ofSpelling? {word : List Char} {key : Key} (h : ofSpelling? word = some key) :
    IsNamed word key ∨ IsPadded word key := by
  unfold ofSpelling? at h
  split at h
  · rename_i c
    split at h
    · rename_i ascii
      cases h
      exact .inl (.single c ascii)
    · cases h
  · rename_i numeral _
    obtain ⟨plus, zeros, n, least, most, rfl, rfl⟩ := (functionKey?_eq_some_iff numeral key).1 h
    by_cases more : plus = true ∨ 0 < zeros
    · exact .inr (.function plus zeros n more least most)
    · -- nothing stands in front of the number
      obtain ⟨rfl, rfl⟩ : plus = false ∧ zeros = 0 := by simpa using more
      exact .inl (.function n least most)
  · cases h

theorem ofSpelling?_function (plus : Bool) (zeros : Nat) {n : Nat} (least : 1 ≤ n) (most : n ≤ 12) :
    ofSpelling? ('f' :: padded plus zeros n) = some (.code (0x6F + n)) := by
  have read := (functionKey?_eq_some_iff (padded plus zeros n) (.code (0x6F + n))).2
    ⟨plus, zeros, n, least, most, rfl, rfl⟩
  cases text : padded plus zeros n with
  | nil =>
      rw [text] at read
      cases read
  | cons c r => rwa [text] at read

/-- A text is looked up first, and else taken as a spelling. -/
theorem ofName?_eq (s : String) :
    ofName? s = (vocabulary.find? fun entry => entry.1.toList == fold s).elim (ofSpelling? (fold s))
      fun entry => some entry.2 := by
  unfold ofName?
  split
  · rename_i found
    rw [found, Option.elim_some]
  · rename_i missing
    rw [missing, Option.elim_none]

/-- A text is read as a key just when it spells a name of the key, or pads the number of a function key. -/
theorem ofName?_eq_some_iff (s : String) (key : Key) :
    ofName? s = some key ↔ IsNamed (fold s) key ∨ IsPadded (fold s) key := by
  rw [ofName?_eq]
  generalize fold s = word
  constructor
  · intro h
    cases found : vocabulary.find? fun entry => entry.1.toList == word with
    | none =>
        rw [found] at h
        exact of_ofSpelling? h
    | some entry =>
        rw [found] at h
        obtain ⟨mem, rfl⟩ := of_find?_vocabulary found
        cases h
        exact .inl (.listed entry.1 entry.2 mem)
  · have function (plus : Bool) (zeros : Nat) {n : Nat} (least : 1 ≤ n) (most : n ≤ 12) :
        (vocabulary.find? fun entry => entry.1.toList == 'f' :: padded plus zeros n).elim
          (ofSpelling? ('f' :: padded plus zeros n)) (fun entry => some entry.2) =
            some (.code (0x6F + n)) := by
      rw [find?_vocabulary_eq_none _ (.inr rfl)]
      exact ofSpelling?_function plus zeros least most
    rintro (named | padded)
    · cases named with
      | single c ascii =>
          rw [find?_vocabulary_eq_none [c] (.inl (Nat.le_refl 1))]
          exact if_pos ascii
      | listed name key mem => rw [find?_vocabulary_of_mem mem, Option.elim_some]
      | function n least most => exact function false 0 least most
    · cases padded with
      | function plus zeros n more least most => exact function plus zeros least most

/-- A number with anything in front of it is not the text of a number. -/
theorem padded_ne_decimal {plus : Bool} {zeros n : Nat} (more : plus = true ∨ 0 < zeros)
    (m : Nat) : padded plus zeros n ≠ Number.decimal m := by
  intro same
  have read := Number.digitsFrom?_decimal m
  rw [← same] at read
  cases plus with
  | true =>
      have noDigit : Number.digit? '+' = none := by decide
      simp [padded, Number.digitsFrom?, noDigit] at read
  | false =>
      have zerosPos : 0 < zeros := by simpa using more
      rw [padded, if_neg Bool.false_ne_true, List.nil_append] at read same
      rw [Number.digitsFrom?_zeros, Number.digitsFrom?_decimal] at read
      obtain rfl : n = m := Option.some.inj read
      have lengths := congrArg List.length same
      rw [List.length_append, List.length_replicate] at lengths
      omega

/-- What is padded is no name of any key. -/
theorem IsPadded.not_isNamed {word : List Char} {key : Key} (h : IsPadded word key) (key' : Key) :
    ¬ IsNamed word key' := by
  obtain ⟨plus, zeros, n, more, least, most⟩ := h
  intro named
  generalize text : 'f' :: padded plus zeros n = word at named
  cases named with
  | single c ascii =>
      have nothing : padded plus zeros n = [] := (List.cons.inj text).2
      have read := ofSpelling?_function plus zeros least most
      have letter : ofSpelling? ['f'] = some (.code 0x46) := rfl
      rw [nothing, letter] at read
      injection read with code
      injection code
      omega
  | listed name key mem =>
      have head := congrArg List.head? text
      exact (vocabulary_apart.2 _ mem).2 head.symm
  | function m =>
      exact padded_ne_decimal more m (List.cons.inj text).2

/--
Names of keys are read as the keys they name, and so are function keys whose number has a plus sign
or zeros in front, which are no names. Every other text is refused with the text itself.
-/
theorem read_names (s : String) :
    (∀ key, ofName s = .ok key ↔ IsNamed (fold s) key ∨ IsPadded (fold s) key) ∧
      (∀ key key', ¬ (IsPadded (fold s) key ∧ IsNamed (fold s) key')) ∧
      ((∀ key, ¬ IsNamed (fold s) key ∧ ¬ IsPadded (fold s) key) ↔
        ofName s = .error (.unknownKey s)) := by
  refine ⟨fun key => ?_, fun key key' h => h.1.not_isNamed key' h.2, ?_⟩
  · rw [← ofName?_eq_some_iff, ofName]
    cases ofName? s <;> simp
  · simp only [← not_or, ← ofName?_eq_some_iff]
    rw [ofName]
    cases ofName? s <;> simp

example : ofName "F+012" = .ok (.code 0x7B) ∧ ofName " rMB\n" = .ok .mouseRight := by decide

end Combo.Key
