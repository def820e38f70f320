-- SUMMARY: TOML documents: what is written from sections of scalars is read back as the record of the sections.
import Combo.Datum.Toml.Document
import Combo.Proofs.Datum.Toml.Number
import Combo.Proofs.Datum.Toml.Quote

/-!
# TOML documents

A document of sections is a row of lines: a header for each section, and an assignment for
each field. Every line is read by itself, and the tree of tables grows by a table or by a
field at its end.
-/

namespace Combo.Toml

open Number

variable {r : List Char}

/-! ## Scalars -/

theorem quote_begins (text : String) : ∃ c l, quote text = c :: l ∧ (c = '"' ∨ c = '\'') := by
  have mark (form : Form) : ∃ c l, form.mark = c :: l ∧ (c = '"' ∨ c = '\'') := by
    cases form with
    | basic => exact ⟨'"', [], rfl, .inl rfl⟩
    | literal => exact ⟨'\'', [], rfl, .inr rfl⟩
    | multiBasic => exact ⟨'"', ['"', '"'], rfl, .inl rfl⟩
    | multiLiteral => exact ⟨'\'', ['\'', '\''], rfl, .inr rfl⟩
  obtain ⟨c, l, begins, either⟩ := mark (Form.for text.toList)
  have text_eq : ∃ rest, quote text = (Form.for text.toList).mark ++ rest := by
    rw [quote]
    exact ⟨_, by rw [List.append_assoc, List.append_assoc]⟩
  obtain ⟨rest, text_eq⟩ := text_eq
  exact ⟨c, l ++ rest, by rw [text_eq, begins]; rfl, either⟩

/-- What begins like a number is read as one. -/
theorem value?_of_isNumeric {l : List Char} (numeric : IsNumeric l) (fuel depth : ℕ) :
    value? fuel (depth + 1) (l ++ '\n' :: r) = number? (l ++ '\n' :: r) := by
  have noDate := date?_eq_none (r := r) numeric.noColon numeric.noMinus
  obtain ⟨c, s, rfl, begins⟩ := numeric.begins
  have other : c ≠ '"' ∧ c ≠ '\'' ∧ c ≠ '[' ∧ c ≠ '\x7b' ∧ c ≠ 't' ∧ c ≠ 'f' := by
    refine ⟨?_, ?_, ?_, ?_, ?_, ?_⟩ <;>
    · rintro rfl
      exact absurd begins (by decide)
  rw [List.cons_append] at *
  rw [value?]
  simp only [other, or_self, if_false, noDate]

/-- A number does not begin with a space. -/
theorem IsNumeric.exists_visible {l : List Char} (numeric : IsNumeric l) :
    ∃ c s, l = c :: s ∧ isSpace c = false := by
  obtain ⟨c, s, rfl, begins⟩ := numeric.begins
  refine ⟨c, s, rfl, Bool.eq_false_iff.2 fun space => ?_⟩
  simp only [isSpace, Bool.or_eq_true, beq_iff_eq] at space
  obtain rfl | rfl := space
  · exact absurd begins (by decide)
  · exact absurd begins (by decide)

theorem value?_false (fuel depth : Nat) :
    value? fuel (depth + 1) ("false".toList ++ r) = some (.bool false, r) := by
  change value? fuel (depth + 1) ('f' :: "alse".toList ++ r) = _
  rw [List.cons_append, value?]
  rfl

theorem value?_true (fuel depth : Nat) :
    value? fuel (depth + 1) ("true".toList ++ r) = some (.bool true, r) := by
  change value? fuel (depth + 1) ('t' :: "rue".toList ++ r) = _
  rw [List.cons_append, value?]
  rfl

/-- A quoted text is read back as a value. -/
theorem value?_quote (s : String) (stop : ∀ d ∈ r.head?, d ≠ '"' ∧ d ≠ '\'') (fuel depth : Nat) :
    value? fuel (depth + 1) (quote s ++ r) = some (.string s, r) := by
  obtain ⟨c, l, begins, mark⟩ := quote_begins s
  have read := string?_quote s stop
  rw [begins, List.cons_append] at read ⊢
  rw [value?]
  simp [mark, read]

/-- A scalar is read back, and its text begins with no space. -/
theorem value?_scalar? {d : Datum} {text : List Char} (written : scalar? d = some text) :
    (∃ c l, text = c :: l ∧ isSpace c = false) ∧
      ∀ fuel depth, value? fuel (depth + 1) (text ++ '\n' :: r) = some (d, '\n' :: r) := by
  cases d with
  | null => cases written
  | list items => cases written
  | record fields => cases written
  | bool b =>
      cases b with
      | false =>
          obtain rfl := Option.some.inj written
          exact ⟨⟨'f', _, rfl, by decide⟩, value?_false⟩
      | true =>
          obtain rfl := Option.some.inj written
          exact ⟨⟨'t', _, rfl, by decide⟩, value?_true⟩
  | integer z =>
      rw [scalar?] at written
      split at written
      · rename_i fits
        obtain rfl := Option.some.inj written
        refine ⟨(isNumeric_intText z).exists_visible, fun fuel depth => ?_⟩
        rw [value?_of_isNumeric (isNumeric_intText z), number?_intText fits]
      · cases written
  | float x =>
      obtain rfl := Option.some.inj written
      refine ⟨(isNumeric_floatText x).exists_visible, fun fuel depth => ?_⟩
      rw [value?_of_isNumeric (isNumeric_floatText x), number?_floatText]
  | string s =>
      obtain rfl := Option.some.inj written
      obtain ⟨c, l, begins, mark⟩ := quote_begins s
      refine ⟨⟨c, l, begins, ?_⟩, value?_quote s (by simp)⟩
      obtain rfl | rfl := mark
      · decide
      · decide

/-! ## Names -/

/-- A name that is written without quotes. -/
def IsBareName (name : String) : Prop := name.toList ≠ [] ∧ ∀ c ∈ name.toList, isBare c = true

instance (name : String) : Decidable (IsBareName name) :=
  decidable_of_iff (name.toList ≠ [] ∧ name.toList.all isBare = true) (by rw [List.all_eq_true, IsBareName])

theorem IsBareName.exists_head {name : String} (h : IsBareName name) :
    ∃ c l, name.toList = c :: l ∧ isBare c = true := by
  obtain ⟨some, bare⟩ := h
  cases text : name.toList with
  | nil => exact absurd text some
  | cons c l => exact ⟨c, l, rfl, bare c (by simp [text])⟩

theorem ne_of_isBare {c : Char} (bare : isBare c = true) : c ≠ ' ' ∧ c ≠ '\t' ∧ c ≠ '"' ∧ c ≠ '\'' := by
  refine ⟨?_, ?_, ?_, ?_⟩ <;>
  · rintro rfl
    cases bare

/-- A bare name ends where no character of a name comes next. -/
theorem simpleKey?_bare {name : String} (bare : IsBareName name)
    (stop : ∀ c ∈ r.head?, isBare c = false) : simpleKey? (name.toList ++ r) = some (name, r) := by
  obtain ⟨c, l, text, first⟩ := bare.exists_head
  obtain ⟨-, -, noDouble, noSingle⟩ := ne_of_isBare first
  have cut : (name.toList ++ r).span isBare = (name.toList, r) := by
    rw [List.span_eq_takeWhile_dropWhile, List.takeWhile_append_of_pos bare.2,
      List.dropWhile_append_of_pos bare.2]
    cases r with
    | nil => simp
    | cons d r => simp [stop d rfl]
  unfold simpleKey?
  split
  · rename_i same
    rw [text] at same
    exact absurd (List.cons.inj same).1 noDouble
  · rename_i same
    rw [text] at same
    exact absurd (List.cons.inj same).1 noSingle
  · rw [cut]
    simp [bare.1]

/-- A bare name is a key of one part. -/
theorem key?_bare {name : String} (bare : IsBareName name) (stop : ∀ c ∈ r.head?, isBare c = false)
    (noDot : ∀ c ∈ (skipSpaces r).head?, c ≠ '.') :
    key? (name.toList ++ r) = some ([name], skipSpaces r) := by
  obtain ⟨c, l, text, first⟩ := bare.exists_head
  have begins : skipSpaces (name.toList ++ r) = name.toList ++ r := by
    rw [text]
    simp [skipSpaces, isSpace, ne_of_isBare first]
  obtain ⟨n, long⟩ : ∃ n, (name.toList ++ r).length = n + 1 := ⟨(l ++ r).length, by rw [text]; rfl⟩
  have path : path? (name.toList ++ r).length (name.toList ++ r) = some ([name], skipSpaces r) := by
    rw [long, path?, begins, simpleKey?_bare bare stop]
    simp only [Option.bind_eq_bind, Option.bind_some]
    split
    · rename_i same
      rw [same] at noDot
      exact absurd rfl (noDot '.' rfl)
    · rfl
  rw [key?, path]
  rfl

/-! ## Lines -/

/-- A text that is read as these lines, with fuel for each of its characters. -/
def ReadsLines (s : List Char) (lines : List Line) : Prop :=
  ∀ fuel, s.length < fuel → lines? fuel s = some lines

theorem readsLines_nil : ReadsLines [] [] := by
  intro fuel enough
  obtain ⟨fuel, rfl⟩ := Nat.exists_eq_add_of_lt enough
  simp [lines?, skipLines]

/-- A line before the others. -/
theorem ReadsLines.cons {l : List Char} {line : Line} {lines : List Line} (rest : ReadsLines r lines)
    (begins : ∃ c s, l = c :: s ∧ (isBare c = true ∨ c = '['))
    (first : line? (l ++ '\n' :: r) = some (line, '\n' :: r)) :
    ReadsLines (l ++ '\n' :: r) (line :: lines) := by
  obtain ⟨c, s, rfl, kind⟩ := begins
  have other : c ≠ ' ' ∧ c ≠ '\t' ∧ c ≠ '#' ∧ c ≠ '\n' ∧ c ≠ '\r' := by
    refine ⟨?_, ?_, ?_, ?_, ?_⟩ <;>
    · rintro rfl
      exact absurd kind (by decide)
  have skipped (n : ℕ) : skipLines n (c :: s ++ '\n' :: r) = c :: s ++ '\n' :: r := by
    cases n with
    | zero => rfl
    | succ n => simp [skipLines, skipSpaces, isSpace, skipComment, newline?, other]
  have ended : lineEnd? ('\n' :: r) = some r := rfl
  intro fuel enough
  obtain ⟨fuel, rfl⟩ : ∃ f, fuel = f + 1 := ⟨_, (Nat.succ_pred_eq_of_pos (by omega)).symm⟩
  have shorter : r.length < fuel := by
    simp only [List.length_append, List.length_cons] at enough
    omega
  rw [lines?, skipped]
  rw [List.cons_append] at first ⊢
  simp [first, ended, rest fuel shorter]

/-- A blank line changes nothing. -/
theorem ReadsLines.blank {lines : List Line} (rest : ReadsLines r lines) :
    ReadsLines ('\n' :: r) lines := by
  intro fuel enough
  obtain ⟨fuel, rfl⟩ : ∃ f, fuel = f + 1 := ⟨_, (Nat.succ_pred_eq_of_pos (by omega)).symm⟩
  have shorter : r.length < fuel + 1 := by
    rw [List.length_cons] at enough
    omega
  have next : skipLines (r.length + 1) ('\n' :: r) = skipLines r.length r := rfl
  have read := rest (fuel + 1) shorter
  rw [lines?] at read ⊢
  rw [List.length_cons, next]
  exact read

/-- A header is read as one. -/
theorem line?_header {name : String} (bare : IsBareName name) :
    line? ('[' :: name.toList ++ [']'] ++ '\n' :: r) = some (.header [name], '\n' :: r) := by
  obtain ⟨c, l, text, first⟩ := bare.exists_head
  have key := key?_bare (r := ']' :: '\n' :: r) bare (by simp [isBare]) (by simp [skipSpaces, isSpace])
  have shape : '[' :: name.toList ++ [']'] ++ '\n' :: r = '[' :: (name.toList ++ ']' :: '\n' :: r) := by
    simp
  rw [shape]
  unfold line?
  split
  · rename_i same
    rw [text] at same
    rw [(List.cons.inj (List.cons.inj same).2).1] at first
    cases first
  · rename_i same
    rw [← (List.cons.inj same).2, key]
    rfl
  · rename_i noBracket
    exact absurd rfl (noBracket _)

/-- An assignment of a scalar is read as one. -/
theorem line?_assignment {name : String} (bare : IsBareName name) {d : Datum} {text : List Char}
    (written : scalar? d = some text) :
    line? (name.toList ++ " = ".toList ++ text ++ '\n' :: r) = some (.assignment [name] d, '\n' :: r) := by
  obtain ⟨c, l, begin_text, first⟩ := bare.exists_head
  obtain ⟨⟨b, s, value_text, visible⟩, value⟩ := value?_scalar? (r := r) written
  have after : skipSpaces (" = ".toList ++ text ++ '\n' :: r) = '=' :: ' ' :: (text ++ '\n' :: r) := by
    simp [skipSpaces, isSpace]
  have begins : skipSpaces (' ' :: (text ++ '\n' :: r)) = text ++ '\n' :: r := by
    rw [value_text]
    simp [skipSpaces, visible, show isSpace ' ' = true from rfl]
  have key := key?_bare (r := " = ".toList ++ text ++ '\n' :: r) bare (by simp; decide)
    (by rw [after]; simp)
  have shape : name.toList ++ " = ".toList ++ text ++ '\n' :: r =
      name.toList ++ (" = ".toList ++ text ++ '\n' :: r) := by simp
  rw [shape]
  unfold line?
  split
  · rename_i same
    rw [begin_text] at same
    rw [(List.cons.inj same).1] at first
    cases first
  · rename_i same
    rw [begin_text] at same
    rw [(List.cons.inj same).1] at first
    cases first
  · rw [key, after]
    simp [Json.after?, begins, value _ 79, depthLimit]

/-! ## Sections -/

theorem fieldData_values (fields : List (String × Datum)) :
    fieldData (fields.map fun (name, d) => (name, .value d)) = fields := by
  induction fields with
  | nil => rfl
  | cons field fields ih => simp [fieldData, Node.datum, ih]

/-- Sections whose names, and those of their fields, are bare and different. -/
structure IsDocument (sections : List (String × List (String × Datum))) : Prop where
  names : (sections.map Prod.fst).Nodup
  bare : ∀ part ∈ sections, IsBareName part.1
  fieldNames : ∀ part ∈ sections, (part.2.map Prod.fst).Nodup
  bareFields : ∀ part ∈ sections, ∀ field ∈ part.2, IsBareName field.1

/-- The lines of a section. -/
def sectionLines (part : String × List (String × Datum)) : List Line :=
  .header [part.1] :: part.2.map fun (name, d) => .assignment [name] d

/-- The fields of a section are read before what follows. -/
theorem readsLines_fields {fields : List (String × Datum)} {text : List Char} {lines : List Line}
    (bare : ∀ field ∈ fields, IsBareName field.1) (written : fieldLines? fields = some text)
    (rest : ReadsLines r lines) :
    ReadsLines (text ++ r) ((fields.map fun (name, d) => .assignment [name] d) ++ lines) := by
  induction fields generalizing text with
  | nil =>
      obtain rfl := Option.some.inj written
      exact rest
  | cons field fields ih =>
      obtain ⟨name, d⟩ := field
      obtain ⟨value, scalar, more⟩ := Option.bind_eq_some_iff.1 written
      obtain ⟨others, written_others, same⟩ := Option.bind_eq_some_iff.1 more
      obtain rfl := Option.some.inj same
      have others := ih (fun field member => bare field (List.mem_cons_of_mem _ member)) written_others
      have own := bare (name, d) List.mem_cons_self
      obtain ⟨c, l, begins, first⟩ := own.exists_head
      have line := ReadsLines.cons others ⟨c, _, by rw [begins]; rfl, .inl first⟩
        (line?_assignment own scalar)
      simpa using line

/-- A section is read before what follows. -/
theorem readsLines_section (part : String × List (String × Datum)) {text : List Char}
    {lines : List Line} (bare : IsBareName part.1) (bareFields : ∀ field ∈ part.2, IsBareName field.1)
    (written : section? part.1 part.2 = some text) (rest : ReadsLines r lines) :
    ReadsLines (text ++ r) (sectionLines part ++ lines) := by
  obtain ⟨body, written_fields, same⟩ := Option.bind_eq_some_iff.1 written
  obtain rfl := Option.some.inj same
  have fields := readsLines_fields bareFields written_fields rest
  have header := ReadsLines.cons fields ⟨'[', _, rfl, .inr rfl⟩ (line?_header bare)
  simpa [sectionLines] using header

/-- A document is read as the lines of its sections. -/
theorem readsLines_sections {sections : List (String × List (String × Datum))} {text : List Char}
    (document : IsDocument sections) (written : sections? sections = some text) :
    ReadsLines text (sections.flatMap sectionLines) := by
  obtain ⟨-, bare, -, bareFields⟩ := document
  induction sections using sections?.induct generalizing text with
  | case1 =>
      obtain rfl := Option.some.inj written
      exact readsLines_nil
  | case2 name fields =>
      have lines := readsLines_section (name, fields) (bare _ List.mem_cons_self)
        (bareFields _ List.mem_cons_self) written readsLines_nil
      simpa using lines
  | case3 name fields next rest ih =>
      obtain ⟨first, own, more⟩ := Option.bind_eq_some_iff.1 written
      obtain ⟨others, written_others, same⟩ := Option.bind_eq_some_iff.1 more
      obtain rfl := Option.some.inj same
      have others := ih written_others (fun part member => bare part (List.mem_cons_of_mem _ member))
        fun part member => bareFields part (List.mem_cons_of_mem _ member)
      exact readsLines_section (name, fields) (bare _ List.mem_cons_self)
        (bareFields _ List.mem_cons_self) own others.blank

/-! ## The tree -/

/-- A section in the tree of tables. -/
def sectionNode (part : String × List (String × Datum)) : String × Node :=
  (part.1, .table .header (part.2.map fun (name, d) => (name, .value d)))

theorem setField_append {name : String} {fields : Fields} (new : name ∉ fields.map Prod.fst)
    (node : Node) (rest : Fields) :
    setField name node (fields ++ rest) = fields ++ setField name node rest := by
  induction fields with
  | nil => rfl
  | cons field fields ih =>
      simp only [List.map_cons, List.mem_cons, not_or] at new
      simp [setField, Ne.symm new.1, ih new.2]

theorem lookup_append_of_new {name : String} {fields : Fields} (new : name ∉ fields.map Prod.fst)
    (rest : Fields) : (fields ++ rest).lookup name = rest.lookup name := by
  rw [List.lookup_append, List.lookup_eq_none_iff.2 fun field member => ?_, Option.none_or]
  have other : name ≠ field.1 := by
    rintro rfl
    exact new (List.mem_map_of_mem member)
  simpa using other

/-- A new header adds an empty table at the end. -/
theorem add_header {name : String} {b : Build} (new : name ∉ b.fields.map Prod.fst) :
    b.add (.header [name]) = some ⟨[name], b.fields ++ [(name, .table .header [])]⟩ := by
  have missing := lookup_append_of_new new []
  have added := setField_append new (.table .header []) []
  rw [List.append_nil] at missing added
  simp [Build.add, descend, defineTable, missing, added, setField]

/-- A new name adds a field at the end of the last table. -/
theorem add_assignment {name field : String} {done fields : Fields} (new : name ∉ done.map Prod.fst)
    (fresh : field ∉ fields.map Prod.fst) (d : Datum) :
    Build.add ⟨[name], done ++ [(name, .table .header fields)]⟩ (.assignment [field] d) =
      some ⟨[name], done ++ [(name, .table .header (fields ++ [(field, .value d)]))]⟩ := by
  have table := lookup_append_of_new new [(name, .table .header fields)]
  have missing := lookup_append_of_new fresh []
  rw [List.append_nil] at missing
  simp [Build.add, descend, table, assign, missing, setField_append new, setField]

/-- The fields of a section fill its table. -/
theorem foldlM_fields {name : String} {done : Fields} (new : name ∉ done.map Prod.fst)
    (first fields : List (String × Datum)) (different : ((first ++ fields).map Prod.fst).Nodup) :
    (fields.map fun (field, d) => Line.assignment [field] d).foldlM Build.add
        ⟨[name], done ++ [sectionNode (name, first)]⟩ =
      some ⟨[name], done ++ [sectionNode (name, first ++ fields)]⟩ := by
  induction fields generalizing first with
  | nil => simp
  | cons field fields ih =>
      obtain ⟨field, d⟩ := field
      have next := ih (first ++ [(field, d)]) (by simpa using different)
      have fresh : field ∉ (first.map fun (name, d) => (name, Node.value d)).map Prod.fst := by
        rw [List.map_append, List.nodup_append] at different
        rintro member
        refine different.2.2 field ?_ field (by simp) rfl
        simpa using member
      have step := add_assignment new fresh d
      have shape : sectionNode (name, first ++ [(field, d)]) = (name, .table .header
          ((first.map fun (name, d) => (name, Node.value d)) ++ [(field, .value d)])) := by
        simp [sectionNode]
      rw [shape, List.append_assoc] at next
      rw [List.map_cons, List.foldlM_cons, sectionNode, step]
      exact next

/-- The sections are added to the tree one after the other. -/
theorem foldlM_sections {sections : List (String × List (String × Datum))}
    (fieldNames : ∀ part ∈ sections, (part.2.map Prod.fst).Nodup) (b : Build)
    (different : (b.fields.map Prod.fst ++ sections.map Prod.fst).Nodup) :
    ∃ path, (sections.flatMap sectionLines).foldlM Build.add b =
      some ⟨path, b.fields ++ sections.map sectionNode⟩ := by
  induction sections generalizing b with
  | nil => exact ⟨b.path, by simp⟩
  | cons part sections ih =>
      have new : part.1 ∉ b.fields.map Prod.fst := by
        rw [List.nodup_append] at different
        exact fun member => different.2.2 _ member part.1 (by simp) rfl
      have filled := foldlM_fields new [] part.2 (fieldNames part List.mem_cons_self)
      obtain ⟨path, others⟩ := ih (fun part member => fieldNames part (List.mem_cons_of_mem _ member))
        ⟨[part.1], b.fields ++ [sectionNode part]⟩ (by simpa [sectionNode] using different)
      refine ⟨path, ?_⟩
      rw [List.flatMap_cons, sectionLines, List.foldlM_append, List.foldlM_cons, add_header new]
      rw [List.nil_append] at filled
      change ((part.2.map fun (field, d) => Line.assignment [field] d).foldlM Build.add
        ⟨[part.1], b.fields ++ [sectionNode (part.1, [])]⟩).bind _ = _
      rw [filled, Option.bind_some, others]
      simp

theorem fieldData_sections (sections : List (String × List (String × Datum))) :
    fieldData (sections.map sectionNode) = sections.map fun (name, fields) => (name, .record fields) := by
  induction sections with
  | nil => rfl
  | cons part sections ih =>
      have values := fieldData_values part.2
      rw [List.map_cons, List.map_cons, sectionNode, fieldData, Node.datum, values, ih]

/-- A document begins with a header, if it has one. -/
theorem sections?_begins {sections : List (String × List (String × Datum))} {text : List Char}
    (written : sections? sections = some text) : text = [] ∨ ∃ l, text = '[' :: l := by
  have header {name : String} {fields : List (String × Datum)} {s : List Char}
      (written : section? name fields = some s) : ∃ l, s = '[' :: l := by
    obtain ⟨lines, -, same⟩ := Option.bind_eq_some_iff.1 written
    obtain rfl := Option.some.inj same
    exact ⟨_, rfl⟩
  cases sections using sections?.fun_cases with
  | case1 => exact .inl (Option.some.inj written).symm
  | case2 name fields => exact .inr (header written)
  | case3 name fields next rest =>
      obtain ⟨first, own, more⟩ := Option.bind_eq_some_iff.1 written
      obtain ⟨others, -, same⟩ := Option.bind_eq_some_iff.1 more
      obtain ⟨l, rfl⟩ := header own
      obtain rfl := Option.some.inj same
      exact .inr ⟨_, rfl⟩

/-- What is written from sections is read back as the record of them. -/
theorem read?_write? (sections : List (String × List (String × Datum))) {text : String}
    (document : IsDocument sections) (written : write? sections = some text) :
    read? text = some (.record (sections.map fun (name, fields) => (name, .record fields))) := by
  obtain ⟨body, written_sections, rfl⟩ := Option.map_eq_some_iff.1 written
  have lines := readsLines_sections document written_sections
  obtain ⟨path, tree⟩ := foldlM_sections document.fieldNames {} (by simpa using document.names)
  have noMark : skipMark body = body := by
    obtain rfl | ⟨l, rfl⟩ := sections?_begins written_sections
    · rfl
    · rfl
  rw [read?, String.toList_ofList, noMark, lines _ (Nat.lt_succ_self _)]
  simp only [Option.bind_eq_bind, Option.bind_some, tree]
  change some (Datum.record (fieldData (sections.map sectionNode))) = _
  rw [fieldData_sections]

/-- A document can be written if its fields are scalars that can. -/
theorem exists_write? {sections : List (String × List (String × Datum))}
    (scalars : ∀ part ∈ sections, ∀ field ∈ part.2, (scalar? field.2).isSome = true) :
    ∃ text, write? sections = some text := by
  have lines (fields : List (String × Datum))
      (scalars : ∀ field ∈ fields, (scalar? field.2).isSome = true) :
      ∃ text, fieldLines? fields = some text := by
    induction fields with
    | nil => exact ⟨[], rfl⟩
    | cons field fields ih =>
        rw [List.forall_mem_cons] at scalars
        obtain ⟨value, scalar⟩ := Option.isSome_iff_exists.1 scalars.1
        obtain ⟨rest, others⟩ := ih scalars.2
        exact ⟨_, by rw [fieldLines?, scalar, others]; rfl⟩
  have parts : ∃ text, sections? sections = some text := by
    induction sections using sections?.induct with
    | case1 => exact ⟨[], rfl⟩
    | case2 name fields =>
        obtain ⟨text, written⟩ := lines fields (scalars _ List.mem_cons_self)
        exact ⟨_, by rw [sections?, section?, written]; rfl⟩
    | case3 name fields next rest ih =>
        obtain ⟨text, written⟩ := lines fields (scalars _ List.mem_cons_self)
        obtain ⟨others, later⟩ := ih fun part member => scalars part (List.mem_cons_of_mem _ member)
        exact ⟨_, by rw [sections?, section?, written, later]; rfl⟩
  obtain ⟨text, written⟩ := parts
  exact ⟨_, by rw [write?, written]; rfl⟩

end Combo.Toml
