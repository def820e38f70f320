-- SUMMARY: Every integer that is read from a TOML document fits in 64 bits with sign, wherever it stands in the document.
import Mathlib.Algebra.Group.Int.Defs
import Mathlib.Data.List.Basic
import Combo.Datum.Toml.Document

/-!
# The range of integers in TOML

The readers of integers refuse what does not fit. Lists and inline tables hold what was
read, and the tree of tables only ever gets what was read.
-/

namespace Combo

/-- All integers of a datum fit in 64 bits with sign. -/
inductive Datum.Fits : Datum → Prop
  | null : Fits .null
  | bool (value : Bool) : Fits (.bool value)
  | float (value : Float) : Fits (.float value)
  | string (value : String) : Fits (.string value)
  | integer (value : Int) (low : -2 ^ 63 ≤ value) (high : value < 2 ^ 63) : Fits (.integer value)
  | list (items : List Datum) (fits : ∀ d ∈ items, Fits d) : Fits (.list items)
  | record (fields : List (String × Datum)) (fits : ∀ field ∈ fields, Fits field.2) :
      Fits (.record fields)

namespace Toml

/-! ## Lexemes -/

theorem radixInteger?_fits {radix : Nat} {s r : List Char} {d : Datum}
    (h : radixInteger? radix s = some (d, r)) : d.Fits := by
  obtain ⟨⟨digits, r⟩, -, h⟩ := Option.bind_eq_some_iff.1 h
  obtain ⟨n, -, h⟩ := Option.bind_eq_some_iff.1 h
  split at h
  · rename_i small
    obtain ⟨rfl, -⟩ := Prod.mk.inj (Option.some.inj h)
    rw [Nat.pow_eq] at small
    exact .integer _ (by omega) (by omega)
  · cases h

theorem integer?_fits {s r : List Char} {d : Datum} (h : integer? s = some (d, r)) : d.Fits := by
  unfold integer? at h
  split at h
  · exact radixInteger?_fits h
  · exact radixInteger?_fits h
  · exact radixInteger?_fits h
  · obtain ⟨⟨digits, r⟩, -, h⟩ := Option.bind_eq_some_iff.1 h
    obtain ⟨z, number, h⟩ := Option.bind_eq_some_iff.1 h
    obtain ⟨rfl, -⟩ := Prod.mk.inj (Option.some.inj h)
    obtain ⟨-, bounds⟩ := Option.filter_eq_some_iff.1 number
    rw [decide_eq_true_iff, Nat.pow_eq] at bounds
    exact .integer z bounds.1 bounds.2

theorem number?_fits {s r : List Char} {d : Datum} (h : number? s = some (d, r)) : d.Fits := by
  unfold number? at h
  split at h
  · obtain ⟨x, -, h⟩ := Option.bind_eq_some_iff.1 h
    split at h
    · cases h
    · obtain ⟨rfl, -⟩ := Prod.mk.inj (Option.some.inj h)
      exact .float x
  · split at h
    · obtain ⟨rfl, -⟩ := Prod.mk.inj (Option.some.inj h)
      exact .float _
    · exact integer?_fits h

theorem date?_fits {s r : List Char} {d : Datum} (h : date? s = some (d, r)) : d.Fits := by
  obtain ⟨rest, -, h⟩ := Option.map_eq_some_iff.1 h
  obtain ⟨rfl, -⟩ := Prod.mk.inj h
  refine .record _ fun field member => ?_
  obtain rfl := List.mem_singleton.1 member
  exact .string _

/-! ## The tree -/

/-- All integers at a place of the tree fit. -/
inductive Node.Fits : Node → Prop
  | value (d : Datum) (fits : d.Fits) : Fits (.value d)
  | table (origin : Origin) (fields : Toml.Fields) (fits : ∀ field ∈ fields, Fits field.2) :
      Fits (.table origin fields)
  | tables (elements : List Toml.Fields) (fits : ∀ fields ∈ elements, ∀ field ∈ fields, Fits field.2) :
      Fits (.tables elements)

/-- All integers of a table fit. -/
def FieldsFit (fields : Fields) : Prop := ∀ field ∈ fields, field.2.Fits

theorem fieldsFit_nil : FieldsFit [] := by
  intro field member
  cases member

theorem FieldsFit.lookup {fields : Fields} (h : FieldsFit fields) {name : String} {node : Node}
    (found : fields.lookup name = some node) : node.Fits := by
  obtain ⟨p, t, rfl, -⟩ := List.lookup_eq_some_iff.1 found
  exact h (name, node) (by simp)

theorem FieldsFit.setField {fields : Fields} (h : FieldsFit fields) (name : String) {node : Node}
    (fits : node.Fits) : FieldsFit (setField name node fields) := by
  induction fields with
  | nil =>
      intro field member
      obtain rfl := List.mem_singleton.1 member
      exact fits
  | cons field fields ih =>
      have rest := ih fun field member => h field (List.mem_cons_of_mem _ member)
      unfold Toml.setField
      split
      · intro other member
        obtain rfl | member := List.mem_cons.1 member
        · exact fits
        · exact h other (List.mem_cons_of_mem _ member)
      · intro other member
        obtain rfl | member := List.mem_cons.1 member
        · exact h _ List.mem_cons_self
        · exact rest other member

/-- A change of a table changes only what is there. -/
def KeepsFit (change : Fields → Option Fields) : Prop :=
  ∀ fields fields', FieldsFit fields → change fields = some fields' → FieldsFit fields'

theorem keepsFit_descend {change : Fields → Option Fields} (keeps : KeepsFit change)
    (path : List String) : KeepsFit (descend change path) := by
  induction path with
  | nil => exact keeps
  | cons name path ih =>
      intro fields fields' fits h
      unfold descend at h
      split at h
      · obtain ⟨f, below, rfl⟩ := Option.map_eq_some_iff.1 h
        exact fits.setField name (.table .path f (ih _ _ fieldsFit_nil below))
      · rename_i origin f found
        obtain ⟨f', below, rfl⟩ := Option.map_eq_some_iff.1 h
        cases fits.lookup found with
        | table _ _ inner => exact fits.setField name (.table origin f' (ih _ _ inner below))
      · rename_i f fs found
        obtain ⟨f', below, rfl⟩ := Option.map_eq_some_iff.1 h
        cases fits.lookup found with
        | tables _ inner =>
            refine fits.setField name (.tables (f' :: fs) ?_)
            rw [List.forall_mem_cons] at inner ⊢
            exact ⟨ih _ _ inner.1 below, inner.2⟩
      · cases h
      · cases h

theorem keepsFit_defineTable (name : String) : KeepsFit (defineTable name) := by
  intro fields fields' fits h
  unfold defineTable at h
  split at h
  · obtain rfl := Option.some.inj h
    exact fits.setField name (.table .header [] fieldsFit_nil)
  · rename_i f found
    obtain rfl := Option.some.inj h
    cases fits.lookup found with
    | table _ _ inner => exact fits.setField name (.table .header f inner)
  · cases h

theorem keepsFit_addTable (name : String) : KeepsFit (addTable name) := by
  intro fields fields' fits h
  unfold addTable at h
  split at h
  · obtain rfl := Option.some.inj h
    exact fits.setField name (.tables [[]] (by simp))
  · rename_i fs found
    obtain rfl := Option.some.inj h
    cases fits.lookup found with
    | tables _ inner =>
        refine fits.setField name (.tables ([] :: fs) ?_)
        rw [List.forall_mem_cons]
        exact ⟨fieldsFit_nil, inner⟩
  · cases h

theorem keepsFit_assign {value : Datum} (fit : value.Fits) (path : List String) (nested dotted : Bool) :
    KeepsFit (assign value path nested dotted) := by
  intro fields fields' fits h
  induction path generalizing nested dotted fields fields' with
  | nil => cases h
  | cons name path ih =>
      cases path with
      | nil =>
          rw [assign] at h
          split at h
          · cases h
          split at h
          · obtain rfl := Option.some.inj h
            intro field member
            rcases List.mem_append.1 member with old | new
            · exact fits field old
            · obtain rfl := List.mem_singleton.1 new
              exact .value value fit
          · cases h
      | cons next path =>
          rw [assign] at h
          split at h
          · obtain ⟨f, below, rfl⟩ := Option.map_eq_some_iff.1 h
            exact fits.setField name (.table .dotted f (ih _ _ _ _ fieldsFit_nil below))
          · cases h
          · rename_i origin f _ found
            obtain ⟨f', below, rfl⟩ := Option.map_eq_some_iff.1 h
            cases fits.lookup found with
            | table _ _ inner => exact fits.setField name (.table origin f' (ih _ _ _ _ inner below))
          · rename_i f fs found
            obtain ⟨f', below, rfl⟩ := Option.map_eq_some_iff.1 h
            cases fits.lookup found with
            | tables _ inner =>
                refine fits.setField name (.tables (f' :: fs) ?_)
                rw [List.forall_mem_cons] at inner ⊢
                exact ⟨ih _ _ _ _ inner.1 below, inner.2⟩
          · cases h
          · cases h
          · nofun

mutual

/-- What a place of the tree stands for fits. -/
theorem Node.fits_datum : ∀ node : Node, node.Fits → node.datum.Fits
  | .value d, fits => by
      cases fits with
      | value _ fits => exact fits
  | .table _ fields, fits => by
      cases fits with
      | table _ _ fits => exact .record _ (fits_fieldData fields fits)
  | .tables elements, fits => by
      cases fits with
      | tables _ fits =>
          exact .list _ fun d member => fits_tableData elements fits d (List.mem_reverse.1 member)

/-- What the fields of a table stand for fits. -/
theorem fits_fieldData : ∀ fields : List (String × Node), FieldsFit fields →
    ∀ field ∈ fieldData fields, field.2.Fits
  | [], _ => by simp [fieldData]
  | (name, node) :: r, fits => by
      have first := Node.fits_datum node (fits _ List.mem_cons_self)
      have rest := fits_fieldData r fun field member => fits field (List.mem_cons_of_mem _ member)
      rw [fieldData, List.forall_mem_cons]
      exact ⟨first, rest⟩

/-- What the tables under a repeated header stand for fits. -/
theorem fits_tableData : ∀ elements : List (List (String × Node)),
    (∀ fields ∈ elements, FieldsFit fields) → ∀ d ∈ tableData elements, d.Fits
  | [], _ => by simp [tableData]
  | fields :: r, fits => by
      have first := fits_fieldData fields (fits _ List.mem_cons_self)
      have rest := fits_tableData r fun fields member => fits fields (List.mem_cons_of_mem _ member)
      rw [tableData, List.forall_mem_cons]
      exact ⟨.record _ first, rest⟩

end

/-! ## Values -/

mutual

theorem value?_fits (fuel : Nat) : ∀ (depth : Nat) (s : List Char) {d : Datum} {r : List Char},
    value? fuel depth s = some (d, r) → d.Fits
  | 0, s, d, r, h => by
      rw [value?] at h
      cases h
  | depth + 1, [], d, r, h => by
      rw [value?] at h
      cases h
  | depth + 1, c :: s, d, r, h => by
      rw [value?] at h
      split at h
      · obtain ⟨⟨text, rest⟩, -, h⟩ := Option.map_eq_some_iff.1 h
        obtain ⟨rfl, -⟩ := Prod.mk.inj h
        exact .string text
      split at h
      · split at h
        · cases h
        · exact items?_fits fuel depth fuel [] s (by simp) h
      split at h
      · split at h
        · cases h
        · exact inline?_fits fuel depth fuel [] s fieldsFit_nil h
      split at h
      · obtain ⟨rest, -, h⟩ := Option.map_eq_some_iff.1 h
        obtain ⟨rfl, -⟩ := Prod.mk.inj h
        exact .bool true
      split at h
      · obtain ⟨rest, -, h⟩ := Option.map_eq_some_iff.1 h
        obtain ⟨rfl, -⟩ := Prod.mk.inj h
        exact .bool false
      split at h
      · rename_i found date
        obtain rfl := Option.some.inj h
        exact date?_fits date
      · exact number?_fits h
termination_by depth => (depth, 0)

theorem items?_fits (fuel depth : Nat) : ∀ (n : Nat) (acc : List Datum) (s : List Char) {d : Datum}
    {r : List Char}, (∀ d ∈ acc, d.Fits) → items? fuel depth n acc s = some (d, r) → d.Fits
  | 0, acc, s, d, r, fits, h => by
      rw [items?] at h
      cases h
  | n + 1, acc, s, d, r, fits, h => by
      have reversed (items : List Datum) (fits : ∀ d ∈ items, d.Fits) : (Datum.list items.reverse).Fits :=
        .list _ fun d member => fits d (List.mem_reverse.1 member)
      rw [items?] at h
      split at h
      · obtain ⟨rfl, -⟩ := Prod.mk.inj (Option.some.inj h)
        exact reversed acc fits
      · obtain ⟨⟨item, rest⟩, value, h⟩ := Option.bind_eq_some_iff.1 h
        have longer : ∀ d ∈ item :: acc, d.Fits := by
          rw [List.forall_mem_cons]
          exact ⟨value?_fits fuel depth _ value, fits⟩
        simp only at h
        split at h
        · exact items?_fits fuel depth n (item :: acc) _ longer h
        · obtain ⟨rfl, -⟩ := Prod.mk.inj (Option.some.inj h)
          exact reversed (item :: acc) longer
        · cases h
termination_by n => (depth, n + 1)

theorem inline?_fits (fuel depth : Nat) : ∀ (n : Nat) (fields : Fields) (s : List Char) {d : Datum}
    {r : List Char}, FieldsFit fields → inline? fuel depth n fields s = some (d, r) → d.Fits
  | 0, fields, s, d, r, fits, h => by
      rw [inline?] at h
      cases h
  | n + 1, fields, s, d, r, fits, h => by
      rw [inline?.eq_def] at h
      dsimp only at h
      split at h
      · obtain ⟨rfl, -⟩ := Prod.mk.inj (Option.some.inj h)
        exact .record [] (by simp)
      · obtain ⟨⟨path, rest⟩, -, h⟩ := Option.bind_eq_some_iff.1 h
        obtain ⟨rest', -, h⟩ := Option.bind_eq_some_iff.1 h
        obtain ⟨⟨item, rest''⟩, value, h⟩ := Option.bind_eq_some_iff.1 h
        obtain ⟨fields', assigned, h⟩ := Option.bind_eq_some_iff.1 h
        have more := keepsFit_assign (value?_fits fuel depth _ value) path false false _ _ fits assigned
        split at h
        · exact inline?_fits fuel depth n fields' _ more h
        · obtain ⟨rfl, -⟩ := Prod.mk.inj (Option.some.inj h)
          exact .record _ (fits_fieldData fields' more)
        · cases h
termination_by n => (depth, n + 1)

end

/-! ## Documents -/

/-- What a line assigns fits. -/
def Line.Fits : Line → Prop
  | .assignment _ value => value.Fits
  | .header _ | .repeated _ => True

theorem line?_fits {s r : List Char} {line : Line} (h : line? s = some (line, r)) : line.Fits := by
  unfold line? at h
  split at h
  · obtain ⟨⟨path, rest⟩, -, h⟩ := Option.bind_eq_some_iff.1 h
    obtain ⟨rest', -, h⟩ := Option.bind_eq_some_iff.1 h
    obtain ⟨rfl, -⟩ := Prod.mk.inj (Option.some.inj h)
    trivial
  · obtain ⟨⟨path, rest⟩, -, h⟩ := Option.bind_eq_some_iff.1 h
    obtain ⟨rest', -, h⟩ := Option.bind_eq_some_iff.1 h
    obtain ⟨rfl, -⟩ := Prod.mk.inj (Option.some.inj h)
    trivial
  · obtain ⟨⟨path, rest⟩, -, h⟩ := Option.bind_eq_some_iff.1 h
    obtain ⟨rest', -, h⟩ := Option.bind_eq_some_iff.1 h
    obtain ⟨⟨d, rest''⟩, value, h⟩ := Option.bind_eq_some_iff.1 h
    obtain ⟨rfl, -⟩ := Prod.mk.inj (Option.some.inj h)
    exact value?_fits _ _ _ value

theorem lines?_fits {fuel : Nat} {s : List Char} {lines : List Line} (h : lines? fuel s = some lines) :
    ∀ line ∈ lines, line.Fits := by
  induction fuel generalizing s lines with
  | zero => cases h
  | succ fuel ih =>
      rw [lines?] at h
      split at h
      · obtain rfl := Option.some.inj h
        simp
      · obtain ⟨⟨line, rest⟩, first, h⟩ := Option.bind_eq_some_iff.1 h
        obtain ⟨rest', -, h⟩ := Option.bind_eq_some_iff.1 h
        obtain ⟨others, later, h⟩ := Option.bind_eq_some_iff.1 h
        obtain rfl := Option.some.inj h
        rw [List.forall_mem_cons]
        exact ⟨line?_fits first, ih later⟩

/-- A line adds only what it assigns. -/
theorem add_fits {b b' : Build} {line : Line} (fits : FieldsFit b.fields) (fit : line.Fits)
    (h : b.add line = some b') : FieldsFit b'.fields := by
  cases line with
  | header path =>
      obtain ⟨fields, changed, h⟩ := Option.bind_eq_some_iff.1 h
      obtain rfl := Option.some.inj h
      exact keepsFit_descend (keepsFit_defineTable _) _ _ _ fits changed
  | repeated path =>
      obtain ⟨fields, changed, h⟩ := Option.bind_eq_some_iff.1 h
      obtain rfl := Option.some.inj h
      exact keepsFit_descend (keepsFit_addTable _) _ _ _ fits changed
  | assignment path value =>
      obtain ⟨fields, changed, h⟩ := Option.bind_eq_some_iff.1 h
      obtain rfl := Option.some.inj h
      exact keepsFit_descend (keepsFit_assign fit _ _ _) _ _ _ fits changed

theorem foldlM_fits {lines : List Line} {b b' : Build} (fits : FieldsFit b.fields)
    (fit : ∀ line ∈ lines, line.Fits) (h : lines.foldlM Build.add b = some b') : FieldsFit b'.fields := by
  induction lines generalizing b with
  | nil =>
      obtain rfl := Option.some.inj h
      exact fits
  | cons line lines ih =>
      rw [List.forall_mem_cons] at fit
      rw [List.foldlM_cons] at h
      obtain ⟨next, first, h⟩ := Option.bind_eq_some_iff.1 h
      exact ih (add_fits fits fit.1 first) fit.2 h

/-- A document is a record, and every integer in it fits. -/
theorem read?_fits {text : String} {d : Datum} (h : read? text = some d) :
    ∃ fields, d = .record fields ∧ d.Fits := by
  obtain ⟨lines, read, h⟩ := Option.bind_eq_some_iff.1 h
  obtain ⟨b, built, h⟩ := Option.bind_eq_some_iff.1 h
  obtain rfl := Option.some.inj h
  exact ⟨_, rfl, .record _ (fits_fieldData _ (foldlM_fits fieldsFit_nil (lines?_fits read) built))⟩

end Toml

end Combo
