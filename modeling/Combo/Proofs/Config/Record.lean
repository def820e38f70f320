-- SUMMARY: A configuration as data is described by itself, and what is described is taken field by field or is the default.
import Mathlib.Data.List.Forall2
import Mathlib.Data.List.Nodup
import Combo.Config.Record
import Combo.Proofs.Datum.Toml.Range

/-!
# Configurations as data

Every field has a column of its own, found by its name or by its place. What is described
by its own fields comes back as it was. Whatever is described has each field from its
column, and the default where there is no column, so its integers fit if those of the
description do.
-/

namespace Combo

open Datum

/-! ## Columns -/

/-- The value of a named field, from a record or from a list in the order of the names. -/
def Datum.column? (names : List String) (name : String) : Datum → Option Datum
  | .list items => items[names.idxOf name]?
  | d => d.field? name

/-- The columns of a datum are the values of its named fields. -/
theorem columns?_eq {dialect : Dialect} {names : List String} {d : Datum} {columns : List (Option Datum)}
    (different : names.Nodup) (h : columns? dialect names d = some columns) :
    columns = names.map fun name => column? names name d := by
  cases d with
  | record fields => exact (Option.some.inj h).symm
  | list items =>
      rw [columns?] at h
      split at h
      · obtain rfl := Option.some.inj h
        refine List.ext_getElem (by simp) fun i _ _ => ?_
        simp [column?, different.idxOf_getElem]
      · cases h
  | null => cases h
  | bool value => cases h
  | integer value => cases h
  | float value => cases h
  | string value => cases h

/-- A field is found under its name, if the names are different. -/
theorem lookup_of_mem {fields : List (String × Datum)} (different : (fields.map Prod.fst).Nodup)
    {field : String × Datum} (member : field ∈ fields) : fields.lookup field.1 = some field.2 := by
  induction fields with
  | nil => cases member
  | cons first fields ih =>
      rw [List.map_cons, List.nodup_cons] at different
      obtain rfl | member := List.mem_cons.1 member
      · exact List.lookup_cons_self
      · have other : field.1 ≠ first.1 := by
          intro same
          exact different.1 (same ▸ List.mem_map_of_mem member)
        rw [List.lookup_cons, beq_eq_false_iff_ne.2 other]
        exact ih different.2 member

/-- The columns of a record of its own fields are their values. -/
theorem columns?_fields (dialect : Dialect) (fields : List (String × Datum))
    (different : (fields.map Prod.fst).Nodup) :
    columns? dialect (fields.map Prod.fst) (.record fields) =
      some (fields.map fun field => some field.2) := by
  rw [columns?, List.map_map]
  congr 1
  exact List.map_congr_left fun field member => lookup_of_mem different member

/-- No two sections, and no two fields of one section, have the same name. -/
theorem names_different :
    ∀ names ∈ [Config.names, General.names, Engine.names, Target.names, KeyNames.names], names.Nodup := by
  decide +kernel

/-! ## Described by itself -/

theorem asNat?_natCast {max n : Nat} (le : n ≤ max) : asNat? max (.integer n) = some n := if_pos le

/-- A configuration whose integers fit: in 64 bits with sign, and the count of errors in its word. -/
structure Config.Fits (c : Config) : Prop where
  datum : c.datum.Fits
  maxErrorCount : c.engine.maxErrorCount ≤ word32

/-- Every field of a configuration that fits does. -/
theorem Config.Fits.field {c : Config} (h : c.Fits) :
    ∀ part ∈ c.sections, ∀ field ∈ part.2, field.2.Fits := by
  intro part member field inside
  cases h.datum with
  | record _ parts =>
      cases parts (part.1, .record part.2) (List.mem_map.2 ⟨part, member, rfl⟩) with
      | record _ fields => exact fields field inside

/-- A configuration fits if each field does. -/
theorem Config.Fits.of_fields {c : Config}
    (fields : ∀ part ∈ c.sections, ∀ field ∈ part.2, field.2.Fits)
    (count : c.engine.maxErrorCount ≤ word32) : c.Fits := by
  refine ⟨.record _ fun part member => ?_, count⟩
  obtain ⟨own, inside, rfl⟩ := List.mem_map.1 member
  exact .record _ (fields own inside)

theorem le_word64_of_fits {n : Nat} (h : (Datum.integer n).Fits) : n ≤ word64 := by
  cases h with
  | integer _ low high =>
      unfold word64 Number.wordMax
      rw [Nat.pow_eq]
      omega

theorem General.ofDatum?_fields (dialect : Dialect) (g : General) :
    General.ofDatum? dialect (.record g.fields) = some g := by
  have columns := columns?_fields dialect g.fields (names_different General.names (by simp))
  have names : General.names = g.fields.map Prod.fst := rfl
  rw [General.ofDatum?, names, columns]
  rfl

theorem Engine.ofDatum?_fields (dialect : Dialect) {e : Engine} (count : e.maxErrorCount ≤ word32)
    (fits : ∀ field ∈ e.fields, field.2.Fits) : Engine.ofDatum? dialect (.record e.fields) = some e := by
  have columns := columns?_fields dialect e.fields (names_different Engine.names (by simp))
  have names : Engine.names = e.fields.map Prod.fst := rfl
  have mode : asVariant? dialect Mode.ofName? (.string e.mode.name) = some e.mode := by
    cases e.mode with
    | replace => rfl
    | merge => rfl
  simp only [fields, List.forall_mem_cons] at fits
  obtain ⟨-, -, -, -, poll, backoff, stop, cleanup, history, attack, -⟩ := fits
  rw [Engine.ofDatum?, names, columns]
  simp [fields, orDefault, asFloat?, mode, asBool?, asNat?_natCast count,
    asNat?_natCast (le_word64_of_fits poll), asNat?_natCast (le_word64_of_fits backoff),
    asNat?_natCast (le_word64_of_fits stop), asNat?_natCast (le_word64_of_fits cleanup),
    asNat?_natCast (le_word64_of_fits history), asNat?_natCast (le_word64_of_fits attack)]

theorem Target.ofDatum?_fields (dialect : Dialect) {t : Target}
    (fits : ∀ field ∈ t.fields, field.2.Fits) : Target.ofDatum? dialect (.record t.fields) = some t := by
  have columns := columns?_fields dialect t.fields (names_different Target.names (by simp))
  have names : Target.names = t.fields.map Prod.fst := rfl
  simp only [fields, List.forall_mem_cons] at fits
  rw [Target.ofDatum?, names, columns]
  simp [fields, orDefault, asText?, asBool?, asNat?_natCast (le_word64_of_fits fits.2.1)]

theorem KeyNames.ofDatum?_fields (dialect : Dialect) (k : KeyNames) :
    KeyNames.ofDatum? dialect (.record k.fields) = some k := by
  have columns := columns?_fields dialect k.fields (names_different KeyNames.names (by simp))
  have names : KeyNames.names = k.fields.map Prod.fst := rfl
  rw [KeyNames.ofDatum?, names, columns]
  rfl

/-- A configuration is what its datum describes. -/
theorem Config.ofDatum?_datum (dialect : Dialect) {c : Config} (fits : c.Fits) :
    Config.ofDatum? dialect c.datum = some c := by
  have parts := fits.field
  simp only [sections, List.forall_mem_cons] at parts
  obtain ⟨-, engine, target, -⟩ := parts
  have different : Config.names.Nodup := (names_different Config.names (by simp))
  have columns : columns? dialect Config.names c.datum =
      some (c.sections.map fun part => some (Datum.record part.2)) :=
    columns?_fields dialect
      (c.sections.map fun (part : String × List (String × Datum)) => (part.1, .record part.2)) different
  rw [Config.ofDatum?, columns]
  simp [sections, orDefault, General.ofDatum?_fields, KeyNames.ofDatum?_fields,
    Engine.ofDatum?_fields dialect fits.maxErrorCount engine, Target.ofDatum?_fields dialect target]

/-! ## Taken from columns -/

/-- What is made from a column, or the default without one. -/
theorem orDefault_cases {α : Type} {decode : Datum → Option α} {value standard : α}
    {column : Option Datum} (h : orDefault decode standard column = some value) :
    (column = none ∧ value = standard) ∨ ∃ d, column = some d ∧ decode d = some value := by
  cases column with
  | none => exact .inl ⟨rfl, (Option.some.inj h).symm⟩
  | some d => exact .inr ⟨d, rfl, h⟩

/-- A value that comes from a column, if there is one, and else is the default. -/
structure Taken (column : Option Datum) (value standard : Datum) : Prop where
  missing : column = none → value = standard
  fits : (∀ d ∈ column, d.Fits) → standard.Fits → value.Fits

theorem taken_rfl (value : Datum) : Taken none value value := ⟨fun _ => rfl, fun _ fits => fits⟩

/-- What is made from a column without an integer always fits. -/
theorem taken_of_decode {column : Option Datum} {α : Type} {decode : Datum → Option α}
    {value standard : α} (h : orDefault decode standard column = some value) (field : α → Datum)
    (fits : (field value).Fits) : Taken column (field value) (field standard) := by
  obtain ⟨rfl, rfl⟩ | ⟨d, rfl, -⟩ := orDefault_cases h
  · exact taken_rfl _
  · exact ⟨nofun, fun _ _ => fits⟩

/-- An integer is taken over, within its bounds. -/
theorem taken_of_nat {column : Option Datum} {max value standard : Nat}
    (h : orDefault (asNat? max) standard column = some value) :
    Taken column (.integer value) (.integer standard) ∧ (standard ≤ max → value ≤ max) := by
  obtain ⟨rfl, rfl⟩ | ⟨d, rfl, number⟩ := orDefault_cases h
  · exact ⟨taken_rfl _, fun le => le⟩
  · unfold asNat? at number
    split at number
    · split at number
      · rename_i n le
        obtain rfl := Option.some.inj number
        exact ⟨⟨nofun, fun fits _ => fits _ rfl⟩, fun _ => le⟩
      · cases number
    · cases number

/-- The fields of a section, each taken from where its name says. -/
def TakenFields (source : String → Option Datum) (fields standard : List (String × Datum)) : Prop :=
  List.Forall₂ (fun field default => field.1 = default.1 ∧ Taken (source field.1) field.2 default.2)
    fields standard

namespace TakenFields

variable {source : String → Option Datum} {name : String} {fields standards : List (String × Datum)}

theorem decode {α : Type} {decode : Datum → Option α} {value standard : α} (field : α → Datum)
    (fits : (field value).Fits) (h : orDefault decode standard (source name) = some value)
    (rest : TakenFields source fields standards) :
    TakenFields source ((name, field value) :: fields) ((name, field standard) :: standards) :=
  .cons ⟨rfl, taken_of_decode h field fits⟩ rest

theorem text {value standard : String} (h : orDefault asText? standard (source name) = some value)
    (rest : TakenFields source fields standards) :
    TakenFields source ((name, .string value) :: fields) ((name, .string standard) :: standards) :=
  decode .string (.string value) h rest

theorem bool {value standard : Bool} (h : orDefault asBool? standard (source name) = some value)
    (rest : TakenFields source fields standards) :
    TakenFields source ((name, .bool value) :: fields) ((name, .bool standard) :: standards) :=
  decode .bool (.bool value) h rest

theorem nat {max value standard : Nat}
    (h : orDefault (asNat? max) standard (source name) = some value)
    (rest : TakenFields source fields standards) :
    TakenFields source ((name, .integer value) :: fields) ((name, .integer standard) :: standards) :=
  .cons ⟨rfl, (taken_of_nat h).1⟩ rest

/-- Without a source every field has its default. -/
theorem refl (fields : List (String × Datum)) : TakenFields (fun _ => none) fields fields :=
  List.forall₂_same.2 fun field _ => ⟨rfl, taken_rfl field.2⟩

/-- A field without a source has its default. -/
theorem lookup (h : TakenFields source fields standards) (missing : source name = none) :
    fields.lookup name = standards.lookup name := by
  induction h with
  | nil => rfl
  | @cons field default _ _ first rest ih =>
      rw [List.lookup_cons, List.lookup_cons, ← first.1, ih]
      split
      · rename_i same
        rw [beq_iff_eq] at same
        rw [first.2.missing (same ▸ missing)]
      · rfl

theorem fits (h : TakenFields source fields standards) (sources : ∀ name, ∀ d ∈ source name, d.Fits)
    (defaults : ∀ field ∈ standards, field.2.Fits) : ∀ field ∈ fields, field.2.Fits := by
  induction h with
  | nil => simp
  | cons first rest ih =>
      rw [List.forall_mem_cons] at defaults ⊢
      exact ⟨first.2.fits (sources _) defaults.1, ih defaults.2⟩

end TakenFields

theorem General.takenFields {dialect : Dialect} {d : Datum} {g : General}
    (h : General.ofDatum? dialect d = some g) :
    TakenFields (fun name => column? General.names name d) g.fields ({} : General).fields := by
  obtain ⟨columns, read, h⟩ := Option.bind_eq_some_iff.1 h
  obtain rfl := columns?_eq (names_different General.names (by simp)) read
  obtain ⟨level, level_taken, h⟩ := Option.bind_eq_some_iff.1 h
  obtain rfl := Option.some.inj h
  exact .text level_taken .nil

theorem Engine.takenFields {dialect : Dialect} {d : Datum} {e : Engine}
    (h : Engine.ofDatum? dialect d = some e) :
    TakenFields (fun name => column? Engine.names name d) e.fields ({} : Engine).fields ∧
      e.maxErrorCount ≤ word32 := by
  obtain ⟨columns, read, h⟩ := Option.bind_eq_some_iff.1 h
  obtain rfl := columns?_eq (names_different Engine.names (by simp)) read
  obtain ⟨maxSeconds, maxSeconds_taken, h⟩ := Option.bind_eq_some_iff.1 h
  obtain ⟨mode, mode_taken, h⟩ := Option.bind_eq_some_iff.1 h
  obtain ⟨debug, debug_taken, h⟩ := Option.bind_eq_some_iff.1 h
  obtain ⟨maxErrors, maxErrors_taken, h⟩ := Option.bind_eq_some_iff.1 h
  obtain ⟨poll, poll_taken, h⟩ := Option.bind_eq_some_iff.1 h
  obtain ⟨backoff, backoff_taken, h⟩ := Option.bind_eq_some_iff.1 h
  obtain ⟨stop, stop_taken, h⟩ := Option.bind_eq_some_iff.1 h
  obtain ⟨cleanup, cleanup_taken, h⟩ := Option.bind_eq_some_iff.1 h
  obtain ⟨history, history_taken, h⟩ := Option.bind_eq_some_iff.1 h
  obtain ⟨attack, attack_taken, h⟩ := Option.bind_eq_some_iff.1 h
  obtain rfl := Option.some.inj h
  exact ⟨.decode .float (.float _) maxSeconds_taken (
    .decode (fun mode : Mode => .string mode.name) (.string _) mode_taken (.bool debug_taken (
    .nat maxErrors_taken (.nat poll_taken (.nat backoff_taken (.nat stop_taken (.nat cleanup_taken (
    .nat history_taken (.nat attack_taken .nil))))))))),
    (taken_of_nat maxErrors_taken).2 (by decide)⟩

theorem Target.takenFields {dialect : Dialect} {d : Datum} {t : Target}
    (h : Target.ofDatum? dialect d = some t) :
    TakenFields (fun name => column? Target.names name d) t.fields ({} : Target).fields := by
  obtain ⟨columns, read, h⟩ := Option.bind_eq_some_iff.1 h
  obtain rfl := columns?_eq (names_different Target.names (by simp)) read
  obtain ⟨title, title_taken, h⟩ := Option.bind_eq_some_iff.1 h
  obtain ⟨settle, settle_taken, h⟩ := Option.bind_eq_some_iff.1 h
  obtain ⟨focus, focus_taken, h⟩ := Option.bind_eq_some_iff.1 h
  obtain rfl := Option.some.inj h
  exact .text title_taken (.nat settle_taken (.bool focus_taken .nil))

theorem KeyNames.takenFields {dialect : Dialect} {d : Datum} {k : KeyNames}
    (h : KeyNames.ofDatum? dialect d = some k) :
    TakenFields (fun name => column? KeyNames.names name d) k.fields ({} : KeyNames).fields := by
  obtain ⟨columns, read, h⟩ := Option.bind_eq_some_iff.1 h
  obtain rfl := columns?_eq (names_different KeyNames.names (by simp)) read
  obtain ⟨forward, forward_taken, h⟩ := Option.bind_eq_some_iff.1 h
  obtain ⟨left, left_taken, h⟩ := Option.bind_eq_some_iff.1 h
  obtain ⟨back, back_taken, h⟩ := Option.bind_eq_some_iff.1 h
  obtain ⟨right, right_taken, h⟩ := Option.bind_eq_some_iff.1 h
  obtain ⟨skill, skill_taken, h⟩ := Option.bind_eq_some_iff.1 h
  obtain ⟨burst, burst_taken, h⟩ := Option.bind_eq_some_iff.1 h
  obtain ⟨attack, attack_taken, h⟩ := Option.bind_eq_some_iff.1 h
  obtain ⟨sprint, sprint_taken, h⟩ := Option.bind_eq_some_iff.1 h
  obtain ⟨jump, jump_taken, h⟩ := Option.bind_eq_some_iff.1 h
  obtain ⟨interact, interact_taken, h⟩ := Option.bind_eq_some_iff.1 h
  obtain ⟨altInteract, altInteract_taken, h⟩ := Option.bind_eq_some_iff.1 h
  obtain ⟨member1, member1_taken, h⟩ := Option.bind_eq_some_iff.1 h
  obtain ⟨member2, member2_taken, h⟩ := Option.bind_eq_some_iff.1 h
  obtain ⟨member3, member3_taken, h⟩ := Option.bind_eq_some_iff.1 h
  obtain ⟨member4, member4_taken, h⟩ := Option.bind_eq_some_iff.1 h
  obtain rfl := Option.some.inj h
  exact .text forward_taken (.text left_taken (.text back_taken (.text right_taken (
    .text skill_taken (.text burst_taken (.text attack_taken (.text sprint_taken (.text jump_taken (
    .text interact_taken (.text altInteract_taken (.text member1_taken (.text member2_taken (
    .text member3_taken (.text member4_taken .nil))))))))))))))

/-! ## Whole configurations -/

namespace Config

/-- The names of the fields of a section, in their order. -/
def fieldNames (part : String) : List String :=
  ((({} : Config).sections.lookup part).getD []).map Prod.fst

/-- The value that a file has for a field, if it has one. -/
def given? (file : Datum) (part name : String) : Option Datum :=
  (file.field? part).bind (column? (fieldNames part) name)

/-- The value of a field of a configuration. -/
def value? (c : Config) (part name : String) : Option Datum :=
  (c.sections.lookup part).bind fun fields => fields.lookup name

/-- The sections of a configuration, each with its fields taken from a file. -/
def TakenParts (file : Datum) (parts standards : List (String × List (String × Datum))) : Prop :=
  List.Forall₂ (fun part standard => part.1 = standard.1 ∧
    TakenFields (given? file part.1) part.2 standard.2) parts standards

theorem given?_eq {file : Datum} {part : String} {names : List String} (same : fieldNames part = names) :
    given? file part = fun name => (file.field? part).bind (column? names name) := by
  rw [← same]
  rfl

/-- A section that is missing has all its defaults. -/
theorem takenFields_of_part {α : Type} {ofDatum? : Datum → Option α} {names : List String}
    {column : Option Datum} {value standard : α} (fields : α → List (String × Datum))
    (each : ∀ d, ofDatum? d = some value →
      TakenFields (fun name => column? names name d) (fields value) (fields standard))
    (h : orDefault ofDatum? standard column = some value) :
    TakenFields (fun name => column.bind (column? names name)) (fields value) (fields standard) := by
  obtain ⟨rfl, rfl⟩ | ⟨d, rfl, described⟩ := orDefault_cases h
  · exact .refl _
  · exact each d described

/-- A configuration has its fields from the file, and its count of errors is a word. -/
theorem takenParts {dialect : Dialect} {parts : List (String × Datum)} {c : Config}
    (h : ofDatum? dialect (.record parts) = some c) :
    TakenParts (.record parts) c.sections ({} : Config).sections ∧ c.engine.maxErrorCount ≤ word32 := by
  obtain ⟨general, general_taken, h⟩ := Option.bind_eq_some_iff.1 h
  obtain ⟨engine, engine_taken, h⟩ := Option.bind_eq_some_iff.1 h
  obtain ⟨target, target_taken, h⟩ := Option.bind_eq_some_iff.1 h
  obtain ⟨keys, keys_taken, h⟩ := Option.bind_eq_some_iff.1 h
  obtain rfl := Option.some.inj h
  have names : fieldNames "general" = General.names ∧ fieldNames "engine" = Engine.names ∧
      fieldNames "target" = Target.names ∧ fieldNames "keys" = KeyNames.names := by decide +kernel
  refine ⟨.cons ⟨rfl, ?_⟩ (.cons ⟨rfl, ?_⟩ (.cons ⟨rfl, ?_⟩ (.cons ⟨rfl, ?_⟩ .nil))), ?_⟩
  · rw [given?_eq names.1]
    exact takenFields_of_part General.fields (fun _ => General.takenFields) general_taken
  · rw [given?_eq names.2.1]
    exact takenFields_of_part Engine.fields (fun _ h => (Engine.takenFields h).1) engine_taken
  · rw [given?_eq names.2.2.1]
    exact takenFields_of_part Target.fields (fun _ => Target.takenFields) target_taken
  · rw [given?_eq names.2.2.2]
    exact takenFields_of_part KeyNames.fields (fun _ => KeyNames.takenFields) keys_taken
  · obtain ⟨-, rfl⟩ | ⟨d, -, described⟩ := orDefault_cases engine_taken
    · change 5 ≤ word32
      decide
    · exact (Engine.takenFields described).2

namespace TakenParts

variable {file : Datum} {parts standards : List (String × List (String × Datum))}

/-- A field that is missing from the file has its default. -/
theorem lookup (h : TakenParts file parts standards) {part name : String}
    (missing : given? file part name = none) :
    ((parts.lookup part).bind fun fields => fields.lookup name) =
      (standards.lookup part).bind fun fields => fields.lookup name := by
  induction h with
  | nil => rfl
  | @cons own standard _ _ first rest ih =>
      rw [List.lookup_cons, List.lookup_cons, ← first.1]
      split
      · rename_i same
        rw [beq_iff_eq] at same
        exact first.2.lookup (same ▸ missing)
      · exact ih

/-- The integers of the sections fit if those of the file do. -/
theorem fits (h : TakenParts file parts standards)
    (sources : ∀ part name, ∀ d ∈ given? file part name, d.Fits)
    (defaults : ∀ standard ∈ standards, ∀ field ∈ standard.2, field.2.Fits) :
    ∀ part ∈ parts, ∀ field ∈ part.2, field.2.Fits := by
  induction h with
  | nil => simp
  | cons first rest ih =>
      rw [List.forall_mem_cons] at defaults ⊢
      exact ⟨first.2.fits (sources _) defaults.1, ih defaults.2⟩

end TakenParts

theorem fits_field? {d : Datum} (fits : d.Fits) (name : String) : ∀ inner ∈ d.field? name, inner.Fits := by
  intro inner found
  cases fits with
  | record fields fits =>
      obtain ⟨p, t, rfl, -⟩ := List.lookup_eq_some_iff.1 found
      exact fits (name, inner) (by simp)
  | null | bool | float | string | integer | list => cases found

/-- What a file has fits if all of it does. -/
theorem given?_fits {file : Datum} (fits : file.Fits) (part name : String) :
    ∀ d ∈ given? file part name, d.Fits := by
  intro d found
  obtain ⟨inner, outer, found⟩ := Option.bind_eq_some_iff.1 found
  cases fits_field? fits part inner outer with
  | list items fits => exact fits d (List.mem_of_getElem? found)
  | record fields fits => exact fits_field? (.record fields fits) name d found
  | null | bool | float | string | integer => cases found

end Config

end Combo
