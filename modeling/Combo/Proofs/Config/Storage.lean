-- SUMMARY: A saved configuration is loaded as it was, or refused for its limits; what a file leaves out has its default.
import Combo.Config.File
import Combo.Proofs.Config.Record
import Combo.Proofs.Datum.Toml.Document

/-!
# Saved configurations

Saving writes every field and checks no limits; loading checks them. A field is taken from
the file if it is there, and else from the default, so a configuration that was loaded can
be saved, and is loaded again as it is. This only needs a format that reads what it writes, and no
numbers that it could not write.
-/

namespace Combo

open Datum

/-! ## Saving -/

/-- The names of the sections and of the fields are bare. -/
theorem names_bare : ∀ names ∈ [Config.names, General.names, Engine.names, Target.names, KeyNames.names],
    ∀ name ∈ names, Toml.IsBareName name := by
  decide +kernel

/-- What has a text of its own. -/
def Datum.isScalar : Datum → Bool
  | .bool _ | .integer _ | .float _ | .string _ => true
  | .null | .list _ | .record _ => false

/-- A scalar can be written exactly if it fits. -/
theorem isSome_scalar?_iff {d : Datum} (scalar : d.isScalar = true) :
    (Toml.scalar? d).isSome = true ↔ d.Fits := by
  cases d with
  | null | list | record => cases scalar
  | bool value =>
      refine iff_of_true ?_ (.bool value)
      cases value with
      | false => rfl
      | true => rfl
  | float value => exact iff_of_true rfl (.float value)
  | string value => exact iff_of_true rfl (.string value)
  | integer value =>
      rw [Toml.scalar?]
      constructor
      · intro written
        split at written
        · rename_i bounds
          exact .integer value bounds.1 bounds.2
        · cases written
      · intro fits
        cases fits with
        | integer _ low high =>
            rw [if_pos ⟨low, high⟩]
            rfl

namespace Config

/-- The sections of a configuration make a document. -/
theorem isDocument (c : Config) : Toml.IsDocument c.sections := by
  have fields : ∀ part ∈ c.sections,
      part.2.map Prod.fst ∈ [General.names, Engine.names, Target.names, KeyNames.names] := by
    simp only [sections, List.forall_mem_cons]
    exact ⟨.head _, .tail _ (.head _), .tail _ (.tail _ (.head _)), .tail _ (.tail _ (.tail _ (.head _))),
      List.forall_mem_nil _⟩
  have different := names_different
  have bare := names_bare
  rw [List.forall_mem_cons] at different bare
  refine ⟨different.1, fun part member => bare.1 part.1 (List.mem_map_of_mem member),
    fun part member => different.2 _ (fields part member), fun part member field inside => ?_⟩
  exact bare.2 _ (fields part member) field.1 (List.mem_map_of_mem inside)

/-- Every field of a configuration is a scalar. -/
theorem fields_isScalar (c : Config) : ∀ part ∈ c.sections, ∀ field ∈ part.2, field.2.isScalar = true := by
  have all : c.sections.all (fun part => part.2.all fun field => field.2.isScalar) = true := rfl
  simpa only [List.all_eq_true] using all

/-- The fields of a configuration that can be written fit. -/
theorem fields_fit {c : Config}
    (written : c.sections.all (fun part => part.2.all fun field => (Toml.scalar? field.2).isSome) = true) :
    ∀ part ∈ c.sections, ∀ field ∈ part.2, field.2.Fits := by
  simp only [List.all_eq_true] at written
  exact fun part member field inside =>
    (isSome_scalar?_iff (c.fields_isScalar part member field inside)).1 (written part member field inside)

/--
Whether a format reads what it writes, can write every document of scalars that fit, and reads nothing that
does not fit.
-/
structure Format.RoundTrips (f : Format) : Prop where
  writes : ∀ sections, Toml.IsDocument sections →
    (∀ part ∈ sections, ∀ field ∈ part.2, field.2.isScalar = true ∧ field.2.Fits) →
    ∃ text, f.write? sections = some text
  reads : ∀ sections text, Toml.IsDocument sections → f.write? sections = some text →
    f.read? text = some (.record (sections.map fun (name, fields) => (name, .record fields)))
  fits : ∀ text d, f.read? text = some d → ∃ fields, d = .record fields ∧ d.Fits

/-- The format of configuration files is one. -/
theorem toml_roundTrips : Format.toml.RoundTrips where
  writes := fun _ _ scalars => Toml.exists_write? fun part member field inside =>
    have ⟨scalar, fits⟩ := scalars part member field inside
    (isSome_scalar?_iff scalar).2 fits
  reads := fun sections _ document written => Toml.read?_write? sections document written
  fits := fun _ _ read => Toml.read?_fits read

variable {f : Format}

/-- A configuration that fits can be saved, and what is saved is read as its datum. -/
theorem exists_text {c : Config} (trips : f.RoundTrips) (fits : c.Fits) :
    ∃ text, f.text? c = some text ∧ f.read? text = some c.datum := by
  obtain ⟨text, written⟩ := trips.writes c.sections c.isDocument fun part member field inside =>
    ⟨c.fields_isScalar part member field inside, fits.field part member field inside⟩
  exact ⟨text, written, trips.reads c.sections text c.isDocument written⟩

/-! ## Loading -/

theorem fromUTF8?_toUTF8 (text : String) : String.fromUTF8? text.toUTF8 = some text := by
  rw [String.toUTF8_eq_toByteArray]
  exact dif_pos text.isValidUTF8

/-- A file of text that describes a configuration is loaded if the engine accepts the limits. -/
theorem load_of_read? {text : String} {d : Datum} {c : Config} (read : f.read? text = some d)
    (described : ofDatum? Dialect.toml d = some c) :
    (c.engine.fault? = none → f.load (some text.toUTF8) = .ok c) ∧
      ∀ fault, c.engine.fault? = some fault → f.load (some text.toUTF8) = .error (.engine fault) := by
  have text_eq : f.load (some text.toUTF8) = f.ofText text := by
    simp only [Format.load, fromUTF8?_toUTF8]
  rw [text_eq, Format.ofText, read, Option.bind_some, described]
  constructor
  · intro none_left
    simp only [none_left]
  · intro fault found
    simp only [found]

/-- What is loaded fits, and has the defaults for what is missing. -/
theorem fits_of_read? {text : String} {d : Datum} {c : Config} (trips : f.RoundTrips)
    (read : f.read? text = some d) (described : ofDatum? Dialect.toml d = some c) : c.Fits ∧
      ∀ part name, given? d part name = none → c.value? part name = ({} : Config).value? part name := by
  obtain ⟨parts, rfl, fits⟩ := trips.fits text d read
  obtain ⟨taken, count⟩ := takenParts described
  have defaults := fields_fit (c := {}) (by decide +kernel)
  exact ⟨.of_fields (taken.fits (given?_fits fits) defaults) count,
    fun part name missing => taken.lookup missing⟩

/-- What is loaded was described by the text of the file, and the engine accepts its limits. -/
theorem load_ok {file : Option ByteArray} {c : Config} (h : f.load file = .ok c) :
    ∃ bytes text d, file = some bytes ∧ String.fromUTF8? bytes = some text ∧ f.read? text = some d ∧
      ofDatum? Dialect.toml d = some c ∧ c.engine.fault? = none := by
  unfold Format.load at h
  split at h
  · cases h
  rename_i bytes
  split at h
  · cases h
  rename_i text decoded
  unfold Format.ofText at h
  split at h
  · cases h
  rename_i loaded described
  obtain ⟨d, read, described⟩ := Option.bind_eq_some_iff.1 described
  split at h
  · cases h
  · rename_i sound
    obtain rfl := Except.ok.inj h
    exact ⟨bytes, text, d, rfl, decoded, read, described, sound⟩

/--
With a format that reads what it writes, as the one of the files does: a configuration whose integers fit can
be saved. What was saved is loaded as it was if the
engine accepts its limits, and is refused for them if not. A file that is loaded gives every
field that it leaves out its default, and what it gives can be saved and loaded again.
-/
theorem saves_and_loads : Format.toml.RoundTrips ∧ ∀ f : Format, f.RoundTrips →
    (∀ c : Config, c.Fits → ∃ text, f.text? c = some text ∧
      (c.engine.fault? = none → f.load (some text.toUTF8) = .ok c) ∧
      ∀ fault, c.engine.fault? = some fault →
        f.load (some text.toUTF8) = .error (.engine fault) ∧
          (LoadError.engine fault).program = .config fault.message ∧
          f.loadOrDefault (some text.toUTF8) = {}) ∧
    ∀ file c, f.load file = .ok c →
      (∃ bytes text d, file = some bytes ∧ String.fromUTF8? bytes = some text ∧
        f.read? text = some d ∧
        ∀ part name, given? d part name = none → c.value? part name = ({} : Config).value? part name) ∧
      ∃ text, f.text? c = some text ∧ f.load (some text.toUTF8) = .ok c := by
  refine ⟨toml_roundTrips, fun f trips => ?_⟩
  have saved {c : Config} (fits : c.Fits) : ∃ text, f.text? c = some text ∧
      (c.engine.fault? = none → f.load (some text.toUTF8) = .ok c) ∧
      ∀ fault, c.engine.fault? = some fault → f.load (some text.toUTF8) = .error (.engine fault) := by
    obtain ⟨text, written, read⟩ := exists_text trips fits
    exact ⟨text, written, load_of_read? read (ofDatum?_datum _ fits)⟩
  refine ⟨fun c fits => ?_, fun file c loaded => ?_⟩
  · obtain ⟨text, written, accepted, refused⟩ := saved fits
    refine ⟨text, written, accepted, fun fault found => ⟨refused fault found, rfl, ?_⟩⟩
    rw [Format.loadOrDefault, refused fault found]
  · obtain ⟨bytes, text, d, rfl, decoded, read, described, sound⟩ := load_ok loaded
    obtain ⟨fits, defaults⟩ := fits_of_read? trips read described
    obtain ⟨again, written, accepted, -⟩ := saved fits
    exact ⟨⟨bytes, text, d, rfl, decoded, read, defaults⟩, again, written, accepted sound⟩

/-- A file that only sets the mode, and a configuration with a name that needs escapes. -/
theorem saves_and_loads_partial :
    (∃ text, ({ keys := { jump := "\"\"\"\n\\\x01" } } : Config).text? = some text ∧
      load (some text.toUTF8) = .ok { keys := { jump := "\"\"\"\n\\\x01" } }) ∧
    load (some "[engine]\nqueue_mode = \"merge\"\n".toUTF8) = .ok { engine := { mode := .merge } } ∧
    ∃ text, ({ engine := { mode := .merge } } : Config).text? = some text ∧
      load (some text.toUTF8) = .ok { engine := { mode := .merge } } := by
  have fits : ({ keys := { jump := "\"\"\"\n\\\x01" } } : Config).Fits :=
    .of_fields (fields_fit (by decide +kernel)) (by decide)
  have read : Format.toml.read? "[engine]\nqueue_mode = \"merge\"\n" =
      some (.record [("engine", .record [("queue_mode", .string "merge")])]) :=
    Toml.read?_write? [("engine", [("queue_mode", .string "merge")])]
      ⟨by decide +kernel, by decide +kernel, by decide +kernel, by decide +kernel⟩ (by decide +kernel)
  have loaded : load (some "[engine]\nqueue_mode = \"merge\"\n".toUTF8) =
      .ok { engine := { mode := .merge } } :=
    (load_of_read? read (by decide +kernel)).1 (by decide +kernel)
  obtain ⟨trips, laws⟩ := saves_and_loads
  obtain ⟨saves, loads⟩ := laws Format.toml trips
  obtain ⟨text, written, accepted, -⟩ := saves _ fits
  exact ⟨⟨text, written, accepted (by decide +kernel)⟩, loaded, (loads _ _ loaded).2⟩

end Config

end Combo
