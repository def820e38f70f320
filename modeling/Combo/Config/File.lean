-- SUMMARY: Configuration files: loading with checks, falling back to defaults, and saving.
import Combo.Config.Record
import Combo.Datum.Toml.Document
import Combo.Datum.Toml.Write
import Combo.Error

/-!
# Configuration files

A file is UTF-8 text in TOML. Loading refuses a file that is missing, is no
text, does not describe a configuration, or sets limits the engine cannot work
with. Saving checks nothing but whether the numbers can be written.
-/

namespace Combo.Config

/-- Why a configuration file is not loaded. -/
inductive LoadError where
  | missing
  | notText
  /-- The text is no TOML, or a field has the wrong type. -/
  | malformed
  | engine (fault : Engine.Fault)
  deriving DecidableEq

/-- The program error of a load error; the details of malformed files are left open. -/
def LoadError.program : LoadError → ProgramError
  | .missing => .file "No such file or directory (os error 2)"
  | .notText => .file "stream did not contain valid UTF-8"
  | .malformed => .config "malformed file"
  | .engine fault => .config fault.message

/-- How data is read from a text, and how the sections of a document are written as one. -/
structure Format where
  read? : String → Option Datum
  write? : List (String × List (String × Datum)) → Option String

namespace Format

/-- The format of configuration files. -/
def toml : Format := ⟨Toml.read?, Toml.write?⟩

/-- The configuration a text describes. -/
def ofText (f : Format) (text : String) : Except LoadError Config :=
  match (f.read? text).bind (ofDatum? Dialect.toml) with
  | none => .error .malformed
  | some c =>
    match c.engine.fault? with
    | some fault => .error (.engine fault)
    | none => .ok c

/-- The configuration in a file, given its bytes if there is one. -/
def load (f : Format) (file : Option ByteArray) : Except LoadError Config :=
  match file with
  | none => .error .missing
  | some bytes =>
    match String.fromUTF8? bytes with
    | none => .error .notText
    | some text => f.ofText text

/-- The configuration in a file, or the default where it cannot be loaded. -/
def loadOrDefault (f : Format) (file : Option ByteArray) : Config :=
  match f.load file with
  | .ok c => c
  | .error _ => {}

/-- The text of a configuration; nothing when a number is too large. -/
def text? (f : Format) (c : Config) : Option String := f.write? c.sections

end Format

/-- The configuration in a file, given its bytes if there is one. -/
def load (file : Option ByteArray) : Except LoadError Config := Format.toml.load file

/-- The configuration in a file, or the default where it cannot be loaded. -/
def loadOrDefault (file : Option ByteArray) : Config := Format.toml.loadOrDefault file

/-- The text of a configuration; nothing when a number is too large. -/
def text? (c : Config) : Option String := Format.toml.text? c

end Combo.Config
