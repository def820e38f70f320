-- SUMMARY: Decoding data into typed values: numbers, texts, named variants and records.
import Combo.Datum.Basic

/-!
# Decoding data

A whole number is accepted where a float is wanted, never the other way round.
A record may also be given as the list of its fields in order. Unknown fields
are ignored. A variant without content is its name, or a record that maps the
name to an empty value; formats differ in what is empty, and in whether a list
may be longer than the record it stands for.
-/

namespace Combo

/-- What a format lays down for decoding. -/
structure Dialect where
  /-- Whether a datum is the empty content of a variant. -/
  isEmpty : Datum → Bool
  /-- Whether a list may be longer than the record it stands for. -/
  longLists : Bool

namespace Dialect

/-- JSON: `null` is empty, and lists have the length of their record. -/
def json : Dialect where
  isEmpty
    | .null => true
    | _ => false
  longLists := false

/-- TOML: an empty table or list is empty, and what a list has too much is ignored. -/
def toml : Dialect where
  isEmpty
    | .record [] => true
    | .list [] => true
    | _ => false
  longLists := true

end Dialect

namespace Datum

/-! ## Scalars -/

/-- A text. -/
def asText? : Datum → Option String
  | .string s => some s
  | _ => none

/-- A truth value. -/
def asBool? : Datum → Option Bool
  | .bool b => some b
  | _ => none

/-- A natural number not above `max`. -/
def asNat? (max : Nat) : Datum → Option Nat
  | .integer (.ofNat n) => if n ≤ max then some n else none
  | _ => none

/-- The float nearest to a whole number. -/
def floatOfInt : Int → Float
  | .ofNat n => Float.ofNat n
  | .negSucc n => -(Float.ofNat (n + 1))

/-- A float, or a whole number in its place. -/
def asFloat? : Datum → Option Float
  | .float x => some x
  | .integer n => some (floatOfInt n)
  | _ => none

/-- Nothing for `null`, else what a decoder makes of the value. -/
def asOptional? {α : Type} (decode : Datum → Option α) : Datum → Option (Option α)
  | .null => some none
  | d => (decode d).map some

/-! ## Variants -/

/-- The name of a variant, and its content if it has any. -/
def variant? : Datum → Option (String × Option Datum)
  | .string name => some (name, none)
  | .record [(name, content)] => some (name, some content)
  | _ => none

/-- A variant without content. -/
def asVariant? {α : Type} (dialect : Dialect) (ofName? : String → Option α) (d : Datum) :
    Option α := do
  let (name, content) ← d.variant?
  match content with
  | none => ofName? name
  | some content => if dialect.isEmpty content then ofName? name else none

/-! ## Records -/

/-- The values of named fields, from a record or from a list in their order. -/
def columns? (dialect : Dialect) (names : List String) : Datum → Option (List (Option Datum))
  | .record fields => some (names.map fun name => fields.lookup name)
  | .list items =>
    if dialect.longLists || items.length ≤ names.length then
      some (names.mapIdx fun i _ => items[i]?)
    else none
  | _ => none

/-- A field that may be missing and then has a default. -/
def orDefault {α : Type} (decode : Datum → Option α) (default : α) : Option Datum → Option α
  | none => some default
  | some d => decode d

/-- A field that must be there. -/
def required {α : Type} (decode : Datum → Option α) : Option Datum → Option α
  | none => none
  | some d => decode d

end Datum

end Combo
