-- SUMMARY: Self-describing data: the common ground of the formats that configurations and records are kept in.

/-!
# Data

Configurations and records are read from and written to formats whose texts
describe themselves. A datum is what such a text stands for.
-/

namespace Combo

/-- A self-describing value. -/
inductive Datum where
  | null
  | bool (value : Bool)
  | integer (value : Int)
  | float (value : Float)
  | string (value : String)
  | list (items : List Datum)
  | record (fields : List (String × Datum))
  deriving Inhabited

/-- The value of a field. -/
def Datum.field? (name : String) : Datum → Option Datum
  | .record fields => fields.lookup name
  | _ => none

/-- Puts a field into a record; a field of the same name is replaced. -/
def putField (name : String) (value : Datum) : List (String × Datum) → List (String × Datum)
  | [] => [(name, value)]
  | (n, v) :: r => if n = name then (n, value) :: r else (n, v) :: putField name value r

end Combo
