-- SUMMARY: Kinds, inputs, stations and actions as records.
import Combo.Action.Basic
import Combo.Executor.Outcome
import Combo.Datum.Decode

/-!
# Actions as records
-/

namespace Combo

open Datum

/-- The kind a datum names. -/
def Kind.ofDatum? (dialect : Dialect) (d : Datum) : Option Kind := asVariant? dialect ofName? d

/-- The station a datum names. -/
def ActionState.ofDatum? (dialect : Dialect) (d : Datum) : Option ActionState :=
  asVariant? dialect ofName? d

/-- An input as a datum: its name, or the slot of a party member. -/
def Input.datum (input : Input) : Datum :=
  match input with
  | .member slot => .record [("member", .integer slot)]
  | _ => .string input.name

/-- The input a datum names. A party member has a slot of eight bits. -/
def Input.ofDatum? (dialect : Dialect) (d : Datum) : Option Input := do
  match ← d.variant? with
  | ("member", some slot) => return .member (← asNat? 255 slot)
  | ("member", none) => none
  | _ => asVariant? dialect ofName? d

/-- The names of an action's fields. -/
def Action.names : List String := ["action_type", "parameter", "duration_secs"]

/-- The fields of an action. -/
def Action.fields (a : Action) : List (String × Datum) :=
  [("action_type", .string a.kind.name),
   ("parameter", match a.parameter with
      | some p => .string p
      | none => .null),
   ("duration_secs", .float a.seconds)]

/-- The action a datum describes; a missing parameter is none. -/
def Action.ofDatum? (dialect : Dialect) (d : Datum) : Option Action := do
  match d, ← columns? dialect names d with
  | .list _, [some kind, some parameter, some seconds] =>
    return ⟨← Kind.ofDatum? dialect kind, ← asOptional? asText? parameter, ← asFloat? seconds⟩
  | .list _, _ => none
  | _, [kind, parameter, seconds] =>
    return ⟨← required (Kind.ofDatum? dialect) kind,
      ← orDefault (asOptional? asText?) none parameter, ← required asFloat? seconds⟩
  | _, _ => none

end Combo
