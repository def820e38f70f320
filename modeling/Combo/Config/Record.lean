-- SUMMARY: The configuration as data: its sections and fields by name, written and read with defaults.
import Combo.Config.Basic
import Combo.Datum.Decode

/-!
# The configuration as data

Every section and every field may be missing and then has its default; a field
that is there must have the type it is declared with.
-/

namespace Combo

open Datum

/-- The largest 64-bit word. -/
def word64 : Nat := Number.wordMax 64

/-- The largest 32-bit word. -/
def word32 : Nat := Number.wordMax 32

/-! ## General settings -/

/-- The names of the general settings. -/
def General.names : List String := ["log_level"]

/-- The general settings as fields. -/
def General.fields (g : General) : List (String × Datum) := [("log_level", .string g.logLevel)]

/-- The general settings a datum describes. -/
def General.ofDatum? (dialect : Dialect) (d : Datum) : Option General := do
  match ← columns? dialect names d with
  | [level] => return { logLevel := ← orDefault asText? ({} : General).logLevel level }
  | _ => none

/-! ## Engine -/

/-- The names of the engine's fields. -/
def Engine.names : List String :=
  ["max_action_duration_secs", "queue_mode", "debug", "max_error_count", "poll_interval_ms",
   "error_backoff_ms", "stop_timeout_ms", "cleanup_timeout_ms", "history_limit",
   "attack_interval_ms"]

/-- The engine as fields. -/
def Engine.fields (e : Engine) : List (String × Datum) :=
  [("max_action_duration_secs", .float e.maxActionSeconds),
   ("queue_mode", .string e.mode.name),
   ("debug", .bool e.debug),
   ("max_error_count", .integer e.maxErrorCount),
   ("poll_interval_ms", .integer e.pollMs),
   ("error_backoff_ms", .integer e.backoffMs),
   ("stop_timeout_ms", .integer e.stopMs),
   ("cleanup_timeout_ms", .integer e.cleanupMs),
   ("history_limit", .integer e.historyLimit),
   ("attack_interval_ms", .integer e.attackMs)]

/-- The engine a datum describes. -/
def Engine.ofDatum? (dialect : Dialect) (d : Datum) : Option Engine := do
  let standard : Engine := {}
  match ← columns? dialect names d with
  | [maxSeconds, mode, debug, maxErrors, poll, backoff, stop, cleanup, history, attack] =>
    return {
      maxActionSeconds := ← orDefault asFloat? standard.maxActionSeconds maxSeconds
      mode := ← orDefault (asVariant? dialect Mode.ofName?) standard.mode mode
      debug := ← orDefault asBool? standard.debug debug
      maxErrorCount := ← orDefault (asNat? word32) standard.maxErrorCount maxErrors
      pollMs := ← orDefault (asNat? word64) standard.pollMs poll
      backoffMs := ← orDefault (asNat? word64) standard.backoffMs backoff
      stopMs := ← orDefault (asNat? word64) standard.stopMs stop
      cleanupMs := ← orDefault (asNat? word64) standard.cleanupMs cleanup
      historyLimit := ← orDefault (asNat? word64) standard.historyLimit history
      attackMs := ← orDefault (asNat? word64) standard.attackMs attack }
  | _ => none

/-! ## Target -/

/-- The names of the target's fields. -/
def Target.names : List String := ["window_title", "focus_settle_ms", "require_focus"]

/-- The target as fields. -/
def Target.fields (t : Target) : List (String × Datum) :=
  [("window_title", .string t.windowTitle),
   ("focus_settle_ms", .integer t.settleMs),
   ("require_focus", .bool t.requireFocus)]

/-- The target a datum describes. -/
def Target.ofDatum? (dialect : Dialect) (d : Datum) : Option Target := do
  let standard : Target := {}
  match ← columns? dialect names d with
  | [title, settle, focus] =>
    return {
      windowTitle := ← orDefault asText? standard.windowTitle title
      settleMs := ← orDefault (asNat? word64) standard.settleMs settle
      requireFocus := ← orDefault asBool? standard.requireFocus focus }
  | _ => none

/-! ## Key names -/

/-- The names of the key fields. -/
def KeyNames.names : List String :=
  ["forward", "left", "back", "right", "skill", "burst", "attack", "sprint", "jump", "interact",
   "alt_interact", "member_1", "member_2", "member_3", "member_4"]

/-- The key names as fields. -/
def KeyNames.fields (k : KeyNames) : List (String × Datum) :=
  [("forward", .string k.forward), ("left", .string k.left), ("back", .string k.back),
   ("right", .string k.right), ("skill", .string k.skill), ("burst", .string k.burst),
   ("attack", .string k.attack), ("sprint", .string k.sprint), ("jump", .string k.jump),
   ("interact", .string k.interact), ("alt_interact", .string k.altInteract),
   ("member_1", .string k.member1), ("member_2", .string k.member2),
   ("member_3", .string k.member3), ("member_4", .string k.member4)]

/-- The key names a datum describes. -/
def KeyNames.ofDatum? (dialect : Dialect) (d : Datum) : Option KeyNames := do
  let standard : KeyNames := {}
  match ← columns? dialect names d with
  | [forward, left, back, right, skill, burst, attack, sprint, jump, interact, altInteract,
     member1, member2, member3, member4] =>
    return {
      forward := ← orDefault asText? standard.forward forward
      left := ← orDefault asText? standard.left left
      back := ← orDefault asText? standard.back back
      right := ← orDefault asText? standard.right right
      skill := ← orDefault asText? standard.skill skill
      burst := ← orDefault asText? standard.burst burst
      attack := ← orDefault asText? standard.attack attack
      sprint := ← orDefault asText? standard.sprint sprint
      jump := ← orDefault asText? standard.jump jump
      interact := ← orDefault asText? standard.interact interact
      altInteract := ← orDefault asText? standard.altInteract altInteract
      member1 := ← orDefault asText? standard.member1 member1
      member2 := ← orDefault asText? standard.member2 member2
      member3 := ← orDefault asText? standard.member3 member3
      member4 := ← orDefault asText? standard.member4 member4 }
  | _ => none

/-! ## Whole configurations -/

/-- The names of the sections. -/
def Config.names : List String := ["general", "engine", "target", "keys"]

/-- The sections of a configuration. -/
def Config.sections (c : Config) : List (String × List (String × Datum)) :=
  [("general", c.general.fields), ("engine", c.engine.fields), ("target", c.target.fields),
   ("keys", c.keys.fields)]

/-- The configuration as a datum. -/
def Config.datum (c : Config) : Datum :=
  .record (c.sections.map fun (name, fields) => (name, .record fields))

/-- The configuration a datum describes. -/
def Config.ofDatum? (dialect : Dialect) (d : Datum) : Option Config := do
  match ← columns? dialect names d with
  | [general, engine, target, keys] =>
    return {
      general := ← orDefault (General.ofDatum? dialect) {} general
      engine := ← orDefault (Engine.ofDatum? dialect) {} engine
      target := ← orDefault (Target.ofDatum? dialect) {} target
      keys := ← orDefault (KeyNames.ofDatum? dialect) {} keys }
  | _ => none

end Combo
