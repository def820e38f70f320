-- SUMMARY: The status of a queue as a record.
import Combo.Queue.Basic
import Combo.Config.Record

/-!
# The status as a record
-/

namespace Combo.Queue

open Datum

/-- The names of a status's fields. -/
def Status.names : List String :=
  ["pending_actions_text", "pending_count", "estimated_completion_ms", "last_input_text",
   "finished_count", "finished_sample_text", "running_count", "running_text", "error_count"]

/-- A status as a datum. -/
def Status.datum (s : Status) : Datum :=
  .record
    [("pending_actions_text", .string s.pendingText),
     ("pending_count", .integer s.pendingCount),
     ("estimated_completion_ms", .integer s.completionMs),
     ("last_input_text", .string s.lastScript),
     ("finished_count", .integer s.finishedCount),
     ("finished_sample_text", .string s.finishedText),
     ("running_count", .integer s.runningCount),
     ("running_text", .string s.runningText),
     ("error_count", .integer s.errorCount)]

/-- The status a datum describes. -/
def Status.ofDatum? (dialect : Dialect) (d : Datum) : Option Status := do
  match ← columns? dialect names d with
  | [pendingText, pendingCount, completion, lastScript, finishedCount, finishedText, runningCount,
     runningText, errorCount] =>
    return {
      pendingText := ← required asText? pendingText
      pendingCount := ← required (asNat? word64) pendingCount
      completionMs := ← required (asNat? word64) completion
      lastScript := ← required asText? lastScript
      finishedCount := ← required (asNat? word64) finishedCount
      finishedText := ← required asText? finishedText
      runningCount := ← required (asNat? word64) runningCount
      runningText := ← required asText? runningText
      errorCount := ← required (asNat? word32) errorCount }
  | _ => none

end Combo.Queue
