-- SUMMARY: What can go wrong while resolving keys, driving a device or focusing the game window.
import Combo.Number.Integer

/-!
# Input errors
-/

namespace Combo

/-- A fault of key resolution, of an input device or of focus control. -/
inductive InputError where
  | unknownKey (name : String)
  | unsupported
  | partialSend (sent expected : Nat)
  | windowNotFound (title : String)
  | focus (detail : String)
  | device (detail : String)
  deriving DecidableEq, Repr

/-- The wording of an input error. -/
def InputError.message : InputError → String
  | .unknownKey name => "Unknown key name: " ++ name
  | .unsupported => "Input injection is only available on Windows"
  | .partialSend sent expected =>
    "SendInput only sent " ++ Number.natText sent ++ " of " ++ Number.natText expected ++ " events"
  | .windowNotFound title => "Target window not found: " ++ title
  | .focus detail => "Failed to focus target window: " ++ detail
  | .device detail => "Input device failure: " ++ detail

end Combo
