-- SUMMARY: Physical keys and mouse buttons, the vocabulary of key names, and its reading.
import Combo.Input.Error
import Combo.Text.Blank

/-!
# Keys

A key name is read without regard to letter case and surrounding blanks. It is
a single letter or digit, one of the named keys and buttons, or a function key
`f1` to `f12`.
-/

namespace Combo

/-- A physical key, given by its virtual-key code, or a mouse button. -/
inductive Key where
  | code (virtualKey : Nat)
  | mouseLeft
  | mouseRight
  | mouseMiddle
  deriving DecidableEq, Repr

namespace Key

/-- The keys and buttons that have names of their own. -/
def vocabulary : List (String × Key) :=
  [("mouse_left", .mouseLeft), ("lmb", .mouseLeft),
   ("mouse_right", .mouseRight), ("rmb", .mouseRight),
   ("mouse_middle", .mouseMiddle), ("mmb", .mouseMiddle),
   ("space", .code 0x20),
   ("shift", .code 0xA0), ("lshift", .code 0xA0), ("rshift", .code 0xA1),
   ("ctrl", .code 0xA2), ("lctrl", .code 0xA2), ("rctrl", .code 0xA3),
   ("alt", .code 0xA4), ("lalt", .code 0xA4), ("ralt", .code 0xA5),
   ("tab", .code 0x09), ("enter", .code 0x0D), ("return", .code 0x0D),
   ("esc", .code 0x1B), ("escape", .code 0x1B), ("backspace", .code 0x08)]

/-- The function key after the letter `f`: an unsigned numeral from 1 to 12. -/
def functionKey? (numeral : List Char) : Option Key :=
  match Number.unsigned? (Number.wordMax 16) numeral with
  | some n => if 1 ≤ n ∧ n ≤ 12 then some (.code (0x6F + n)) else none
  | none => none

/-- A name that is not in the vocabulary: one letter or digit, or a function key. -/
def ofSpelling? : List Char → Option Key
  | [c] => if c.isAlphanum then some (.code c.toUpper.toNat) else none
  | 'f' :: numeral => functionKey? numeral
  | _ => none

/-- The name as it is looked up: trimmed, with ASCII letters in lower case. -/
def fold (name : String) : List Char :=
  (Text.trim name.toList).map Char.toLower

/-- The key with this name. -/
def ofName? (name : String) : Option Key :=
  match vocabulary.find? fun entry => entry.1.toList == fold name with
  | some entry => some entry.2
  | none => ofSpelling? (fold name)

/-- The key with this name, or the error that quotes the name as it was given. -/
def ofName (name : String) : Except InputError Key :=
  match ofName? name with
  | some key => .ok key
  | none => .error (.unknownKey name)

end Key

end Combo
