-- SUMMARY: Cutting a script into groups of pieces: splitting at separators outside parentheses, in two levels and in one scan.
import Combo.Text.Blank

/-!
# The pieces of a script

A separator cuts a text only outside parentheses. The depth of parentheses is a
counter that a closing one never takes below 0, so a stray `)` is harmless and
an unclosed `(` shields all that follows. Pieces are trimmed, and empty ones are
dropped.

A script is cut at commas into groups and each group at ampersands into pieces.
`scan` does the same in one pass with a single counter.
-/

namespace Combo.Script

/-- The depth of parentheses after one more character. -/
def depthAfter (depth : Nat) (c : Char) : Nat :=
  if c = '(' then depth + 1 else if c = ')' then depth - 1 else depth

/-- The depth of parentheses after a whole text. -/
def depthOf (text : List Char) : Nat := text.foldl depthAfter 0

/-- Puts a character in front of the first of some pieces. -/
def consFirst {α : Type} (c : α) : List (List α) → List (List α)
  | [] => [[c]]
  | p :: ps => (c :: p) :: ps

/-- The texts between the separators outside parentheses, when the text begins at a given depth. -/
def splitAt (separator : Char) (depth : Nat) : List Char → List (List Char)
  | [] => [[]]
  | c :: r =>
    if c = separator ∧ depth = 0 then [] :: splitAt separator 0 r
    else consFirst c (splitAt separator (depthAfter depth c) r)

/-- The trimmed, non-empty texts between the separators outside parentheses. -/
def split (separator : Char) (text : List Char) : List (List Char) :=
  ((splitAt separator 0 text).map Text.trim).filter (· ≠ [])

/-- The pieces of a script, group by group. -/
def pieces (script : List Char) : List (List (List Char)) :=
  (split ',' script).map (split '&')

/-! ## One scan -/

/-- The raw texts of a scan that cuts at both separators, when the text begins at a given depth. -/
def scanAt (depth : Nat) : List Char → List (List (List Char))
  | [] => [[[]]]
  | c :: r =>
    if depth = 0 ∧ c = ',' then [[]] :: scanAt 0 r
    else if depth = 0 ∧ c = '&' then
      match scanAt 0 r with
      | [] => [[[], []]]
      | g :: gs => ([] :: g) :: gs
    else
      match scanAt (depthAfter depth c) r with
      | [] => [[[c]]]
      | g :: gs => consFirst c g :: gs

/-- The pieces of a script, group by group, found in one pass. -/
def scan (script : List Char) : List (List (List Char)) :=
  (scanAt 0 script).map fun group => (group.map Text.trim).filter (· ≠ [])

/-! ## Small laws -/

theorem splitAt_ne_nil (separator : Char) (depth : Nat) (text : List Char) :
    splitAt separator depth text ≠ [] := by
  cases text with
  | nil => simp [splitAt]
  | cons c r =>
    simp only [splitAt]
    split
    · simp
    · cases splitAt separator (depthAfter depth c) r <;> simp [consFirst]

end Combo.Script
