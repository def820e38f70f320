-- SUMMARY: Reading a script: the grammar of one action, and the groups and unknown names of a whole script.
import Combo.Script.Pieces
import Combo.Action.Length
import Combo.Action.Group

/-!
# Reading scripts

    script := group (',' group)*
    group  := action ('&' action)*
    action := NAME ['(' PARAMETER ')']

A piece that does not match the grammar of an action is skipped; a piece whose
name is no token is kept as an unknown name. A group left without actions is
dropped.
-/

namespace Combo.Script

/-! ## One action -/

/-- The characters of an action's name. -/
def isNameChar (c : Char) : Bool := c.isAlphanum || c == '_'

/-- The text between a pair of parentheses that has no `)` of its own. -/
def enclosed? (s : List Char) : Option (List Char) :=
  match s with
  | '(' :: r =>
    match r.span (· != ')') with
    | (inner, [')']) => some inner
    | _ => none
  | _ => none

/-- A piece as name and parameter text, when it matches the grammar of an action. -/
def nameAndParameter? (piece : List Char) : Option (List Char × Option (List Char)) :=
  let (name, rest) := piece.span isNameChar
  if name.isEmpty then none
  else if rest.isEmpty then some (name, none)
  else (enclosed? rest).map fun inner => (name, some inner)

/-- A parameter as an action keeps it: trimmed, and none when it is blank. -/
def parameter? (text : Option (List Char)) : Option String :=
  match text.map Text.trim with
  | none => none
  | some [] => none
  | some (c :: r) => some (String.ofList (c :: r))

/-- What a piece of a script is. -/
inductive Piece where
  | action (a : Action)
  /-- A piece that matches the grammar, but whose name (in lower case) is no token. -/
  | unknown (name : String)
  | malformed
  deriving DecidableEq

/-- What a piece of a script is. -/
def Piece.ofText (piece : List Char) : Piece :=
  match nameAndParameter? piece with
  | none => .malformed
  | some (name, parameter) =>
    let token := String.ofList (name.map Char.toLower)
    match Kind.ofToken? token with
    | some kind => .action (Action.make kind (parameter? parameter))
    | none => .unknown token

/-- The action a piece is, if it is one. -/
def Piece.action? : Piece → Option Action
  | .action a => some a
  | .unknown _ => none
  | .malformed => none

/-- The unknown name of a piece, if it has one. -/
def Piece.unknown? : Piece → Option String
  | .unknown name => some name
  | .action _ => none
  | .malformed => none

/-- The message about a piece that matches no action. -/
def malformedMessage (piece : String) : String := "Malformed action: '" ++ piece ++ "'"

/-! ## Whole scripts -/

/-- What a script holds before it is checked. -/
structure Reading where
  groups : List Group
  /-- Names that match the grammar but are no tokens, in script order. -/
  unknown : List String
  deriving DecidableEq

/-- Collects the pieces of a script. -/
def Reading.ofPieces (pieces : List (List Piece)) : Reading where
  groups := ((pieces.map (·.filterMap Piece.action?)).filter (· ≠ [])).map Group.of
  unknown := pieces.flatMap (·.filterMap Piece.unknown?)

/-- Reads a script given as characters. -/
def readChars (script : List Char) : Reading :=
  Reading.ofPieces ((pieces script).map (·.map Piece.ofText))

/-- Reads a script. -/
def read (script : String) : Reading := readChars script.toList

/-- The sum of the estimates of the groups, in seconds. -/
def Reading.estimate (r : Reading) : Float := totalEstimate r.groups

/-! ## Writing -/

/-- Groups as a script. -/
def format (groups : List Group) : String := ",".intercalate (groups.map Group.text)

end Combo.Script
