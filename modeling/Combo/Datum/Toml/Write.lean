-- SUMMARY: Records of sections as TOML text: quoting of strings, floats, sections.
import Combo.Datum.Basic
import Combo.Number.Decimal

/-!
# Writing TOML

A document is a row of sections with a blank line between any two. A string is
written in the first of these forms that can hold it: plain between double
quotes, literal between single quotes, plain or literal over several lines, and
last with escapes. A float always has a point. An integer outside 64 bits with
sign cannot be written.
-/

namespace Combo.Toml

/-! ## Strings -/

/-- The length of the longest row of one character in a text. -/
def longestRow (c : Char) (s : List Char) : Nat :=
  (s.foldl (fun (row, most) d =>
    let row := if d = c then row + 1 else 0
    (row, max most row)) (0, 0)).2

/-- A control character that has to be escaped: any but tab and line feed. -/
def isControl (c : Char) : Bool :=
  c != '\t' && c != '\n' && (c.toNat ≤ 0x1f || c.toNat == 0x7f)

/-- How a string is written. -/
inductive Form where
  | basic
  | literal
  | multiBasic
  | multiLiteral
  deriving DecidableEq, Repr

/-- The form a string is written in. -/
def Form.for (s : List Char) : Form :=
  let controls := s.any isControl
  let backslash := s.contains '\\'
  let newline := s.contains '\n'
  let doubles := longestRow '"' s
  let singles := longestRow '\'' s
  if !controls && !backslash && doubles == 0 && !newline then .basic
  else if !controls && singles == 0 && !newline then .literal
  else if !controls && !backslash && doubles ≤ 2 then .multiBasic
  else if !controls && singles ≤ 2 then .multiLiteral
  else if newline then .multiBasic
  else .basic

/-- The mark at both ends of a form. -/
def Form.mark : Form → List Char
  | .basic => ['"']
  | .literal => ['\'']
  | .multiBasic => ['"', '"', '"']
  | .multiLiteral => ['\'', '\'', '\'']

/-- Whether a form may run over several lines. -/
def Form.isMulti : Form → Bool
  | .basic | .literal => false
  | .multiBasic | .multiLiteral => true

/-- The characters of a string between double quotes, after a row of `quotes` unescaped quotes. -/
def escapeFrom (multi : Bool) (quotes : Nat) : List Char → List Char
  | [] => []
  | c :: r =>
    if c = '"' then
      if multi && quotes < 2 then '"' :: escapeFrom multi (quotes + 1) r
      else '\\' :: '"' :: escapeFrom multi 0 r
    else
      let written :=
        if c = '\x08' then ['\\', 'b']
        else if c = '\t' then ['\\', 't']
        else if c = '\n' then if multi then ['\n'] else ['\\', 'n']
        else if c = '\x0c' then ['\\', 'f']
        else if c = '\r' then ['\\', 'r']
        else if c = '\\' then ['\\', '\\']
        else if isControl c then '\\' :: 'u' :: Number.hexText true 4 c.toNat
        else [c]
      written ++ escapeFrom multi 0 r

/-- The body of a string in a form. -/
def Form.body (form : Form) (s : List Char) : List Char :=
  match form with
  | .basic => escapeFrom false 0 s
  | .multiBasic => escapeFrom true 0 s
  | .literal | .multiLiteral => s

/-- A string as TOML writes it; a form over several lines begins on a line of its own. -/
def quote (text : String) : List Char :=
  let s := text.toList
  let form := Form.for s
  let lead := if form.isMulti && s.contains '\n' then ['\n'] else []
  form.mark ++ lead ++ form.body s ++ form.mark

/-! ## Numbers -/

/-- Whether a double is a whole number. -/
def isWhole (x : Float) : Bool :=
  match Number.Parts.ofDouble x with
  | .finite _ m e =>
    match e with
    | .ofNat _ => true
    | .negSucc k => m % Nat.pow 2 (k + 1) == 0
  | .infinite _ => false
  | .notANumber => false

/-- A float as TOML writes it. -/
def floatText (x : Float) : List Char :=
  if x.isNaN then "nan".toList
  else (Number.doubleText x).toList ++ (if isWhole x then ['.', '0'] else [])

/-! ## Documents -/

/-- A scalar as TOML writes it; nothing for what is no scalar or does not fit. -/
def scalar? : Datum → Option (List Char)
  | .bool true => some "true".toList
  | .bool false => some "false".toList
  | .integer n =>
    if -(Nat.pow 2 63 : Int) ≤ n ∧ n < Nat.pow 2 63 then some (Number.intText n).toList else none
  | .float x => some (floatText x)
  | .string s => some (quote s)
  | .null => none
  | .list _ => none
  | .record _ => none

/-- The lines of a section. -/
def fieldLines? : List (String × Datum) → Option (List Char)
  | [] => some []
  | (name, d) :: r => do
    let value ← scalar? d
    let rest ← fieldLines? r
    return name.toList ++ " = ".toList ++ value ++ '\n' :: rest

/-- A section with its header. -/
def section? (name : String) (fields : List (String × Datum)) : Option (List Char) := do
  let lines ← fieldLines? fields
  return '[' :: name.toList ++ ']' :: '\n' :: lines

/-- Sections with a blank line between any two. -/
def sections? : List (String × List (String × Datum)) → Option (List Char)
  | [] => some []
  | [(name, fields)] => section? name fields
  | (name, fields) :: next :: r => do
    let first ← section? name fields
    let rest ← sections? (next :: r)
    return first ++ '\n' :: rest

/-- The text of a document of sections with bare names. -/
def write? (sections : List (String × List (String × Datum))) : Option String :=
  (sections? sections).map String.ofList

end Combo.Toml
