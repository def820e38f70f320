-- SUMMARY: Data as JSON text: writing without blanks, and reading.
import Combo.Datum.Basic
import Combo.Number.Decimal

/-!
# Data as JSON

Texts are written without blanks; strings escape the quote, the backslash and
control characters only. When a record is read, a repeated field keeps its last
value. A number without point and exponent is an integer if it fits in 64 bits,
with or without a sign; every other number, and `-0`, is a float.
-/

namespace Combo.Json

/-! ## Writing -/

/-- A character as it stands in a written string. -/
def escape (c : Char) : List Char :=
  if c = '"' then ['\\', '"']
  else if c = '\\' then ['\\', '\\']
  else if c = '\x08' then ['\\', 'b']
  else if c = '\x0c' then ['\\', 'f']
  else if c = '\n' then ['\\', 'n']
  else if c = '\r' then ['\\', 'r']
  else if c = '\t' then ['\\', 't']
  else if c.toNat < 0x20 then '\\' :: 'u' :: Number.hexText false 4 c.toNat
  else [c]

/-- A string with its quotes. -/
def quote (s : String) : List Char :=
  '"' :: s.toList.flatMap escape ++ ['"']

/-- Texts with a comma between any two. -/
def commaSeparated : List (List Char) → List Char
  | [] => []
  | [t] => t
  | t :: u :: r => t ++ ',' :: commaSeparated (u :: r)

mutual

/-- The text of a datum. A float is written in shortest form. -/
def chars : Datum → List Char
  | .null => "null".toList
  | .bool true => "true".toList
  | .bool false => "false".toList
  | .integer n => (Number.intText n).toList
  | .float x => (Number.doubleText x).toList
  | .string s => quote s
  | .list items => '[' :: commaSeparated (itemTexts items) ++ [']']
  | .record fields => '\x7b' :: commaSeparated (fieldTexts fields) ++ ['\x7d']

/-- The texts of the items of a list. -/
def itemTexts : List Datum → List (List Char)
  | [] => []
  | d :: r => chars d :: itemTexts r

/-- The texts of the fields of a record. -/
def fieldTexts : List (String × Datum) → List (List Char)
  | [] => []
  | (name, d) :: r => (quote name ++ ':' :: chars d) :: fieldTexts r

end

/-- The text of a datum. -/
def write (d : Datum) : String := String.ofList (chars d)

/-! ## Reading -/

/-- The text after its leading blanks. -/
def skipBlanks (s : List Char) : List Char :=
  s.dropWhile fun c => c == ' ' || c == '\t' || c == '\n' || c == '\r'

/-- The text after a given beginning. -/
def after? : List Char → List Char → Option (List Char)
  | [], s => some s
  | _ :: _, [] => none
  | c :: w, d :: s => if c = d then after? w s else none

/-- Four hexadecimal digits. -/
def hex4? : List Char → Option (Nat × List Char)
  | a :: b :: c :: d :: r => (Number.radixFrom? 16 0 [a, b, c, d]).map fun n => (n, r)
  | _ => none

/-- The character after `\u`; a character beyond 16 bits is written as a pair of surrogates. -/
def unicode? (s : List Char) : Option (Char × List Char) := do
  let (n, r) ← hex4? s
  if 0xD800 ≤ n ∧ n < 0xDC00 then
    let r ← after? ['\\', 'u'] r
    let (m, r) ← hex4? r
    if 0xDC00 ≤ m ∧ m < 0xE000 then
      return (Char.ofNat (0x10000 + (n - 0xD800) * 0x400 + (m - 0xDC00)), r)
    else none
  else if 0xDC00 ≤ n ∧ n < 0xE000 then none
  else return (Char.ofNat n, r)

/-- The character after a backslash. -/
def escaped? : List Char → Option (Char × List Char)
  | '"' :: r => some ('"', r)
  | '\\' :: r => some ('\\', r)
  | '/' :: r => some ('/', r)
  | 'b' :: r => some ('\x08', r)
  | 'f' :: r => some ('\x0c', r)
  | 'n' :: r => some ('\n', r)
  | 'r' :: r => some ('\r', r)
  | 't' :: r => some ('\t', r)
  | 'u' :: r => unicode? r
  | _ => none

/-- The rest of a string after its opening quote, with the characters read so far in reverse. -/
def string? : Nat → List Char → List Char → Option (String × List Char)
  | 0, _, _ => none
  | fuel + 1, acc, s =>
    match s with
    | [] => none
    | '"' :: r => some (String.ofList acc.reverse, r)
    | '\\' :: r => do
      let (c, r) ← escaped? r
      string? fuel (c :: acc) r
    | c :: r => if c.toNat < 0x20 then none else string? fuel (c :: acc) r

/-- A character of a number. -/
def isNumberChar (c : Char) : Bool :=
  c.isDigit || c == '-' || c == '+' || c == '.' || c == 'e' || c == 'E'

/-- A number. -/
def number? (literal : List Char) : Option Datum :=
  if literal.any fun c => c == '.' || c == 'e' || c == 'E' then
    (Number.double? literal).map .float
  else
    match literal with
    | '-' :: digits => do
      let n ← Number.digits? digits
      if n = 0 then return .float (-0.0)
      else if n ≤ Nat.pow 2 63 then return .integer (-(n : Int))
      else (Number.double? literal).map .float
    | digits => do
      let n ← Number.digits? digits
      if n < Nat.pow 2 64 then return .integer n
      else (Number.double? literal).map .float

mutual

/-- A value at the beginning of a text without leading blanks. -/
def value? : Nat → List Char → Option (Datum × List Char)
  | 0, _ => none
  | fuel + 1, s =>
    match s with
    | '"' :: r => do
      let (text, r) ← string? (r.length + 1) [] r
      return (.string text, r)
    | '[' :: r =>
      match skipBlanks r with
      | ']' :: r => some (.list [], r)
      | r => do
        let (items, r) ← items? fuel r
        return (.list items, r)
    | '\x7b' :: r =>
      match skipBlanks r with
      | '\x7d' :: r => some (.record [], r)
      | r => do
        let (fields, r) ← fields? fuel [] r
        return (.record fields, r)
    | 'n' :: _ => (after? "null".toList s).map fun r => (.null, r)
    | 't' :: _ => (after? "true".toList s).map fun r => (.bool true, r)
    | 'f' :: _ => (after? "false".toList s).map fun r => (.bool false, r)
    | s =>
      let (literal, r) := s.span isNumberChar
      (number? literal).map fun d => (d, r)

/-- The items of a list, up to its closing bracket. -/
def items? : Nat → List Char → Option (List Datum × List Char)
  | 0, _ => none
  | fuel + 1, s => do
    let (d, r) ← value? fuel (skipBlanks s)
    match skipBlanks r with
    | ']' :: r => return ([d], r)
    | ',' :: r =>
      let (items, r) ← items? fuel r
      return (d :: items, r)
    | _ => none

/-- The fields of a record, up to its closing brace, put into the fields read so far. -/
def fields? : Nat → List (String × Datum) → List Char → Option (List (String × Datum) × List Char)
  | 0, _, _ => none
  | fuel + 1, acc, s =>
    match skipBlanks s with
    | '"' :: r => do
      let (name, r) ← string? (r.length + 1) [] r
      let r ← after? [':'] (skipBlanks r)
      let (d, r) ← value? fuel (skipBlanks r)
      match skipBlanks r with
      | '\x7d' :: r => return (putField name d acc, r)
      | ',' :: r => fields? fuel (putField name d acc) r
      | _ => none
    | _ => none

end

/-- The datum a text stands for. -/
def read? (text : String) : Option Datum := do
  let s := skipBlanks text.toList
  let (d, r) ← value? (2 * s.length + 2) s
  if (skipBlanks r).isEmpty then return d else none

end Combo.Json
