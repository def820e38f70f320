-- SUMMARY: The lexemes of TOML: blanks, comments, keys, strings, numbers and dates.
import Combo.Datum.Json

/-!
# The lexemes of TOML

Each reader takes a lexeme from the beginning of a text and gives its value and
the rest, or nothing when the text does not begin with one.
-/

namespace Combo.Toml

/-! ## Blanks and comments -/

/-- A space or a tab. -/
def isSpace (c : Char) : Bool := c == ' ' || c == '\t'

/-- The text after its leading spaces and tabs. -/
def skipSpaces (s : List Char) : List Char := s.dropWhile isSpace

/-- The text after a line end. -/
def newline? : List Char → Option (List Char)
  | '\n' :: r => some r
  | '\r' :: '\n' :: r => some r
  | _ => none

/-- A character that may stand in a comment or between quotes: no control character but tab. -/
def isPlain (c : Char) : Bool := c == '\t' || (0x20 ≤ c.toNat && c.toNat != 0x7f)

/-- The text after a comment, if it begins with one. -/
def skipComment (s : List Char) : List Char :=
  match s with
  | '#' :: r => r.dropWhile isPlain
  | _ => s

/-- The text after the end of a line: spaces, a comment, and a line end or the end of the text. -/
def lineEnd? (s : List Char) : Option (List Char) :=
  match skipComment (skipSpaces s) with
  | [] => some []
  | r => newline? r

/-- The text after spaces, comments and line ends. -/
def skipLines : Nat → List Char → List Char
  | 0, s => s
  | fuel + 1, s =>
    let r := skipComment (skipSpaces s)
    match newline? r with
    | some r => skipLines fuel r
    | none => r

/-! ## Strings -/

/-- `places` hexadecimal digits that are the number of a character. -/
def scalar (places : Nat) (s : List Char) : Option (Char × List Char) := do
  let digits := s.take places
  if digits.length < places then none
  else
    let n ← Number.radixFrom? 16 0 digits
    if n < 0xD800 ∨ (0xDFFF < n ∧ n < 0x110000) then some (Char.ofNat n, s.drop places) else none

/-- The character after a backslash. -/
def escaped? : List Char → Option (Char × List Char)
  | 'b' :: r => some ('\x08', r)
  | 't' :: r => some ('\t', r)
  | 'n' :: r => some ('\n', r)
  | 'f' :: r => some ('\x0c', r)
  | 'r' :: r => some ('\r', r)
  | '"' :: r => some ('"', r)
  | '\\' :: r => some ('\\', r)
  | 'u' :: r => scalar 4 r
  | 'U' :: r => scalar 8 r
  | _ => none

/-- The rest of a string between double quotes, after its opening quote. -/
def basic? : Nat → List Char → List Char → Option (String × List Char)
  | 0, _, _ => none
  | fuel + 1, acc, s =>
    match s with
    | [] => none
    | '"' :: r => some (String.ofList acc.reverse, r)
    | '\\' :: r => do
      let (c, r) ← escaped? r
      basic? fuel (c :: acc) r
    | c :: r => if isPlain c then basic? fuel (c :: acc) r else none

/-- The rest of a string between single quotes, after its opening quote. -/
def literal? (s : List Char) : Option (String × List Char) :=
  match s.span fun c => isPlain c && c != '\'' with
  | (body, '\'' :: r) => some (String.ofList body, r)
  | _ => none

/-- The number of leading marks of a text. -/
def marks (mark : Char) (s : List Char) : Nat := (s.takeWhile (· == mark)).length

/-- The text after a line end right after the opening marks. -/
def skipFirstNewline (s : List Char) : List Char := (newline? s).getD s

/-- The text after spaces and line ends that follow a backslash at the end of a line. -/
def skipFolded : Nat → List Char → List Char
  | 0, s => s
  | fuel + 1, s =>
    let r := skipSpaces s
    match newline? r with
    | some r => skipFolded fuel r
    | none => r

/-- The rest of a string over several lines between double quotes, after its opening quotes. -/
def multiBasic? : Nat → List Char → List Char → Option (String × List Char)
  | 0, _, _ => none
  | fuel + 1, acc, s =>
    match s with
    | [] => none
    | '"' :: r =>
      let n := marks '"' s
      if 3 ≤ n then
        let extra := min (n - 3) 2
        some (String.ofList (List.replicate extra '"' ++ acc).reverse, s.drop (extra + 3))
      else multiBasic? fuel ('"' :: acc) r
    | '\\' :: r =>
      match newline? (skipSpaces r) with
      | some r => multiBasic? fuel acc (skipFolded r.length r)
      | none => do
        let (c, r) ← escaped? r
        multiBasic? fuel (c :: acc) r
    | c :: r =>
      match newline? s with
      | some r => multiBasic? fuel ('\n' :: acc) r
      | none => if isPlain c then multiBasic? fuel (c :: acc) r else none

/-- The rest of a string over several lines between single quotes, after its opening quotes. -/
def multiLiteral? : Nat → List Char → List Char → Option (String × List Char)
  | 0, _, _ => none
  | fuel + 1, acc, s =>
    match s with
    | [] => none
    | '\'' :: r =>
      let n := marks '\'' s
      if 3 ≤ n then
        let extra := min (n - 3) 2
        some (String.ofList (List.replicate extra '\'' ++ acc).reverse, s.drop (extra + 3))
      else multiLiteral? fuel ('\'' :: acc) r
    | c :: r =>
      match newline? s with
      | some r => multiLiteral? fuel ('\n' :: acc) r
      | none => if isPlain c then multiLiteral? fuel (c :: acc) r else none

/-- A string in any of its forms. -/
def string? (s : List Char) : Option (String × List Char) :=
  match s with
  | '"' :: '"' :: '"' :: r => multiBasic? (r.length + 1) [] (skipFirstNewline r)
  | '"' :: r => basic? (r.length + 1) [] r
  | '\'' :: '\'' :: '\'' :: r => multiLiteral? (r.length + 1) [] (skipFirstNewline r)
  | '\'' :: r => literal? r
  | _ => none

/-! ## Keys -/

/-- A character of a bare key. -/
def isBare (c : Char) : Bool := c.isAlphanum || c == '_' || c == '-'

/-- A single key: bare, or a string on one line. -/
def simpleKey? (s : List Char) : Option (String × List Char) :=
  match s with
  | '"' :: r => basic? (r.length + 1) [] r
  | '\'' :: r => literal? r
  | _ =>
    let (bare, r) := s.span isBare
    if bare.isEmpty then none else some (String.ofList bare, r)

/-- Names with points between them, spaces around each allowed. -/
def path? : Nat → List Char → Option (List String × List Char)
  | 0, _ => none
  | fuel + 1, s => do
    let (first, r) ← simpleKey? (skipSpaces s)
    match skipSpaces r with
    | '.' :: r =>
      let (rest, r) ← path? fuel r
      return (first :: rest, r)
    | r => return ([first], r)

/-- Lists, inline tables and dotted keys nest less deep than this. -/
def depthLimit : Nat := 80

/-- A key: names with points between them, fewer than the limit of nesting. -/
def key? (s : List Char) : Option (List String × List Char) :=
  (path? s.length s).filter fun (path, _) => path.length < depthLimit

/-! ## Numbers -/

/-- Digits with single underscores between them, the first digit included. -/
def digitRow? (isDigit : Char → Bool) (s : List Char) : Option (List Char × List Char) :=
  match s with
  | [] => none
  | c :: r => if isDigit c then some (go [c] r) else none
where
  /-- The rest of the row, with the digits so far in reverse. -/
  go (acc : List Char) : List Char → List Char × List Char
    | '_' :: d :: r => if isDigit d then go (d :: acc) r else (acc.reverse, '_' :: d :: r)
    | c :: r => if isDigit c then go (c :: acc) r else (acc.reverse, c :: r)
    | [] => (acc.reverse, [])

/-- A decimal digit. -/
def isDecimal (c : Char) : Bool := '0' ≤ c && c ≤ '9'

/-- A sign, and the text after it. -/
def sign (s : List Char) : List Char × List Char :=
  match s with
  | '+' :: r => (['+'], r)
  | '-' :: r => (['-'], r)
  | _ => ([], s)

/-- The whole part of a decimal number: no zero in front of other digits. -/
def whole? (s : List Char) : Option (List Char × List Char) :=
  match s with
  | '0' :: r => some (['0'], r)
  | _ => digitRow? isDecimal s

/-- The exponent of a float, with its mark and sign. -/
def exponent? (s : List Char) : Option (List Char × List Char) :=
  match s with
  | c :: r =>
    if c = 'e' ∨ c = 'E' then
      let (mark, r) := sign r
      (digitRow? isDecimal r).map fun (digits, r) => ('e' :: mark ++ digits, r)
    else none
  | [] => none

/-- The part of a float after its whole part: a fraction, an exponent, or both. -/
def floatTail? (s : List Char) : Option (List Char × List Char) :=
  match s with
  | '.' :: r => do
    let (fraction, r) ← digitRow? isDecimal r
    match exponent? r with
    | some (e, r) => return ('.' :: fraction ++ e, r)
    | none => return ('.' :: fraction, r)
  | _ => exponent? s

/-- A float in digits. -/
def digitFloat? (s : List Char) : Option (List Char × List Char) := do
  let (mark, r) := sign s
  let (whole, r) ← whole? r
  let (tail, r) ← floatTail? r
  return (mark ++ whole ++ tail, r)

/-- `inf` or `nan` with an optional sign. -/
def specialFloat? (s : List Char) : Option (Float × List Char) :=
  let (mark, r) := sign s
  let magnitude := match Json.after? "inf".toList r with
    | some r => some ((1.0 / 0.0 : Float), r)
    | none => (Json.after? "nan".toList r).map fun r => ((0.0 / 0.0 : Float), r)
  magnitude.map fun (x, r) => (if mark = ['-'] then -x else x, r)

/-- An integer of a radix after its mark. -/
def radixInteger? (radix : Nat) (s : List Char) : Option (Datum × List Char) := do
  let (digits, r) ← digitRow? (fun c => (Number.digitIn? radix c).isSome) s
  let n ← Number.radixFrom? radix 0 digits
  if n < Nat.pow 2 63 then return (.integer n, r) else none

/-- An integer: decimal with an optional sign, or in radix 16, 8 or 2. -/
def integer? (s : List Char) : Option (Datum × List Char) :=
  match s with
  | '0' :: 'x' :: r => radixInteger? 16 r
  | '0' :: 'o' :: r => radixInteger? 8 r
  | '0' :: 'b' :: r => radixInteger? 2 r
  | _ => do
    let (mark, r) := sign s
    let (digits, r) ← whole? r
    let n ← Number.signed? 64 (mark ++ digits)
    return (.integer n, r)

/-- A number. A float of digits must not be too large. -/
def number? (s : List Char) : Option (Datum × List Char) :=
  match digitFloat? s with
  | some (digits, r) => do
    let x ← Number.double? digits
    if x == 1.0 / 0.0 then none else return (.float x, r)
  | none =>
    match specialFloat? s with
    | some (x, r) => some (.float x, r)
    | none => integer? s

/-! ## Dates -/

/-- A row of `places` digits whose number lies in a range. -/
def field? (places low high : Nat) (s : List Char) : Option (Nat × List Char) := do
  let digits := s.take places
  if digits.length < places then none
  else
    let n ← Number.digits? digits
    if low ≤ n ∧ n ≤ high then return (n, s.drop places) else none

/-- The days of a month. -/
def daysIn (year month : Nat) : Nat :=
  if month = 2 then
    if year % 4 = 0 ∧ (year % 100 ≠ 0 ∨ year % 400 = 0) then 29 else 28
  else if month = 4 ∨ month = 6 ∨ month = 9 ∨ month = 11 then 30
  else 31

/-- A day: year, month and day. -/
def day? (s : List Char) : Option (List Char) := do
  let (year, r) ← field? 4 0 9999 s
  let r ← Json.after? ['-'] r
  let (month, r) ← field? 2 1 12 r
  let r ← Json.after? ['-'] r
  let (_, r) ← field? 2 1 (daysIn year month) r
  return r

/-- A time: hour, minute and second with an optional fraction. -/
def time? (s : List Char) : Option (List Char) := do
  let (_, r) ← field? 2 0 23 s
  let r ← Json.after? [':'] r
  let (_, r) ← field? 2 0 59 r
  let r ← Json.after? [':'] r
  let (_, r) ← field? 2 0 60 r
  match r with
  | '.' :: d :: r => if isDecimal d then return r.dropWhile isDecimal else return '.' :: d :: r
  | r => return r

/-- An offset from universal time. -/
def offset? (s : List Char) : Option (List Char) :=
  match s with
  | c :: r =>
    if c = 'Z' ∨ c = 'z' then some r
    else if c = '+' ∨ c = '-' then do
      let (_, r) ← field? 2 0 23 r
      let r ← Json.after? [':'] r
      let (_, r) ← field? 2 0 59 r
      return r
    else none
  | [] => none

/-- The text after a date or time. -/
def skipDate? (s : List Char) : Option (List Char) :=
  match day? s with
  | some r =>
    let timed := match r with
      | c :: r => if c = 'T' ∨ c = 't' ∨ c = ' ' then time? r else none
      | [] => none
    match timed with
    | some r => some ((offset? r).getD r)
    | none => some r
  | none => time? s

/-- A date or time. Nothing here has a field for one; it counts as a record of its text. -/
def date? (s : List Char) : Option (Datum × List Char) :=
  (skipDate? s).map fun r =>
    (.record [("$date", .string (String.ofList (s.take (s.length - r.length))))], r)

end Combo.Toml
