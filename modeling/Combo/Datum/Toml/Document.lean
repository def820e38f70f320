-- SUMMARY: TOML documents: values, tables built from headers and dotted keys, and the record they make.
import Combo.Datum.Toml.Lexeme

/-!
# TOML documents

A document is a row of headers and assignments. They build a tree of tables; a
table remembers how it came to be, because that decides what may be added to it:
a table may have one header only, tables made by dotted keys take no header, and
tables with a header take no dotted keys from outside.
-/

namespace Combo.Toml

/-! ## The tree of tables -/

/-- How a table came to be. -/
inductive Origin where
  /-- As a part of the name in a header. -/
  | path
  /-- By a header of its own. -/
  | header
  /-- By a dotted key. -/
  | dotted
  deriving DecidableEq, Repr

/-- A place in the tree of tables. -/
inductive Node where
  | value (datum : Datum)
  | table (origin : Origin) (fields : List (String × Node))
  /-- Tables under one repeated header, the latest first. -/
  | tables (elements : List (List (String × Node)))
  deriving Inhabited

/-- The fields of a table. -/
abbrev Fields := List (String × Node)

/-- Sets a field. -/
def setField (name : String) (node : Node) : Fields → Fields
  | [] => [(name, node)]
  | (n, v) :: r => if n = name then (n, node) :: r else (n, v) :: setField name node r

/-- Goes down along a header's name, making tables on the way, and changes the fields it ends at. -/
def descend (change : Fields → Option Fields) : List String → Fields → Option Fields
  | [], fields => change fields
  | name :: rest, fields =>
    match fields.lookup name with
    | none => (descend change rest []).map fun f => setField name (.table .path f) fields
    | some (.table origin f) =>
      (descend change rest f).map fun f => setField name (.table origin f) fields
    | some (.tables (f :: fs)) =>
      (descend change rest f).map fun f => setField name (.tables (f :: fs)) fields
    | some (.tables []) => none
    | some (.value _) => none

/-- Defines a table by its header. -/
def defineTable (name : String) (fields : Fields) : Option Fields :=
  match fields.lookup name with
  | none => some (setField name (.table .header []) fields)
  | some (.table .path f) => some (setField name (.table .header f) fields)
  | some _ => none

/-- Adds a table under a repeated header. -/
def addTable (name : String) (fields : Fields) : Option Fields :=
  match fields.lookup name with
  | none => some (setField name (.tables [[]]) fields)
  | some (.tables fs) => some (setField name (.tables ([] :: fs)) fields)
  | some _ => none

/-- Assigns a value to a dotted key; `dotted` says whether the fields belong to a table made by one. -/
def assign (value : Datum) : List String → Bool → Bool → Fields → Option Fields
  | [], _, _, _ => none
  | [name], nested, dotted, fields =>
    if nested ≠ dotted then none
    else match fields.lookup name with
      | none => some (fields ++ [(name, .value value)])
      | some _ => none
  | name :: rest, _, _, fields =>
    match fields.lookup name with
    | none => (assign value rest true true []).map fun f => setField name (.table .dotted f) fields
    | some (.table .header _) => none
    | some (.table origin f) =>
      (assign value rest true (origin == .dotted) f).map fun f =>
        setField name (.table origin f) fields
    | some (.tables (f :: fs)) =>
      (assign value rest true false f).map fun f => setField name (.tables (f :: fs)) fields
    | some (.tables []) => none
    | some (.value _) => none

mutual

/-- The datum of a place. -/
def Node.datum : Node → Datum
  | .value d => d
  | .table _ fields => .record (fieldData fields)
  | .tables elements => .list (tableData elements).reverse

/-- The data of some fields. -/
def fieldData : List (String × Node) → List (String × Datum)
  | [] => []
  | (name, node) :: r => (name, node.datum) :: fieldData r

/-- The data of the tables under a repeated header. -/
def tableData : List (List (String × Node)) → List Datum
  | [] => []
  | fields :: r => .record (fieldData fields) :: tableData r

end

/-! ## Values -/

mutual

/-- A value, with `depth` levels of nesting left and fuel for the parts of each. -/
def value? (fuel : Nat) : Nat → List Char → Option (Datum × List Char)
  | 0, _ => none
  | depth + 1, s =>
    match s with
    | [] => none
    | c :: r =>
      if c = '"' ∨ c = '\'' then (string? s).map fun (text, r) => (.string text, r)
      else if c = '[' then if depth = 0 then none else items? fuel depth fuel [] r
      else if c = '\x7b' then if depth = 0 then none else inline? fuel depth fuel [] r
      else if c = 't' then (Json.after? "true".toList s).map fun r => (.bool true, r)
      else if c = 'f' then (Json.after? "false".toList s).map fun r => (.bool false, r)
      else match date? s with
        | some found => some found
        | none => number? s
termination_by depth => (depth, 0)

/-- The items of a list after its opening bracket, with those read so far in reverse. -/
def items? (fuel depth : Nat) : Nat → List Datum → List Char → Option (Datum × List Char)
  | 0, _, _ => none
  | n + 1, acc, s =>
    match skipLines s.length s with
    | ']' :: r => some (.list acc.reverse, r)
    | s => do
      let (d, r) ← value? fuel depth s
      match skipLines r.length r with
      | ',' :: r => items? fuel depth n (d :: acc) r
      | ']' :: r => return (.list (d :: acc).reverse, r)
      | _ => none
termination_by n => (depth, n + 1)

/-- The assignments of an inline table after its opening brace. -/
def inline? (fuel depth : Nat) : Nat → Fields → List Char → Option (Datum × List Char)
  | 0, _, _ => none
  | n + 1, fields, s =>
    match fields, skipSpaces s with
    | [], '\x7d' :: r => some (.record [], r)
    | fields, s => do
      let (path, r) ← key? s
      let r ← Json.after? ['='] r
      let (d, r) ← value? fuel depth (skipSpaces r)
      let fields ← assign d path false false fields
      match skipSpaces r with
      | ',' :: r => inline? fuel depth n fields r
      | '\x7d' :: r => return (.record (fieldData fields), r)
      | _ => none
termination_by n => (depth, n + 1)

end

/-! ## Lines -/

/-- One line of a document. -/
inductive Line where
  | header (path : List String)
  | repeated (path : List String)
  | assignment (path : List String) (value : Datum)

/-- A header or an assignment at the beginning of a text. -/
def line? (s : List Char) : Option (Line × List Char) :=
  match s with
  | '[' :: '[' :: r => do
    let (path, r) ← key? r
    let r ← Json.after? [']', ']'] r
    return (.repeated path, r)
  | '[' :: r => do
    let (path, r) ← key? r
    let r ← Json.after? [']'] r
    return (.header path, r)
  | s => do
    let (path, r) ← key? s
    let r ← Json.after? ['='] r
    let (d, r) ← value? s.length depthLimit (skipSpaces r)
    return (.assignment path d, r)

/-- The lines of a document. -/
def lines? : Nat → List Char → Option (List Line)
  | 0, _ => none
  | fuel + 1, s =>
    match skipLines s.length s with
    | [] => some []
    | s => do
      let (line, r) ← line? s
      let r ← lineEnd? r
      let rest ← lines? fuel r
      return line :: rest

/-- The path of the current table, and the tree so far. -/
structure Build where
  path : List String := []
  fields : Fields := []

/-- Adds a line to the tree. -/
def Build.add (b : Build) : Line → Option Build
  | .header path => do
    let fields ← descend (defineTable (path.getLastD "")) path.dropLast b.fields
    return ⟨path, fields⟩
  | .repeated path => do
    let fields ← descend (addTable (path.getLastD "")) path.dropLast b.fields
    return ⟨path, fields⟩
  | .assignment path value => do
    let fields ← descend (assign value path false false) b.path b.fields
    return { b with fields }

/-- The text after a byte order mark. -/
def skipMark (s : List Char) : List Char :=
  match s with
  | c :: r => if c.toNat = 0xFEFF then r else s
  | [] => []

/-- The record a document stands for. -/
def read? (text : String) : Option Datum := do
  let s := skipMark text.toList
  let lines ← lines? (s.length + 1) s
  let b ← lines.foldlM Build.add {}
  return .record (fieldData b.fields)

end Combo.Toml
