import DoublingHeap.Toml.Moment
import DoublingHeap.Toml.Tree

/-! # TOML documents

A document is a run of lines (`Line`): blank ones, headers of tables and of elements of arrays of
tables, and values at dotted keys. `Document.lines` reads them, and `Document.ofLines` builds the
table that they describe. `parse` does both. -/

namespace DoublingHeap.Toml

open Toml.Parser

/-! ### Values -/

/-- A value that holds no other values. A moment is tried before a number, since both start with
digits. -/
def scalar : Parser Value :=
  (.text <$> Quoted.quoted)
    <|> (do word "true"; return .boolean true)
    <|> (do word "false"; return .boolean false)
    <|> (.moment <$> Moment.moment)
    <|> (.float <$> Number.float)
    <|> (.integer <$> Number.integer)

/-- An array of the values of a parser. Line ends and comments may stand between its parts, and a
comma may follow the last value. -/
def array (value : Parser Value) : Parser Value := do
  let _ ← char '['
  let items ← separated (do Blank.gaps; let v ← value; Blank.gaps; return v) (char ',')
  if ! items.isEmpty then
    let _ ← option (char ',')
  Blank.gaps
  let _ ← char ']'
  return .array items

/-- A value at a dotted key: the path before the last key, the last key, and the value. -/
def assignment (value : Parser Value) : Parser (List String × String × Value) := do
  let (path, key) ← Key.path
  let _ ← char '='
  Blank.blanks
  let v ← value
  return (path, key, v)

/-- The table that assignments make. -/
def inlineEntries : List (List String × String × Value) → Entries → Option Entries
  | [], entries => some entries
  | (path, key, value) :: rest, entries => do
    let entries ← Entries.assign path key value .header entries
    inlineEntries rest entries

/-- An inline table. It stands on one line, and no comma follows the last value. -/
def inlineTable (value : Parser Value) : Parser Value := do
  let _ ← char '\x7b'
  let assignments ← separated (do let a ← assignment value; Blank.blanks; return a) (char ',')
  Blank.blanks
  let _ ← char '\x7d'
  match inlineEntries assignments [] with
  | some entries => return .table (Node.values entries)
  | none => failure

/-- A value in which arrays and inline tables nest at most so deep. -/
def value : Nat → Parser Value
  | 0 => scalar
  | depth + 1 => scalar <|> array (value depth) <|> inlineTable (value depth)

/-! ### Lines -/

/-- A line of a document. -/
inductive Line where
  | blank
  /-- The header of a table. -/
  | table (path : List String) (key : String)
  /-- The header of an element of an array of tables. -/
  | element (path : List String) (key : String)
  /-- A value at a dotted key. -/
  | assignment (path : List String) (key : String) (value : Value)

/-- A line with its end. -/
def line : Parser Line := do
  Blank.blanks
  (do let _ ← option Blank.comment; Blank.newline; return .blank)
    <|> (do Blank.comment; atEnd; return .blank)
    <|> (do
      word "[["
      let (path, key) ← Key.path
      word "]]"
      Blank.restOfLine
      return .element path key)
    <|> (do
      word "["
      let (path, key) ← Key.path
      word "]"
      Blank.restOfLine
      return .table path key)
    <|> do
      let (path, key, v) ← assignment (value (Key.maxDepth - 1))
      Blank.restOfLine
      return .assignment path key v

namespace Document

/-- The lines of a document, after a byte order mark if there is one. -/
def lines : Parser (List Line) := do
  let _ ← option (char '\uFEFF')
  let ls ← repeated line
  Blank.blanks
  return ls

/-- Builds on: the table that the last header opened, and all entries so far. -/
def build : List Line → List String → Entries → Option Entries
  | [], _, entries => some entries
  | .blank :: rest, current, entries => build rest current entries
  | .table path key :: rest, _, entries => do
    let entries ← Entries.openTable path key entries
    build rest (path ++ [key]) entries
  | .element path key :: rest, _, entries => do
    let entries ← Entries.openElement path key entries
    build rest (path ++ [key]) entries
  | .assignment path key v :: rest, current, entries => do
    let entries ← Entries.assignIn current path key v entries
    build rest current entries

/-- The entries of the document with the given lines. -/
def ofLines (ls : List Line) : Option (List (String × Value)) :=
  (build ls [] []).map Node.values

end Document

/-- The entries of a document. -/
def parse (text : String) : Option (List (String × Value)) := do
  let ls ← Document.lines.complete text.toList
  Document.ofLines ls

end DoublingHeap.Toml
