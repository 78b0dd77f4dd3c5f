/-! # Values and tables

A TOML document is a table of values by key. Floating-point numbers and moments in time are kept as
they are written. Keys of a table are distinct and stand in the order in which they came.

A document is built by putting values at paths. While it grows, a table remembers what brought it
into being (`Origin`), since this decides what may still be added: a header may complete a table
that only headers below it have named, and a dotted key may pass through tables without a header of
their own, but may add only to one that dotted keys have made. Arrays of tables grow at their last
element. -/

namespace DoublingHeap.Toml

/-- A TOML value. -/
inductive Value where
  | integer (n : Int)
  | float (literal : String)
  | boolean (b : Bool)
  | text (s : String)
  /-- A date, a time of day, or both. -/
  | moment (literal : String)
  | array (items : List Value)
  | table (entries : List (String × Value))

/-- The value of a key. -/
def find? {α : Type} (key : String) : List (String × α) → Option α
  | [] => none
  | (k, v) :: rest => if k = key then some v else find? key rest

/-- The entries with another value for a key that they have. -/
def replace {α : Type} (key : String) (value : α) : List (String × α) → List (String × α)
  | [] => []
  | (k, v) :: rest => if k = key then (k, value) :: rest else (k, v) :: replace key value rest

/-! ### Tables under construction -/

/-- What brought a table into being. -/
inductive Origin where
  /-- Its own header, or the start of the document or of an inline table. -/
  | header
  /-- The header of a table below it. -/
  | passage
  /-- A dotted key. -/
  | dotted
deriving DecidableEq, Repr

/-- What stands at a key. -/
inductive Node where
  | leaf (value : Value)
  | table (origin : Origin) (entries : List (String × Node))
  /-- An array of tables: the last element, and those before it, the nearest first. -/
  | tables (last : List (String × Node)) (before : List (List (String × Node)))

/-- The entries of a table under construction. -/
abbrev Entries : Type := List (String × Node)

namespace Entries

/-- Changes the table at the end of a path, by its origin and entries. Tables that are missing on
the way are made with the given origin. A path never leads through a value, and through the last
element of an array of tables. If it must avoid headers it never leads through a table with its own
header. -/
def alter (made : Origin) (avoidHeaders : Bool) (f : Origin → Entries → Option Entries) :
    List String → Origin → Entries → Option Entries
  | [], origin, entries => f origin entries
  | key :: rest, _, entries =>
    match find? key entries with
    | none => do
      let inner ← alter made avoidHeaders f rest made []
      return entries ++ [(key, .table made inner)]
    | some (.leaf _) => none
    | some (.table origin inner) =>
      if avoidHeaders && origin == .header then none
      else do
        let inner ← alter made avoidHeaders f rest origin inner
        return replace key (.table origin inner) entries
    | some (.tables last before) => do
      let last ← alter made avoidHeaders f rest .header last
      return replace key (.tables last before) entries

/-- Adds a value at a new key of a table. -/
def addValue (key : String) (value : Value) (entries : Entries) : Option Entries :=
  match find? key entries with
  | some _ => none
  | none => some (entries ++ [(key, .leaf value)])

/-- Puts a value at a dotted key. The table at the end of the path before the last key has to be
made by dotted keys, unless the path is empty. -/
def assign (path : List String) (key : String) (value : Value) (origin : Origin)
    (entries : Entries) : Option Entries :=
  alter .dotted true
    (fun o es => if path.isEmpty || o == .dotted then addValue key value es else none)
    path origin entries

/-- Opens the table that a header names: a new one, or one that only headers below it have named. -/
def openTable (path : List String) (key : String) (entries : Entries) : Option Entries :=
  alter .passage false
    (fun _ es =>
      match find? key es with
      | none => some (es ++ [(key, .table .header [])])
      | some (.table .passage inner) => some (replace key (.table .header inner) es)
      | some _ => none)
    path .header entries

/-- Opens a new element of the array of tables that a header names. -/
def openElement (path : List String) (key : String) (entries : Entries) : Option Entries :=
  alter .passage false
    (fun _ es =>
      match find? key es with
      | none => some (es ++ [(key, .tables [] [])])
      | some (.tables last before) => some (replace key (.tables [] (last :: before)) es)
      | some _ => none)
    path .header entries

/-- Puts a value at a dotted key of the table that the last header opened. -/
def assignIn (table path : List String) (key : String) (value : Value) (entries : Entries) :
    Option Entries :=
  alter .passage false (assign path key value) table .header entries

end Entries

mutual

/-- The value at a finished node. -/
def Node.toValue : Node → Value
  | .leaf value => value
  | .table _ entries => .table (Node.values entries)
  | .tables last before => .array (Node.elements before [.table (Node.values last)])

/-- The values of finished entries. -/
def Node.values : List (String × Node) → List (String × Value)
  | [] => []
  | (key, node) :: rest => (key, node.toValue) :: Node.values rest

/-- The tables of a finished array of tables, the nearest first, in front of those after them. -/
def Node.elements : List (List (String × Node)) → List Value → List Value
  | [], after => after
  | entries :: before, after => Node.elements before (.table (Node.values entries) :: after)

end

end DoublingHeap.Toml
