import DoublingHeap.Bytes.Hex

/-! # JSON text

Reports and settings are written as JSON. A `Json` value keeps the members of an object in order.
`compact` writes a value on one line without blanks, and `pretty` writes one member or item a line,
with the members of every object sorted by key (`sorted`). -/

namespace DoublingHeap

/-- The JSON values that reports hold. -/
inductive Json where
  | flag (b : Bool)
  | number (n : Nat)
  | text (s : String)
  | array (items : List Json)
  | object (members : List (String × Json))

namespace Json

/-- A character inside a quoted text. -/
def escape (c : Char) : List Char :=
  if c = '"' then ['\\', '"']
  else if c = '\\' then ['\\', '\\']
  else if c = '\n' then ['\\', 'n']
  else if c = '\r' then ['\\', 'r']
  else if c = '\t' then ['\\', 't']
  else if c.toNat = 0x08 then ['\\', 'b']
  else if c.toNat = 0x0c then ['\\', 'f']
  else if c.toNat < 0x20 then ['\\', 'u', '0', '0'] ++ Bytes.Hex.ofByte (UInt8.ofNat c.toNat)
  else [c]

/-- A text in quotes. -/
def quote (s : String) : String := String.ofList (['"'] ++ s.toList.flatMap escape ++ ['"'])

/-- Members in the order of their keys. -/
def sortMembers (members : List (String × Json)) : List (String × Json) :=
  members.mergeSort fun a b => a.1 ≤ b.1

mutual

/-- The value with the members of every object sorted by key. -/
def sorted : Json → Json
  | flag b => flag b
  | number n => number n
  | text s => text s
  | array items => array (sortedItems items)
  | object members => object (sortMembers (sortedMembers members))

/-- The items, each sorted. -/
def sortedItems : List Json → List Json
  | [] => []
  | item :: rest => sorted item :: sortedItems rest

/-- The members in their order, each value sorted. -/
def sortedMembers : List (String × Json) → List (String × Json)
  | [] => []
  | (key, value) :: rest => (key, sorted value) :: sortedMembers rest

end

mutual

/-- The value on one line without blanks. -/
def compact : Json → String
  | flag b => if b then "true" else "false"
  | number n => toString n
  | text s => quote s
  | array items => "[" ++ ",".intercalate (compactItems items) ++ "]"
  | object members => "\x7b" ++ ",".intercalate (compactMembers members) ++ "\x7d"

/-- The items, each on one line. -/
def compactItems : List Json → List String
  | [] => []
  | item :: rest => compact item :: compactItems rest

/-- The members, each on one line. -/
def compactMembers : List (String × Json) → List String
  | [] => []
  | (key, value) :: rest => (quote key ++ ":" ++ compact value) :: compactMembers rest

end

/-- Lines between brackets that stand on lines of their own. Without lines the brackets are
together. -/
def bracketed (opening closing : String) (inner : List (List String)) : List String :=
  match inner.reverse with
  | [] => [opening ++ closing]
  | last :: before =>
    let ended := before.reverse.map fun lines =>
      lines.dropLast ++ (lines.getLast?.map (· ++ ",")).toList
    [opening] ++ ((ended ++ [last]).flatten.map ("  " ++ ·)) ++ [closing]

mutual

/-- The lines of a value, one member or item a line, in the order they have. -/
def lines : Json → List String
  | flag b => [compact (flag b)]
  | number n => [compact (number n)]
  | text s => [compact (text s)]
  | array items => bracketed "[" "]" (itemLines items)
  | object members => bracketed "\x7b" "\x7d" (memberLines members)

/-- The lines of each item. -/
def itemLines : List Json → List (List String)
  | [] => []
  | item :: rest => lines item :: itemLines rest

/-- The lines of each member; the first starts with the key. -/
def memberLines : List (String × Json) → List (List String)
  | [] => []
  | (key, value) :: rest =>
    (match lines value with
      | [] => []
      | first :: more => (quote key ++ ": " ++ first) :: more) :: memberLines rest

end

/-- The lines of the value with the members of every object sorted by key. -/
def pretty (j : Json) : List String := j.sorted.lines

end Json

end DoublingHeap
