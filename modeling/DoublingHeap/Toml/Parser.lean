/-! # Parsers over characters

A `Parser` reads a value from the front of a list of characters and hands back what is left. Where
it has no value it leaves the characters to the next alternative. `repeated` reads as many values as
there are; since every value takes at least one character, as many rounds as characters are enough.
-/

namespace DoublingHeap.Toml

/-- Reads a value from the front of the characters. -/
abbrev Parser (α : Type) : Type := StateT (List Char) Option α

namespace Parser

variable {α β : Type}

/-- The next character, if it is in a class. -/
def satisfy (isMember : Char → Bool) : Parser Char
  | c :: rest => if isMember c then some (c, rest) else none
  | [] => none

/-- One given character. -/
def char (c : Char) : Parser Char := satisfy (· == c)

/-- A given run of characters. -/
def run : List Char → Parser Unit
  | [] => return ()
  | c :: cs => do
    let _ ← char c
    run cs

/-- A given word. -/
def word (s : String) : Parser Unit := run s.toList

/-- The characters of a class, up to the first that is not in it. -/
def takeWhile (isMember : Char → Bool) : Parser (List Char) := fun s =>
  some (s.takeWhile isMember, s.dropWhile isMember)

/-- At least one character of a class. -/
def takeWhile1 (isMember : Char → Bool) : Parser (List Char) := do
  let first ← satisfy isMember
  let rest ← takeWhile isMember
  return first :: rest

/-- Values as long as there are any, in at most as many rounds as there are characters in the first
list. Counting them would take longer than most runs of values do. -/
def rounds (p : Parser α) : List Char → Parser (List α)
  | [], s => some ([], s)
  | _ :: left, s =>
    match p s with
    | none => some ([], s)
    | some (a, rest) => (rounds p left rest).map fun (as, rest) => (a :: as, rest)

/-- Values as long as there are any. -/
def repeated (p : Parser α) : Parser (List α) := fun s => rounds p s s

/-- Values with a separator between each two, at least one. -/
def separated1 (p : Parser α) (separator : Parser β) : Parser (List α) := do
  let first ← p
  let rest ← repeated (do let _ ← separator; p)
  return first :: rest

/-- Values with a separator between each two, if there are any. -/
def separated (p : Parser α) (separator : Parser β) : Parser (List α) :=
  separated1 p separator <|> pure []

/-- A value, if there is one. -/
def option (p : Parser α) : Parser (Option α) := (some <$> p) <|> pure none

/-- A value that is there but stays unread. -/
def peek (p : Parser α) : Parser Unit := fun s => (p s).map fun _ => ((), s)

/-- Nothing is left. -/
def atEnd : Parser Unit
  | [] => some ((), [])
  | _ :: _ => none

/-- The characters that a value takes. -/
def recognized (p : Parser α) : Parser String := fun s =>
  (p s).map fun (_, rest) => (String.ofList (s.take (s.length - rest.length)), rest)

/-- The value, if it is one of the wanted. -/
def filterMap (p : Parser α) (f : α → Option β) : Parser β := do
  match f (← p) with
  | some b => return b
  | none => failure

/-- The value of the whole text. -/
def complete (p : Parser α) (text : List Char) : Option α :=
  match p text with
  | some (a, []) => some a
  | _ => none

end Parser

end DoublingHeap.Toml

/-! ### Blanks, comments and line ends

Lines end with a line feed, which a carriage return may precede, or with the text. A comment runs
from `#` to the end of its line. Control characters other than the tab stand nowhere. -/

namespace DoublingHeap.Toml.Blank

open Toml.Parser

/-- Space and tab. -/
def isBlank (c : Char) : Bool := c == ' ' || c == '\t'

/-- The characters that may stand in a text: the tab and all but control characters. -/
def isPlain (c : Char) : Bool := c == '\t' || (0x20 ≤ c.toNat && c.toNat != 0x7f)

/-- Spaces and tabs. -/
def blanks : Parser Unit := do let _ ← takeWhile isBlank

/-- The end of a line inside the text. -/
def newline : Parser Unit := (do let _ ← char '\n') <|> run ['\r', '\n']

/-- A comment, without the end of its line. -/
def comment : Parser Unit := do
  let _ ← char '#'
  let _ ← takeWhile isPlain

/-- The end of a line or of the text. -/
def lineEnd : Parser Unit := newline <|> atEnd

/-- What may follow the content of a line: blanks, a comment, and the end of the line. -/
def restOfLine : Parser Unit := do
  blanks
  let _ ← option comment
  lineEnd

/-- Blanks, comments and line ends in any number. -/
def gaps : Parser Unit := do
  let _ ← repeated (newline <|> (do comment; newline) <|> do let _ ← takeWhile1 isBlank)

end DoublingHeap.Toml.Blank
