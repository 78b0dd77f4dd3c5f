import DoublingHeap.Bytes.Hex
import DoublingHeap.Toml.Parser

/-! # Quoted texts and keys

A text stands between double quotes, where a backslash starts an escape, or between single quotes,
where every character stands for itself. With three quotes on either side it may run over several
lines; a line end right after the opening quotes does not count, and one or two quotes may stand
inside.

A key is a bare word or a quoted text on one line. Keys joined by dots are a path into nested
tables. A path has fewer than `maxDepth` keys, and values nest less deep than that. -/

namespace DoublingHeap.Toml.Quoted

open Toml.Parser Toml.Blank

attribute [local instance (high)] instPowNat

/-- The characters that stand for themselves between double quotes. -/
def isBasic (c : Char) : Bool := isPlain c && c != '"' && c != '\\'

/-- The characters that stand for themselves between single quotes. -/
def isLiteral (c : Char) : Bool := isPlain c && c != '\''

/-- The character of a code point; surrogates and numbers above the last code point have none. -/
def ofCodePoint? (n : Nat) : Option Char :=
  if h : n.isValidChar then some (Char.ofNatAux n h) else none

/-- The number that `n` hexadecimal digits spell. -/
def hexDigits : Nat → Parser Nat
  | 0 => return 0
  | n + 1 => do
    let d ← (satisfy fun _ => true).filterMap Bytes.Hex.digitValue?
    let rest ← hexDigits n
    return d * 16 ^ n + rest

/-- The character that an escape stands for. -/
def escape : Parser Char := do
  let _ ← char '\\'
  match ← satisfy fun _ => true with
  | 'b' => return '\x08'
  | 'f' => return '\x0c'
  | 'n' => return '\n'
  | 'r' => return '\r'
  | 't' => return '\t'
  | '"' => return '"'
  | '\\' => return '\\'
  | 'u' => (hexDigits 4).filterMap ofCodePoint?
  | 'U' => (hexDigits 8).filterMap ofCodePoint?
  | _ => failure

/-- A text between double quotes. -/
def basic : Parser String := do
  let _ ← char '"'
  let cs ← repeated (satisfy isBasic <|> escape)
  let _ ← char '"'
  return String.ofList cs

/-- A text between single quotes. -/
def literal : Parser String := do
  let _ ← char '\''
  let cs ← takeWhile isLiteral
  let _ ← char '\''
  return String.ofList cs

/-- A backslash at the end of a line: the line end and all blanks and line ends after it vanish. -/
def joinedLines : Parser Unit := do
  let _ ← char '\\'
  blanks
  newline
  let _ ← repeated (newline <|> do let _ ← satisfy isBlank)

/-- A line end as content. -/
def lineFeed : Parser (List Char) := do
  newline
  return ['\n']

/-- One or two quotes that `next` follows. -/
def innerQuotes (quote : Char) (next : Parser Unit) : Parser (List Char) :=
  (do run [quote, quote]; peek next; return [quote, quote])
    <|> (do run [quote]; peek next; return [quote])

/-- A text between three quotes on either side, made of pieces of content. -/
def multiline (quote : Char) (content : Parser (List Char)) : Parser String := do
  let fence := run [quote, quote, quote]
  let something : Parser Unit := do let _ ← content
  fence
  let _ ← option newline
  let pieces ← repeated (content <|> innerQuotes quote something)
  let last ← option (innerQuotes quote fence)
  fence
  return String.ofList (pieces.flatten ++ last.getD [])

/-- A text between three double quotes on either side. -/
def multilineBasic : Parser String :=
  multiline '"' <|
    ((fun c => [c]) <$> satisfy isBasic)
      <|> (do joinedLines; return [])
      <|> ((fun c => [c]) <$> escape)
      <|> lineFeed

/-- A text between three single quotes on either side. -/
def multilineLiteral : Parser String :=
  multiline '\'' <| ((fun c => [c]) <$> satisfy isLiteral) <|> lineFeed

/-- A text in any of the four forms. -/
def quoted : Parser String := multilineBasic <|> basic <|> multilineLiteral <|> literal

end DoublingHeap.Toml.Quoted

/-! ### Keys -/

namespace DoublingHeap.Toml.Key

open Toml.Parser

/-- Paths and nested values stay below this depth. -/
def maxDepth : Nat := 80

/-- The characters of a bare key. -/
def isBare (c : Char) : Bool :=
  ('A' ≤ c && c ≤ 'Z') || ('a' ≤ c && c ≤ 'z') || ('0' ≤ c && c ≤ '9') || c == '-' || c == '_'

/-- One key. -/
def single : Parser String :=
  (String.ofList <$> takeWhile1 isBare) <|> Quoted.basic <|> Quoted.literal

/-- One key with blanks around it. -/
def padded : Parser String := do
  Blank.blanks
  let key ← single
  Blank.blanks
  return key

/-- The keys before the last of a path, and the last. -/
def splitLast : List String → Option (List String × String)
  | [] => none
  | [key] => some ([], key)
  | key :: rest => (splitLast rest).map fun (before, last) => (key :: before, last)

/-- A path: the keys before the last, and the last. -/
def path : Parser (List String × String) :=
  (separated1 padded (char '.')).filterMap fun keys =>
    if keys.length < maxDepth then splitLast keys else none

end DoublingHeap.Toml.Key
