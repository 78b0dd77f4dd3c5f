/-! # Hexadecimal digits

A byte is written as two lower-case digits, high half first (`ofByte`, `encode`). Reading takes
digits of either case and names the first character that is no digit (`decode`). A number without
leading zeros is written by `ofNat`. -/

namespace DoublingHeap.Bytes.Hex

/-- The lower-case digit of a number below sixteen. -/
def digit (n : Nat) : Char :=
  if n < 10 then Char.ofNat ('0'.toNat + n) else Char.ofNat ('a'.toNat + (n - 10))

/-- The value of a digit of either case. -/
def digitValue? (c : Char) : Option Nat :=
  if '0' ≤ c ∧ c ≤ '9' then some (c.toNat - '0'.toNat)
  else if 'a' ≤ c ∧ c ≤ 'f' then some (c.toNat - 'a'.toNat + 10)
  else if 'A' ≤ c ∧ c ≤ 'F' then some (c.toNat - 'A'.toNat + 10)
  else none

/-- The two digits of a byte, high half first. -/
def ofByte (b : UInt8) : List Char := [digit (b.toNat / 16), digit (b.toNat % 16)]

/-- The digits of a run of bytes, two for each byte. -/
def encode (bytes : List UInt8) : List Char := bytes.flatMap ofByte

/-- The digits of a number in base sixteen, without leading zeros; zero has one digit. -/
def ofNat (n : Nat) : List Char :=
  if n < 16 then [digit n] else ofNat (n / 16) ++ [digit (n % 16)]

/-- Why a text is not a run of digit pairs. -/
inductive Fault where
  /-- The number of characters is odd, so the last digit has no partner. -/
  | oddLength
  /-- The character at this position is no digit. -/
  | notDigit (c : Char) (position : Nat)
deriving DecidableEq, Repr

/-- The digit that a byte of text spells, at `position`. The byte is read as the character of that
code. -/
def digitAt (b : UInt8) (position : Nat) : Except Fault Nat :=
  match digitValue? (Char.ofNat b.toNat) with
  | some v => .ok v
  | none => .error (.notDigit (Char.ofNat b.toNat) position)

/-- The bytes that digit pairs spell, from the character at `position` on. -/
def pairs : Nat → List UInt8 → Except Fault (List UInt8)
  | position, high :: low :: rest => do
    let h ← digitAt high position
    let l ← digitAt low (position + 1)
    let bytes ← pairs (position + 2) rest
    return UInt8.ofNat (16 * h + l) :: bytes
  | _, _ => .ok []

/-- The bytes that a text of digit pairs spells. The length is tested before any character. -/
def decode (text : List UInt8) : Except Fault (List UInt8) :=
  if text.length % 2 = 1 then .error .oddLength else pairs 0 text

/-- A character as it stands between single quotes: the quote, the backslash and NUL have short
escapes, and other control characters are written by their code. -/
def quoted (c : Char) : String :=
  if c = '\'' then "\\'"
  else if c = '\\' then "\\\\"
  else if c.toNat = 0 then "\\0"
  else if c.toNat < 0x20 ∨ c.toNat = 0x7f then "\\u\x7b" ++ String.ofList (ofNat c.toNat) ++ "\x7d"
  else c.toString

/-- What is wrong with a text that has no digit pairs. -/
def Fault.message : Fault → String
  | .oddLength => "Odd number of digits"
  | .notDigit c position => "Invalid character '" ++ quoted c ++ s!"' at position {position}"

end DoublingHeap.Bytes.Hex
