import DoublingHeap.Bytes.Hex
import DoublingHeap.Bytes.Utf8

/-! # Texts of the command line

Unsigned numbers below a limit are written with digits of a base, after a plus sign if wanted. An
address is such a numeral in base ten, or in base sixteen after `0x` or `0X`; widths are small
numbers, which may also carry a minus sign if they are zero.

A byte string is written in hexadecimal digits. White space and colons may stand anywhere between
them, also between the two digits of a byte. -/

namespace DoublingHeap.Text.Numeral

attribute [local instance (high)] instPowNat

/-- The value of a digit below the base. -/
def digitValue? (base : Nat) (c : Char) : Option Nat :=
  (Bytes.Hex.digitValue? c).filter (· < base)

/-- The number that digits spell after the number `n`. -/
def continueDigits? (base : Nat) : List Char → Nat → Option Nat
  | [], n => some n
  | c :: cs, n => do continueDigits? base cs (n * base + (← digitValue? base c))

/-- The number that one or more digits spell. -/
def digits? (base : Nat) : List Char → Option Nat
  | [] => none
  | cs => continueDigits? base cs 0

/-- The digits after a plus sign, if there is one. -/
def dropPlus : List Char → List Char
  | '+' :: cs => cs
  | cs => cs

/-- The number below `limit` that a numeral spells. -/
def unsigned? (base limit : Nat) (cs : List Char) : Option Nat :=
  (digits? base (dropPlus cs)).filter (· < limit)

/-- Addresses are below this. -/
def addressLimit : Nat := (2 : Nat) ^ (64 : Nat)

/-- The address that a text spells. -/
def address? (text : String) : Option Nat :=
  match text.toList with
  | '0' :: 'x' :: cs => unsigned? 16 addressLimit cs
  | '0' :: 'X' :: cs => unsigned? 16 addressLimit cs
  | cs => unsigned? 10 addressLimit cs

/-- The number below 256 that a text spells. -/
def width? (text : String) : Option Nat :=
  match text.toList with
  | '-' :: cs => (digits? 10 cs).filter (· == 0)
  | cs => unsigned? 10 256 cs

end DoublingHeap.Text.Numeral

/-! ### White space

The characters that Unicode calls white space: the ASCII blanks and line ends, the line ends of
other character sets, and the spaces of typography. -/

namespace DoublingHeap.Text.Space

/-- The ranges of code points of white space, from the first to the last of each. -/
def ranges : List (Nat × Nat) :=
  [(0x09, 0x0d), (0x20, 0x20), (0x85, 0x85), (0xa0, 0xa0), (0x1680, 0x1680), (0x2000, 0x200a),
   (0x2028, 0x2029), (0x202f, 0x202f), (0x205f, 0x205f), (0x3000, 0x3000)]

/-- Whether a character is white space. -/
def isSpace (c : Char) : Bool := ranges.any fun (first, last) => first ≤ c.toNat && c.toNat ≤ last

end DoublingHeap.Text.Space

/-! ### Byte strings -/

namespace DoublingHeap.Text.ByteString

/-- Whether a character only separates digits. -/
def isSeparator (c : Char) : Bool := c == ':' || Space.isSpace c

/-- The text without its separators. -/
def compact (text : String) : String := String.ofList (text.toList.filter fun c => ! isSeparator c)

/-- The bytes that a text spells. -/
def parse (text : String) : Except Bytes.Hex.Fault (List UInt8) :=
  Bytes.Hex.decode (Bytes.Utf8.encode (compact text))

end DoublingHeap.Text.ByteString
