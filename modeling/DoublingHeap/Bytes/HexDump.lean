import DoublingHeap.Bytes.Hex

/-! # Hex dumps

A dump shows sixteen bytes a line: the position of the first of them, their digits in a column of
fixed width, and the same bytes as text, where a dot stands for a byte that is no printable ASCII
character. -/

namespace DoublingHeap.Bytes.HexDump

/-- The number of bytes on a full line. -/
def bytesPerLine : Nat := 16

/-- The width of the column of digits: two digits a byte and a blank between bytes. -/
def digitsWidth : Nat := 3 * bytesPerLine - 1

/-- The digits of a number, filled up with zeros on the left. -/
def paddedPosition (n : Nat) : String := String.ofList ((Hex.ofNat n).leftpad 8 '0')

/-- The column of digits. -/
def digitsColumn (bytes : List UInt8) : String :=
  let digits := " ".intercalate (bytes.map fun b => String.ofList (Hex.ofByte b))
  String.ofList (digits.toList.rightpad digitsWidth ' ')

/-- The character that stands for a byte. -/
def printable (b : UInt8) : Char := if 0x20 ≤ b ∧ b ≤ 0x7e then Char.ofNat b.toNat else '.'

/-- The column of text. -/
def textColumn (bytes : List UInt8) : String := String.ofList (bytes.map printable)

/-- The line of at most `bytesPerLine` bytes at a position. -/
def line (position : Nat) (bytes : List UInt8) : String :=
  paddedPosition position ++ "  " ++ digitsColumn bytes ++ "  |" ++ textColumn bytes ++ "|"

/-- The lines of bytes that start at a position. -/
def linesFrom (position : Nat) (bytes : List UInt8) : List String :=
  if bytes.isEmpty then []
  else
    line position (bytes.take bytesPerLine)
      :: linesFrom (position + bytesPerLine) (bytes.drop bytesPerLine)
termination_by bytes.length
decreasing_by
  rename_i h
  cases bytes with
  | nil => exact absurd rfl h
  | cons b bs => simp only [bytesPerLine, List.length_drop, List.length_cons]; omega

/-- The lines of the dump of a byte string. -/
def lines (bytes : List UInt8) : List String := linesFrom 0 bytes

end DoublingHeap.Bytes.HexDump
