/-! # Reading bytes as text

UTF-8 text is read one byte at a time. Between characters a byte starts a new one; inside a
character the machine knows how many bytes are still owed and in which range the next must lie
(`Partial`). `decodeLossy` reads any bytes: every longest piece that could have started a character
but does not finish one becomes one replacement character. -/

namespace DoublingHeap.Bytes.Utf8

/-- A character that has been started: `owed + 1` more bytes belong to it, the next of them lies in
`low ..= high`, and `value` is the number that the bytes so far spell. -/
structure Partial where
  value : Nat
  owed : Nat
  low : Nat
  high : Nat

/-- What the first byte of a character says. -/
inductive Start where
  /-- The byte is a whole character. -/
  | whole (c : Char)
  /-- More bytes follow. -/
  | more (p : Partial)
  /-- No character starts with this byte. -/
  | invalid

/-- The character that a byte starts. -/
def start (b : UInt8) : Start :=
  let n := b.toNat
  if n < 0x80 then .whole (Char.ofNat n)
  else if n < 0xC2 then .invalid
  else if n < 0xE0 then .more ⟨n - 0xC0, 0, 0x80, 0xBF⟩
  else if n < 0xF0 then
    .more ⟨n - 0xE0, 1, if n = 0xE0 then 0xA0 else 0x80, if n = 0xED then 0x9F else 0xBF⟩
  else if n < 0xF5 then
    .more ⟨n - 0xF0, 2, if n = 0xF0 then 0x90 else 0x80, if n = 0xF4 then 0x8F else 0xBF⟩
  else .invalid

/-- The character that stands for a piece that is no character. -/
def replacement : Char := '\uFFFD'

mutual

/-- The text of the bytes, read between two characters. -/
def decodeLossy : List UInt8 → List Char
  | [] => []
  | b :: bs =>
    match start b with
    | .whole c => c :: decodeLossy bs
    | .more p => decodeInside p bs
    | .invalid => replacement :: decodeLossy bs

/-- The text of the bytes, read inside a character that has been started. -/
def decodeInside (p : Partial) : List UInt8 → List Char
  | [] => [replacement]
  | b :: bs =>
    if p.low ≤ b.toNat ∧ b.toNat ≤ p.high then
      let value := p.value * 64 + b.toNat % 64
      match p.owed with
      | 0 => Char.ofNat value :: decodeLossy bs
      | owed + 1 => decodeInside ⟨value, owed, 0x80, 0xBF⟩ bs
    else
      match start b with
      | .whole c => replacement :: c :: decodeLossy bs
      | .more q => replacement :: decodeInside q bs
      | .invalid => replacement :: replacement :: decodeLossy bs

end

/-- The bytes of a text. -/
def encode (text : String) : List UInt8 := text.toUTF8.data.toList

/-- The text of bytes that are valid UTF-8. -/
def decode? (bytes : ByteArray) : Option String := String.fromUTF8? bytes

end DoublingHeap.Bytes.Utf8
