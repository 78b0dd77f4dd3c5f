import DoublingHeap.Record

/-! # Heap identifiers

An identifier is a byte string of the heap's fixed length that names an object. Its first byte packs
a version, which has to be zero, and an addressing mode. Mode zero is a managed object: heap offset
and length follow at the widths of the `Layout`. `Identifier.parse` reads an identifier, and
`Identifier.encodeManaged` writes a managed one. -/

namespace DoublingHeap

/-- What an identifier names. -/
inductive Identifier where
  /-- An object in a direct block. -/
  | managed (offset length : Nat)
  /-- An object outside the heap. -/
  | huge
  /-- An object inside the identifier. -/
  | tiny
  /-- The addressing mode without a meaning, with the bytes after the first. -/
  | reserved (payload : List UInt8)
deriving DecidableEq, Repr

namespace Identifier

/-- The lengths that shape the identifiers of a heap. -/
structure Layout where
  idLength : Nat
  offsetBytes : Nat
  lengthBytes : Nat
deriving DecidableEq, Repr

/-- The version in the first byte. -/
def versionOf (flags : UInt8) : Nat := Bytes.Bits.field flags 6 2

/-- The addressing mode in the first byte. -/
def modeOf (flags : UInt8) : Nat := Bytes.Bits.field flags 4 2

/-- The heap offset and length of a managed object in the bytes after the first. -/
def placeReader (layout : Layout) : Reader (Nat × Nat) := do
  let offset ← .uint layout.offsetBytes
  let length ← .uint layout.lengthBytes
  return (offset, length)

/-- The identifier that a byte string spells, in the heap at `address`. Its length is tested first,
then the version, then what its addressing mode needs. -/
def parse (raw : List UInt8) (layout : Layout) (address : Nat) : Except HeapError Identifier :=
  if raw.length ≠ layout.idLength then
    .error (.identifier address (.wrongLength layout.idLength raw.length))
  else
    match raw with
    | [] => .error (.identifier address .empty)
    | flags :: rest =>
      if versionOf flags ≠ 0 then .error (.version address .identifier (versionOf flags))
      else
        match modeOf flags with
        | 0 =>
          match (placeReader layout).read address rest with
          | .ok (offset, length) => .ok (.managed offset length)
          | .error _ => .error (.identifier address
              (.tooShort raw.length layout.offsetBytes layout.lengthBytes))
        | 1 => .ok .huge
        | 2 => .ok .tiny
        | _ => .ok (.reserved rest)

/-- The identifier of a managed object, filled up with `padding`. -/
def encodeManaged (layout : Layout) (offset length : Nat) (padding : List UInt8) : List UInt8 :=
  0 :: (Bytes.LittleEndian.encode layout.offsetBytes offset
    ++ Bytes.LittleEndian.encode layout.lengthBytes length ++ padding)

end Identifier

end DoublingHeap
