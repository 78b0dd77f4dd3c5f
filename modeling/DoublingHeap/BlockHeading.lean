import DoublingHeap.Header

/-! # Block headings

Direct and indirect blocks begin alike: a signature, a version, the file address of the heap that
owns the block, and the block's offset in heap address space. `BlockHeading.reader` reads this
heading and hands back the offset; it refuses a block of another heap. `BlockHeading.encode` writes
it. -/

namespace DoublingHeap

/-- The two kinds of block. -/
inductive BlockKind where
  | direct
  | indirect
deriving DecidableEq, Repr

namespace BlockKind

/-- A kind of block as a versioned structure. -/
def subject : BlockKind → Structure
  | direct => .directBlock
  | indirect => .indirectBlock

/-- The bytes that mark a kind of block: `FHDB` and `FHIB`. -/
def signature : BlockKind → List UInt8
  | direct => [0x46, 0x48, 0x44, 0x42]
  | indirect => [0x46, 0x48, 0x49, 0x42]

end BlockKind

namespace BlockHeading

/-- The length of a heading. -/
def length (h : Header) : Nat := 5 + h.superblock.offsetWidth + h.offsetBytes

/-- Reads a heading and gives the heap offset of the block. -/
def reader (h : Header) (kind : BlockKind) : Reader Nat := do
  Reader.signature kind.signature
  Reader.version kind.subject
  let owner ← .uint h.superblock.offsetWidth
  if owner ≠ h.address then
    .refuse fun address => .reference address (.foreignBlock kind.subject owner h.address)
  .uint h.offsetBytes

/-- The heading of a block at a heap offset. -/
def encode (h : Header) (kind : BlockKind) (offset : Nat) : List UInt8 :=
  kind.signature ++ [0] ++ Bytes.LittleEndian.encode h.superblock.offsetWidth h.address
    ++ Bytes.LittleEndian.encode h.offsetBytes offset

theorem length_encode (h : Header) (kind : BlockKind) (offset : Nat) :
    (encode h kind offset).length = length h := by
  have : kind.signature.length = 4 := by cases kind <;> rfl
  simp only [encode, List.length_append, Bytes.LittleEndian.length_encode, this, List.length_cons,
    List.length_nil, length]

end BlockHeading

end DoublingHeap
