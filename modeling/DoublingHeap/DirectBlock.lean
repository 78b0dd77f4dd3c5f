import DoublingHeap.BlockHeading

/-! # Direct blocks

A direct block holds objects. It keeps a view of all its bytes, its own header included, since heap
offsets are counted from the start of the block. `contains` says which heap offsets lie in the block
and `slice` gives the bytes of an object that lies in it whole. -/

namespace DoublingHeap

/-- A direct block and the bytes in it. -/
structure DirectBlock where
  /-- The file address of the block. -/
  address : Nat
  /-- The offset of the block in heap address space. -/
  offset : Nat
  /-- The length of the header at the start of `data`. -/
  headerLength : Nat
  /-- The whole block. -/
  data : Image.Region

namespace DirectBlock

/-- The number of bytes, header included. -/
def size (b : DirectBlock) : Nat := b.data.length

/-- The length of the checksum after the heading, if blocks of the heap carry one. -/
def checksumLength (h : Header) : Nat := if h.directBlocksChecksummed then 4 else 0

/-- The length of a direct block's header: the heading and the checksum. -/
def headerLengthOf (h : Header) : Nat := BlockHeading.length h + checksumLength h

/-- Reads the header of a direct block and gives its heap offset. The checksum is passed over. -/
def reader (h : Header) : Reader Nat := do
  let offset ← BlockHeading.reader h .direct
  if h.directBlocksChecksummed then .skip 4
  return offset

/-- The direct block of `size` bytes at an address. The size is tested before any byte is read, and
only the header's bytes are read before its fields are tested. -/
def read (image : Image) (h : Header) (address size : Nat) : Logged DirectBlock := do
  if size < headerLengthOf h then
    .fail (.malformed address (.blockBelowHeader size (headerLengthOf h)))
  else
    let record ← image.readRecord address (headerLengthOf h)
    let offset ← (reader h).read address record
    let data ← image.viewRegion address size
    Logged.emit (.directBlockRead address offset size)
    return ⟨address, offset, headerLengthOf h, data⟩

/-- The bytes of a direct block at a heap offset. Heaps without checksums have an empty one. -/
def encode (h : Header) (offset : Nat) (checksum payload : List UInt8) : List UInt8 :=
  BlockHeading.encode h .direct offset ++ checksum ++ payload

/-- The bytes after the header. -/
def payload (b : DirectBlock) : Image.Region := b.data.drop b.headerLength

/-- Whether a heap offset lies in the block. -/
def contains (b : DirectBlock) (offset : Nat) : Bool :=
  b.offset ≤ offset && offset < b.offset + b.size

/-- The `length` bytes at a heap offset, if the offset lies in the block and all of them do. -/
def slice (b : DirectBlock) (offset length : Nat) : Option (List UInt8) :=
  if b.contains offset then
    if h : offset - b.offset + length ≤ b.data.length then
      some (b.data.slice (offset - b.offset) length h).toList
    else none
  else none

/-- The block in one line: where it is, where it belongs, and how long it is. -/
def describe (b : DirectBlock) : String :=
  s!"DirectBlock \x7b address: {b.address}, block_offset: {b.offset}, size: {b.size} \x7d"

/-! ### Offsets in a block -/

theorem contains_iff {b : DirectBlock} {offset : Nat} :
    b.contains offset = true ↔ b.offset ≤ offset ∧ offset < b.offset + b.size := by
  simp [contains]

theorem slice_eq_some_iff {b : DirectBlock} {offset length : Nat} {bytes : List UInt8} :
    b.slice offset length = some bytes ↔
      b.contains offset = true ∧ offset + length ≤ b.offset + b.size ∧
        bytes = (b.data.toList.drop (offset - b.offset)).take length := by
  unfold slice
  by_cases hc : b.contains offset = true
  · have hle := (contains_iff.mp hc).1
    rw [if_pos hc]
    by_cases h : offset - b.offset + length ≤ b.data.length
    · rw [dif_pos h, Image.Region.toList_slice, Option.some.injEq, eq_comm]
      refine ⟨fun hb => ⟨hc, ?_, hb⟩, fun hb => hb.2.2⟩
      unfold size
      omega
    · rw [dif_neg h]
      refine ⟨fun hb => by simp at hb, fun hb => ?_⟩
      have := hb.2.1
      unfold size at this
      omega
  · rw [if_neg hc]
    exact ⟨fun hb => by simp at hb, fun hb => absurd hb.1 hc⟩

end DirectBlock

end DoublingHeap
