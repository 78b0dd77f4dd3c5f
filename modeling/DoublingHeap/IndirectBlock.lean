import DoublingHeap.BlockHeading

/-! # Indirect blocks

An indirect block is a table of `rows` rows. Its slots are filled from the first on: `children` are
the addresses up to the first slot that holds the undefined address, and what stands after that slot
has no meaning. With filters every address is followed by a length and a mask. -/

namespace DoublingHeap

/-- An indirect block. -/
structure IndirectBlock where
  /-- The file address of the block. -/
  address : Nat
  /-- The offset of the block in heap address space. -/
  offset : Nat
  rows : Nat
  /-- The addresses of the blocks in its slots, from slot zero on. -/
  children : List Nat
deriving DecidableEq, Repr

namespace IndirectBlock

/-- The length of what follows an address in a slot. -/
def filterEntryLength (h : Header) : Nat := if h.hasFilters then h.superblock.lengthWidth + 4 else 0

/-- The number of slots in a block of `rows` rows. -/
def slots (h : Header) (rows : Nat) : Nat := rows * h.table.width

/-- The length of the record of a block of `rows` rows. -/
def recordLength (h : Header) (rows : Nat) : Nat :=
  BlockHeading.length h + slots h rows * (h.superblock.offsetWidth + filterEntryLength h)

/-- Reads the child in a slot; a slot that holds the undefined address has none. -/
def slotReader (h : Header) : Reader (Option Nat) := do
  let child ← .uint h.superblock.offsetWidth
  if h.superblock.isUndefined child then return none
  if h.hasFilters then .skip (filterEntryLength h)
  return some child

/-- Reads the children in at most `n` slots. -/
def childrenReader (h : Header) (n : Nat) : Reader (List Nat) := Reader.collect (slotReader h) n []

/-- Reads a block of `rows` rows and gives its heap offset and its children. -/
def reader (h : Header) (rows : Nat) : Reader (Nat × List Nat) := do
  let offset ← BlockHeading.reader h .indirect
  let children ← childrenReader h (slots h rows)
  return (offset, children)

/-- The indirect block of `rows` rows at an address. The row count is tested before any byte is
read. -/
def read (image : Image) (h : Header) (address rows : Nat) : Except HeapError IndirectBlock := do
  if h.table.maxRows < rows then
    throw (.malformed address (.tooManyRows rows h.table.maxRows))
  let record ← image.readRecord address (recordLength h rows)
  let (offset, children) ← (reader h rows).read address record
  return ⟨address, offset, rows, children⟩

/-! ### The children of a block that has been read -/

theorem length_of_childrenReader {h : Header} {n : Nat} {c c' : Cursor} {children : List Nat}
    (hr : (childrenReader h n).step c = (.ok children, c')) : children.length ≤ n := by
  simpa using Reader.length_of_collect hr

/-- A block that has been read has the rows that were asked for, no more than the table allows, and
no more children than slots. -/
theorem of_read_eq_ok {image : Image} {h : Header} {address rows : Nat} {b : IndirectBlock}
    (hr : read image h address rows = .ok b) :
    b.rows = rows ∧ rows ≤ h.table.maxRows ∧ b.children.length ≤ slots h rows := by
  unfold read at hr
  split at hr
  · cases hr
  rename_i hrows
  rcases hrec : image.readRecord address (recordLength h rows) with e | record <;> rw [hrec] at hr
  · cases hr
  rcases hread : (reader h rows).read address record with e | ⟨offset, children⟩
  · simp only [Except.bind, bind, hread] at hr
    cases hr
  · simp only [Except.bind, bind, hread, pure, Except.pure, Except.ok.injEq] at hr
    subst hr
    refine ⟨rfl, Nat.le_of_not_lt hrows, ?_⟩
    unfold Reader.read at hread
    rcases hstep : (reader h rows).step (Cursor.atStart address record) with ⟨r, c'⟩
    rw [hstep] at hread
    simp only at hread
    subst hread
    unfold reader at hstep
    rw [Reader.step_bind_eq_ok] at hstep
    obtain ⟨_, _, -, hstep⟩ := hstep
    rw [Reader.step_bind_eq_ok] at hstep
    obtain ⟨l, _, hl, hstep⟩ := hstep
    rw [Reader.step_pure] at hstep
    simp only [Prod.mk.injEq, Except.ok.injEq] at hstep
    obtain ⟨⟨-, rfl⟩, -⟩ := hstep
    exact length_of_childrenReader hl

/-! ### Writing a block -/

/-- The slots of a block in a heap without filters: the addresses of its children, and the undefined
address in every slot after them. -/
def encodeSlots (h : Header) (rows : Nat) (children : List Nat) : List UInt8 :=
  let unused := List.replicate (slots h rows - children.length) h.superblock.undefinedAddress
  (children ++ unused).flatMap (Bytes.LittleEndian.encode h.superblock.offsetWidth)

/-- The record of an indirect block in a heap without filters. -/
def encode (h : Header) (b : IndirectBlock) : List UInt8 :=
  BlockHeading.encode h .indirect b.offset ++ encodeSlots h b.rows b.children

end IndirectBlock

end DoublingHeap
