import DoublingHeap.Proofs.TableWords

/-! # Reading blocks does not trap

What reads the header and the blocks of a heap, from the geometry of the table and the lengths of
records on, is written once more for a machine that may trap, with the sums, products, differences,
quotients and slices that the machine has to form. What the machine *gives* is what the library
gives (`Gives`), so it does not trap, whatever the image is: `readHeader?_gives`,
`readDirect?_gives` and `readIndirect?_gives`.

The bounds are few. Widths are at most eight, and a table has at most 65 rows of no more than
`2 ^ 15` slots, so no record is as long as `2 ^ 32` bytes (`recordLength_lt`). A range of an image
is compared with the size of the image only if its end is a word. -/

namespace DoublingHeap.Proofs.Traps

open DoublingHeap.Walk DoublingHeap.Bytes DoublingHeap.Bytes.LittleEndian
open DoublingHeap.Proofs.Reading DoublingHeap.Proofs.Blocks DoublingHeap.Proofs.Headers
open DoublingHeap.Proofs.Children DoublingHeap.Proofs.Machine DoublingHeap.Proofs.TableWords

attribute [local instance (high)] instPowNat

variable {image : Image} {s : Superblock} {h : Header} {address : Nat} {t : Level} {α : Type}

/-! ### Bytes -/

/-- The bits of a byte; they have to be bits of it. -/
def field? (byte : UInt8) (start length : Nat) : Option Nat :=
  if start + length ≤ 8 then some (Bits.field byte start length) else none

/-- The number of zeros in front of a word. -/
def leadingZeros (n : Nat) : Nat := 64 - if n = 0 then 0 else n.log2 + 1

/-- The least number of bytes, at least one, that hold a word. -/
def bytesNeeded? (n : Nat) : Option Nat := do
  let significant ← sub? 64 (leadingZeros n)
  let bytes ← divCeil? significant 8
  return max bytes 1

theorem bytesNeeded?_eq {n : Nat} (hn : n < 2 ^ 64) : bytesNeeded? n = some (bytesNeeded n) := by
  have hlog : n.log2 < 64 := by
    by_cases hzero : n = 0
    · rw [hzero]
      decide
    · exact (Nat.log2_lt hzero).mpr hn
  unfold bytesNeeded? leadingZeros
  rw [sub?_eq_some (by omega)]
  simp only [Option.bind_eq_bind, Option.bind_some]
  rw [divCeil?_eight (by omega)]
  simp only [Option.bind_some, Option.pure_def, Option.some.injEq]
  unfold bytesNeeded
  split
  · rename_i hzero
    rw [hzero]
    decide
  · omega

/-! ### Ranges of an image -/

/-- The first address of a range and the first after it, if the range lies in the image. -/
def bounds (image : Image) (address length : Nat) : Except HeapError (Nat × Nat) :=
  match add? address length with
  | some stop =>
    if stop ≤ image.size then .ok (address, stop)
    else .error (.input address length ⟨address, length, image.size⟩)
  | none => .error (.input address length ⟨address, length, image.size⟩)

/-- The view of the bytes between two addresses, if there is one. -/
def view? (image : Image) (start stop : Nat) : Option Image.Region :=
  if h : start ≤ stop ∧ stop ≤ image.size then some ⟨image, start, stop - start, by omega⟩ else none

/-- The bytes in a buffer of `n` bytes that they were copied to; they have to be so many. -/
def copy? (n : Nat) (bytes : List UInt8) : Option (List UInt8) :=
  if bytes.length = n then some bytes else none

/-- A copied range of the image, in a buffer of its own. -/
def readRecord? (image : Image) (address length : Nat) : Checked (List UInt8) := do
  let _ ← allocate? length
  let (start, stop) ← settled (bounds image address length)
  let bytes ← slice? image.toList start stop
  copy? length bytes

/-- A range of the image in view. -/
def viewRegion? (image : Image) (address length : Nat) : Checked Image.Region := do
  let (start, stop) ← settled (bounds image address length)
  view? image start stop

theorem slice?_range {length : Nat} (hle : address + length ≤ image.size) :
    slice? image.toList address (address + length)
      = some ((image.toList.drop address).take length) := by
  have hstop : address + length ≤ image.toList.length := hle
  rw [slice?_eq_some (Nat.le_add_right ..) hstop, List.drop_take, Nat.add_sub_cancel_left]

theorem view?_range {length : Nat} (hle : address + length ≤ image.size) :
    view? image address (address + length) = some ⟨image, address, length, hle⟩ := by
  unfold view?
  rw [dif_pos ⟨Nat.le_add_right .., hle⟩]
  simp only [Nat.add_sub_cancel_left]

section Ranges

variable (hsize : image.size < 2 ^ 64)
include hsize

theorem bounds_eq (address length : Nat) :
    bounds image address length =
      if address + length ≤ image.size then .ok (address, address + length)
      else .error (.input address length ⟨address, length, image.size⟩) := by
  unfold bounds add?
  by_cases hword : address + length < 2 ^ 64
  · rw [if_pos hword]
  · rw [if_neg hword, if_neg (by omega)]

theorem readRecord?_gives (address : Nat) {length : Nat} (hlength : length < 2 ^ 63) :
    Gives (readRecord? image address length) (image.readRecord address length) := by
  unfold readRecord?
  refine gives_lift_bind (allocate?_eq_some hlength) ?_
  rw [bounds_eq hsize]
  unfold Image.readRecord Image.record
  split
  · rename_i hle
    rw [Image.toList_extract]
    exact gives_lift_bind (slice?_range hle)
      (congrArg (Option.map Except.ok) (if_pos (length_range hle)))
  · rfl

theorem viewRegion?_gives (address length : Nat) :
    Gives (viewRegion? image address length) (image.viewRegion address length) := by
  unfold viewRegion?
  rw [bounds_eq hsize]
  unfold Image.viewRegion Image.region
  split
  · rename_i hle
    show Gives (liftM (view? image address (address + length))) _
    rw [view?_range hle]
    rfl
  · rfl

end Ranges

/-- What a step reads from the start of a record. -/
def scan (m : Scan α) (address : Nat) (record : List UInt8) : Checked α :=
  ExceptT.mk (m.read address record)

theorem gives_scan {m : Scan α} {r : Reader α} (hm : Runs m r) {length : Nat}
    {record : List UInt8} (hrec : image.readRecord address length = .ok record)
    (hlength : length < 2 ^ 63) : Gives (scan m address record) (r.read address record) := by
  refine hm.read ?_
  rw [(readRecord_eq_ok_iff.mp hrec).2]
  omega

/-! ### The header -/

/-- The length of a header record. -/
def encodedLength? (s : Superblock) : Option Nat := do
  let lengths ← mul? 12 s.lengthWidth
  let offsets ← mul? 3 s.offsetWidth
  sum? [4, 1, 2, 2, 1, 4, lengths, offsets, 2, 2, 2, 2]

/-- Scans a header record from its signature on. -/
def fieldsScan (s : Superblock) : Scan Header.Fields := do
  Scan.signature Header.signature
  Scan.version .heap
  let idLength ← .fixed 2
  let filtersLength ← .fixed 2
  let flags ← .byte
  let maxManagedSize ← .fixed 4
  let nextHugeId ← .uint s.lengthWidth
  let hugeTreeAddress ← .uint s.offsetWidth
  let freeSpace ← .uint s.lengthWidth
  let freeSpaceManagerAddress ← .uint s.offsetWidth
  let managedSpace ← .uint s.lengthWidth
  let allocatedSpace ← .uint s.lengthWidth
  let allocationOffset ← .uint s.lengthWidth
  let managedObjects ← .uint s.lengthWidth
  let hugeObjectSize ← .uint s.lengthWidth
  let hugeObjects ← .uint s.lengthWidth
  let tinyObjectSize ← .uint s.lengthWidth
  let tinyObjects ← .uint s.lengthWidth
  let tableWidth ← .fixed 2
  let startingBlockSize ← .uint s.lengthWidth
  let maxDirectBlockSize ← .uint s.lengthWidth
  let maxHeapBits ← .fixed 2
  let startingRows ← .fixed 2
  let rootAddress ← .uint s.offsetWidth
  let rootRows ← .fixed 2
  return { idLength, filtersLength, flags, maxManagedSize, nextHugeId, hugeTreeAddress, freeSpace,
           freeSpaceManagerAddress, managedSpace, allocatedSpace, allocationOffset, managedObjects,
           hugeObjectSize, hugeObjects, tinyObjectSize, tinyObjects, tableWidth, startingBlockSize,
           maxDirectBlockSize, maxHeapBits, startingRows, rootAddress, rootRows }

/-- The header with the given fields. -/
def ofFields? (s : Superblock) (address : Nat) (f : Header.Fields) : Checked Header := do
  if f.filtersLength > 0 then throw (.feature address .filters)
  let table ← settled ((DoublingTable.ofParameters f.tableWidth f.startingBlockSize
    f.maxDirectBlockSize f.maxHeapBits).mapError fun e => .malformed address (.tableParameter e))
  let offsetBytes ← divCeil? f.maxHeapBits 8
  if offsetBytes = 0 then throw (.malformed address .noAddressSpace)
  let lengthBytes ← bytesNeeded? (min f.maxDirectBlockSize f.maxManagedSize)
  return ⟨address, s, f, table, offsetBytes, lengthBytes⟩

/-- The header at an address of the image. -/
def readHeader? (image : Image) (s : Superblock) (address : Nat) : Checked Header := do
  let length ← encodedLength? s
  let record ← readRecord? image address length
  let fields ← scan (fieldsScan s) address record
  ofFields? s address fields

theorem encodedLength_lt (s : Superblock) : Header.encodedLength s < 2 ^ 63 := by
  have hoffset := s.offsetWidth_le
  have hlength := s.lengthWidth_le
  unfold Header.encodedLength
  omega

theorem encodedLength?_eq (s : Superblock) : encodedLength? s = some (Header.encodedLength s) := by
  have hoffset := s.offsetWidth_le
  have hlength := s.lengthWidth_le
  unfold encodedLength?
  rw [mul?_eq_some (by omega), mul?_eq_some (by omega)]
  refine sum?_eq_some ?_ (Nat.lt_trans (encodedLength_lt s) (by decide))
  unfold Header.encodedLength
  simp only [List.sum_cons, List.sum_nil]
  omega

theorem runs_fields (s : Superblock) : Runs (fieldsScan s) (Header.Fields.reader s) := by
  have two : Runs (Scan.fixed 2) (Reader.fixed 2) := runs_fixed (by decide)
  have four : Runs (Scan.fixed 4) (Reader.fixed 4) := runs_fixed (by decide)
  have offset := runs_uint s.offsetWidth
  have length := runs_uint s.lengthWidth
  unfold fieldsScan Header.Fields.reader
  -- one step for each field, in stored order
  exact (runs_signature _).bind fun _ _ _ _ => (runs_version _).bind fun _ _ _ _ =>
    two.bind fun _ _ _ _ => two.bind fun _ _ _ _ => runs_byte.bind fun _ _ _ _ =>
    four.bind fun _ _ _ _ => length.bind fun _ _ _ _ => offset.bind fun _ _ _ _ =>
    length.bind fun _ _ _ _ => offset.bind fun _ _ _ _ => length.bind fun _ _ _ _ =>
    length.bind fun _ _ _ _ => length.bind fun _ _ _ _ => length.bind fun _ _ _ _ =>
    length.bind fun _ _ _ _ => length.bind fun _ _ _ _ => length.bind fun _ _ _ _ =>
    length.bind fun _ _ _ _ => two.bind fun _ _ _ _ => length.bind fun _ _ _ _ =>
    length.bind fun _ _ _ _ => two.bind fun _ _ _ _ => two.bind fun _ _ _ _ =>
    offset.bind fun _ _ _ _ => two.bind fun _ _ _ _ => runs_pure _

theorem ofFields?_gives {f : Header.Fields} (hf : Fits s f) :
    Gives (ofFields? s address f) (Header.ofFields s address f) := by
  have hbits : f.maxHeapBits < 256 ^ 2 := hf (2, f.maxHeapBits) (by simp [Header.Fields.layout])
  have hmanaged := hf.maxManagedSize
  have hobject : min f.maxDirectBlockSize f.maxManagedSize < 2 ^ 64 := by omega
  unfold ofFields? Header.ofFields
  split
  · exact gives_throw _
  refine (gives_settled _).bind fun table _ => ?_
  refine gives_lift_bind (divCeil?_eight (by omega)) ?_
  show Gives (if f.offsetBytes = 0 then _ else _) _
  split
  · exact gives_throw _
  · exact gives_lift_bind (bytesNeeded?_eq hobject) (gives_pure _)

theorem readHeader?_gives (hsize : image.size < 2 ^ 64) :
    Gives (readHeader? image s address) ((Header.read image s address).result t) := by
  unfold readHeader? Header.read
  refine gives_lift_bind (encodedLength?_eq s) ?_
  have hlength := encodedLength_lt s
  refine Gives.bindLogged (readRecord?_gives hsize address hlength) fun record hrec => ?_
  refine Gives.bindLogged (gives_scan (runs_fields s) hrec hlength) fun fields hread => ?_
  obtain ⟨_, hstep⟩ := read_eq_ok_iff.mp hread
  have hof : Gives _ (Header.ofFields s address fields) :=
    ofFields?_gives (step_fields_iff.mp hstep).1
  rw [Logged.result_bind]
  show Gives _ ((Header.ofFields s address fields).bind _)
  cases hheader : Header.ofFields s address fields <;> rw [hheader] at hof <;> exact hof

/-! ### Blocks -/

/-- Whether direct blocks carry a checksum after their header fields. -/
def checksummed? (h : Header) : Option Bool := return (← field? h.fields.flags 1 1) == 1

/-- The length of a direct block's header. -/
def headerLengthOf? (h : Header) : Option Nat := do
  let checksum := if ← checksummed? h then 4 else 0
  sum? [4, 1, h.superblock.offsetWidth, h.offsetBytes, checksum]

/-- Scans a heading and gives the heap offset of the block. -/
def headingScan (h : Header) (kind : BlockKind) : Scan Nat := do
  Scan.signature kind.signature
  Scan.version kind.subject
  let owner ← .uint h.superblock.offsetWidth
  if owner ≠ h.address then
    .refuse fun address => .reference address (.foreignBlock kind.subject owner h.address)
  .uint h.offsetBytes

/-- Scans the header of a direct block and gives its heap offset. -/
def directScan (h : Header) : Scan Nat := do
  let offset ← headingScan h .direct
  if ← Scan.checked (checksummed? h) then .skip 4
  return offset

/-- The direct block of `size` bytes at an address. -/
def readDirect? (image : Image) (h : Header) (address size : Nat) : Checked DirectBlock := do
  let headerLength ← headerLengthOf? h
  if size < headerLength then
    throw (.malformed address (.blockBelowHeader size headerLength))
  else
    let record ← readRecord? image address headerLength
    let offset ← scan (directScan h) address record
    let data ← viewRegion? image address size
    return ⟨address, offset, headerLength, data⟩

/-- The address that stands for "nothing there". -/
def undefinedAddress? (s : Superblock) : Option Nat :=
  if 8 ≤ s.offsetWidth then some (2 ^ 64 - 1) else do
    let bits ← mul? 8 s.offsetWidth
    let bound ← shift? bits
    sub? bound 1

/-- The length of a slot of an indirect block. -/
def entryLength? (h : Header) : Option Nat :=
  if h.hasFilters then do
    let filtered ← add? h.superblock.lengthWidth 4
    add? h.superblock.offsetWidth filtered
  else some h.superblock.offsetWidth

/-- Scans the child in a slot of so many bytes. -/
def slotScan (h : Header) (entryLength : Nat) : Scan (Option Nat) := do
  let child ← .uint h.superblock.offsetWidth
  let undefined ← Scan.checked (undefinedAddress? h.superblock)
  if child = undefined then return none
  if h.hasFilters then
    let filtered ← Scan.checked (sub? entryLength h.superblock.offsetWidth)
    .skip filtered
  return some child

/-- Scans a block of so many slots and gives its heap offset and its children. -/
def indirectScan (h : Header) (slots entryLength : Nat) : Scan (Nat × List Nat) := do
  let offset ← headingScan h .indirect
  let children ← .collect (slotScan h entryLength) slots []
  return (offset, children)

/-- The indirect block of `rows` rows at an address. -/
def readIndirect? (image : Image) (h : Header) (address rows : Nat) : Checked IndirectBlock := do
  let maxRows ← roomFor? h.table.width h.table.startingSize h.table.maxHeapBits
  if maxRows < rows then
    throw (.malformed address (.tooManyRows rows maxRows))
  let slots ← mul? rows h.table.width
  let entryLength ← entryLength? h
  let headingLength ← sum? [4, 1, h.superblock.offsetWidth, h.offsetBytes]
  let slotsLength ← mul? slots entryLength
  let length ← add? headingLength slotsLength
  let record ← readRecord? image address length
  let (offset, children) ← scan (indirectScan h slots entryLength) address record
  return ⟨address, offset, rows, children⟩

theorem checksummed?_eq (h : Header) : checksummed? h = some h.directBlocksChecksummed := rfl

theorem undefinedAddress?_eq (s : Superblock) :
    undefinedAddress? s = some s.undefinedAddress := by
  have hle := s.offsetWidth_le
  unfold undefinedAddress? Superblock.undefinedAddress
  have hpow : (256 : Nat) ^ s.offsetWidth = 2 ^ (8 * s.offsetWidth) := by
    rw [Nat.pow_mul]
  split
  · rw [hpow, Nat.le_antisymm hle (by assumption)]
  · rw [mul?_eq_some (by omega)]
    simp only [Option.bind_eq_bind, Option.bind_some, shift?]
    rw [if_pos (by omega)]
    simp only [Option.bind_some]
    rw [sub?_eq_some (Nat.two_pow_pos _), hpow]

section Blocks

variable (hw : 1 ≤ h.offsetBytes ∧ h.offsetBytes ≤ maxWidth)
include hw

theorem headerLengthOf_lt : DirectBlock.headerLengthOf h < 2 ^ 63 := by
  have hoffset := h.superblock.offsetWidth_le
  have hbytes := hw.2
  unfold DirectBlock.headerLengthOf BlockHeading.length DirectBlock.checksumLength maxWidth at *
  split <;> omega

theorem headerLengthOf?_eq : headerLengthOf? h = some (DirectBlock.headerLengthOf h) := by
  unfold headerLengthOf?
  rw [checksummed?_eq]
  refine sum?_eq_some ?_ (Nat.lt_trans (headerLengthOf_lt hw) (by decide))
  unfold DirectBlock.headerLengthOf BlockHeading.length DirectBlock.checksumLength
  simp only [List.sum_cons, List.sum_nil]
  omega

end Blocks

theorem runs_heading (h : Header) (kind : BlockKind) :
    Runs (headingScan h kind) (BlockHeading.reader h kind) := by
  unfold headingScan BlockHeading.reader
  refine (runs_signature _).bind fun _ _ _ _ => (runs_version _).bind fun _ _ _ _ =>
    (runs_uint _).bind fun owner _ _ _ => ?_
  split
  · exact (runs_refuse _).bind fun _ _ _ _ => runs_uint _
  · exact runs_uint _

theorem runs_directHeader (h : Header) : Runs (directScan h) (DirectBlock.reader h) := by
  unfold directScan DirectBlock.reader
  refine (runs_heading h .direct).bind fun offset _ _ _ => ?_
  refine runs_checked_bind (checksummed?_eq h) ?_
  split
  · exact (runs_skip 4).bind fun _ _ _ _ => runs_pure _
  · exact runs_pure _

theorem runs_indirect (h : Header) (rows : Nat) :
    Runs (indirectScan h (IndirectBlock.slots h rows) (slotLength h))
      (IndirectBlock.reader h rows) := by
  have slot : Runs (slotScan h (slotLength h)) (IndirectBlock.slotReader h) := by
    unfold slotScan IndirectBlock.slotReader
    refine (runs_uint _).bind fun child _ _ _ => ?_
    refine runs_checked_bind (undefinedAddress?_eq _) ?_
    have hiff : h.superblock.isUndefined child = true ↔ child = h.superblock.undefinedAddress :=
      beq_iff_eq
    simp only [hiff]
    split
    · exact runs_pure _
    split
    · have hfiltered : sub? (slotLength h) h.superblock.offsetWidth
          = some (IndirectBlock.filterEntryLength h) := by
        rw [slotLength, sub?_eq_some (Nat.le_add_right ..), Nat.add_sub_cancel_left]
      refine runs_checked_bind hfiltered ?_
      exact (runs_skip _).bind fun _ _ _ _ => runs_pure _
    · exact runs_pure _
  unfold indirectScan IndirectBlock.reader
  exact (runs_heading h .indirect).bind fun _ _ _ _ =>
    (slot.collect _ _).bind fun _ _ _ _ => runs_pure _

/-- **A direct block** is read without a trap, whatever its size is said to be. -/
theorem readDirect?_gives (hsize : image.size < 2 ^ 64)
    (hw : 1 ≤ h.offsetBytes ∧ h.offsetBytes ≤ maxWidth) (address size : Nat) :
    Gives (readDirect? image h address size)
      ((DirectBlock.read image h address size).result t) := by
  have hlength := headerLengthOf_lt hw
  unfold readDirect? DirectBlock.read
  refine gives_lift_bind (headerLengthOf?_eq hw) ?_
  split
  · exact gives_throw _
  refine Gives.bindLogged (readRecord?_gives hsize address hlength) fun record hrec => ?_
  refine Gives.bindLogged (gives_scan (runs_directHeader h) hrec hlength) fun offset _ => ?_
  exact Gives.bindLogged (viewRegion?_gives hsize address size) fun data _ => gives_pure _

theorem entryLength?_eq (h : Header) : entryLength? h = some (slotLength h) := by
  have hoffset := h.superblock.offsetWidth_le
  have hlength := h.superblock.lengthWidth_le
  unfold entryLength? slotLength IndirectBlock.filterEntryLength
  split
  · rw [add?_eq_some (by omega)]
    exact add?_eq_some (by omega)
  · rfl

theorem maxRows_le (table : DoublingTable) : table.maxRows ≤ 65 := by
  have hheap := table.maxHeapBits_le
  unfold DoublingTable.maxRows
  omega

theorem slots_lt {rows : Nat} (hrows : rows ≤ h.table.maxRows) :
    IndirectBlock.slots h rows < 2 ^ 22 := by
  have hwidth : h.table.width ≤ 2 ^ 15 :=
    Nat.pow_le_pow_right (by decide) (Nat.le_of_lt_succ h.table.widthBits_lt)
  have hmul : rows * h.table.width ≤ 65 * 2 ^ 15 :=
    Nat.mul_le_mul (Nat.le_trans hrows (maxRows_le _)) hwidth
  exact Nat.lt_of_le_of_lt hmul (by decide)

theorem recordLength_lt (hw : 1 ≤ h.offsetBytes ∧ h.offsetBytes ≤ maxWidth) {rows : Nat}
    (hrows : rows ≤ h.table.maxRows) : IndirectBlock.recordLength h rows < 2 ^ 32 := by
  have hoffset := h.superblock.offsetWidth_le
  have hlength := h.superblock.lengthWidth_le
  have hbytes := hw.2
  have hslot : slotLength h ≤ 20 := by
    unfold slotLength IndirectBlock.filterEntryLength
    split <;> omega
  have hmul : IndirectBlock.slots h rows * slotLength h ≤ 2 ^ 22 * 20 :=
    Nat.mul_le_mul (Nat.le_of_lt (slots_lt hrows)) hslot
  have hrecord : IndirectBlock.recordLength h rows
      = BlockHeading.length h + IndirectBlock.slots h rows * slotLength h := rfl
  unfold BlockHeading.length maxWidth at *
  omega

/-- **An indirect block** is read without a trap, whatever its number of rows is said to be. -/
theorem readIndirect?_gives (hsize : image.size < 2 ^ 64)
    (hw : 1 ≤ h.offsetBytes ∧ h.offsetBytes ≤ maxWidth) (address rows : Nat) :
    Gives (readIndirect? image h address rows) (IndirectBlock.read image h address rows) := by
  unfold readIndirect? IndirectBlock.read
  refine gives_lift_bind (roomFor?_eq h.table) ?_
  split
  · exact gives_throw _
  rename_i hrows
  have hslots := slots_lt (Nat.le_of_not_lt hrows)
  have hrecord := recordLength_lt hw (Nat.le_of_not_lt hrows)
  have hlength : BlockHeading.length h + IndirectBlock.slots h rows * slotLength h
      = IndirectBlock.recordLength h rows := rfl
  have hheading : sum? [4, 1, h.superblock.offsetWidth, h.offsetBytes]
      = some (BlockHeading.length h) := by
    refine sum?_eq_some ?_ (by omega)
    unfold BlockHeading.length
    simp only [List.sum_cons, List.sum_nil]
    omega
  refine gives_lift_bind (mul?_eq_some (Nat.lt_trans hslots (by decide))) ?_
  refine gives_lift_bind (entryLength?_eq h) ?_
  refine gives_lift_bind hheading ?_
  have hslotsLength : IndirectBlock.slots h rows * slotLength h < 2 ^ 64 := by omega
  have hsum : BlockHeading.length h + IndirectBlock.slots h rows * slotLength h < 2 ^ 64 := by omega
  refine gives_lift_bind (mul?_eq_some hslotsLength) ?_
  refine gives_lift_bind (add?_eq_some hsum) ?_
  have hbuffer := Nat.lt_trans hrecord (by decide : 2 ^ 32 < 2 ^ 63)
  refine (readRecord?_gives hsize address hbuffer).bind fun record hrec => ?_
  exact (gives_scan (runs_indirect h rows) hrec hbuffer).bind fun _ _ => gives_pure _

end DoublingHeap.Proofs.Traps
