import DoublingHeap.Superblock
import DoublingHeap.Record
import DoublingHeap.Log

/-! # The heap header

A heap is described by one record, marked `FRHP`, that holds `Header.Fields`. The widths of its
fields are fixed or come from the superblock, so its length is known before it is read
(`Header.encodedLength`). `Fields.reader` reads the fields and `Fields.encode` writes the record
they were read from. `Header.read` adds what follows from the fields: the `DoublingTable` and the
widths of offsets and lengths in identifiers. -/

namespace DoublingHeap

/-- The fields of a header record after signature and version, in stored order. -/
structure Header.Fields where
  idLength : Nat
  filtersLength : Nat
  flags : UInt8
  maxManagedSize : Nat
  nextHugeId : Nat
  hugeTreeAddress : Nat
  freeSpace : Nat
  freeSpaceManagerAddress : Nat
  managedSpace : Nat
  allocatedSpace : Nat
  allocationOffset : Nat
  managedObjects : Nat
  hugeObjectSize : Nat
  hugeObjects : Nat
  tinyObjectSize : Nat
  tinyObjects : Nat
  tableWidth : Nat
  startingBlockSize : Nat
  maxDirectBlockSize : Nat
  /-- The exponent of the size of heap address space. -/
  maxHeapBits : Nat
  startingRows : Nat
  rootAddress : Nat
  /-- The rows of the root; zero for a root that is a direct block. -/
  rootRows : Nat
deriving DecidableEq, Repr

/-- A heap header: its fields, and what follows from them. -/
structure Header where
  /-- The file address of the header, by which blocks name their heap. -/
  address : Nat
  superblock : Superblock
  fields : Header.Fields
  table : DoublingTable
  /-- The width of heap offsets in blocks and identifiers. -/
  offsetBytes : Nat
  /-- The width of object lengths in identifiers. -/
  lengthBytes : Nat
deriving DecidableEq, Repr

namespace Header

/-- The bytes that mark a header: `FRHP`. -/
def signature : List UInt8 := [0x46, 0x52, 0x48, 0x50]

/-- The one version of the format. -/
def version : Nat := 0

/-- The length of a header record. -/
def encodedLength (s : Superblock) : Nat := 22 + 12 * s.lengthWidth + 3 * s.offsetWidth

/-! ### The record -/

/-- Reads a header record from its signature on. -/
def Fields.reader (s : Superblock) : Reader Fields := do
  Reader.signature Header.signature
  Reader.version .heap
  let idLength ← .fixed 2
  let filtersLength ← .fixed 2
  let flags ← .byte
  let maxManagedSize ← .fixed 4
  let nextHugeId ← .uint s.lengthWidth
  let hugeTreeAddress ← .uint s.offsetWidth
  let freeSpace ← .uint s.lengthWidth
  let freeSpaceManagerAddress ← .uint s.offsetWidth
  let managedSpace ← .uint s.lengthWidth
  let allocatedSpace ← .uint s.lengthWidth
  let allocationOffset ← .uint s.lengthWidth
  let managedObjects ← .uint s.lengthWidth
  let hugeObjectSize ← .uint s.lengthWidth
  let hugeObjects ← .uint s.lengthWidth
  let tinyObjectSize ← .uint s.lengthWidth
  let tinyObjects ← .uint s.lengthWidth
  let tableWidth ← .fixed 2
  let startingBlockSize ← .uint s.lengthWidth
  let maxDirectBlockSize ← .uint s.lengthWidth
  let maxHeapBits ← .fixed 2
  let startingRows ← .fixed 2
  let rootAddress ← .uint s.offsetWidth
  let rootRows ← .fixed 2
  return { idLength, filtersLength, flags, maxManagedSize, nextHugeId, hugeTreeAddress, freeSpace,
           freeSpaceManagerAddress, managedSpace, allocatedSpace, allocationOffset, managedObjects,
           hugeObjectSize, hugeObjects, tinyObjectSize, tinyObjects, tableWidth, startingBlockSize,
           maxDirectBlockSize, maxHeapBits, startingRows, rootAddress, rootRows }

/-- The numbers of a header record after its signature, each with its width. -/
def Fields.layout (s : Superblock) (f : Fields) : List (Nat × Nat) :=
  [(1, version), (2, f.idLength), (2, f.filtersLength), (1, f.flags.toNat), (4, f.maxManagedSize),
   (s.lengthWidth, f.nextHugeId), (s.offsetWidth, f.hugeTreeAddress), (s.lengthWidth, f.freeSpace),
   (s.offsetWidth, f.freeSpaceManagerAddress), (s.lengthWidth, f.managedSpace),
   (s.lengthWidth, f.allocatedSpace), (s.lengthWidth, f.allocationOffset),
   (s.lengthWidth, f.managedObjects), (s.lengthWidth, f.hugeObjectSize),
   (s.lengthWidth, f.hugeObjects), (s.lengthWidth, f.tinyObjectSize),
   (s.lengthWidth, f.tinyObjects),
   (2, f.tableWidth), (s.lengthWidth, f.startingBlockSize), (s.lengthWidth, f.maxDirectBlockSize),
   (2, f.maxHeapBits), (2, f.startingRows), (s.offsetWidth, f.rootAddress), (2, f.rootRows)]

/-- The header record that holds the fields, from its signature on. -/
def Fields.encode (s : Superblock) (f : Fields) : List UInt8 :=
  Header.signature ++ (f.layout s).flatMap fun (width, n) => Bytes.LittleEndian.encode width n

theorem length_encode (s : Superblock) (f : Fields) : (f.encode s).length = encodedLength s := by
  simp only [Fields.encode, Fields.layout, List.flatMap_cons, List.flatMap_nil, List.length_append,
    Bytes.LittleEndian.length_encode, List.length_nil]
  simp only [Header.signature, List.length_cons, List.length_nil, encodedLength]
  omega

/-! ### What follows from the fields -/

/-- The width of heap offsets: enough bytes for heap address space. -/
def Fields.offsetBytes (f : Fields) : Nat := (f.maxHeapBits + 7) / 8

/-- The width of object lengths: enough bytes for the longest object that a direct block holds. -/
def Fields.lengthBytes (f : Fields) : Nat :=
  Bytes.LittleEndian.bytesNeeded (min f.maxDirectBlockSize f.maxManagedSize)

/-- The header with the given fields. Filters are refused first, then table parameters, then a heap
without address space. -/
def ofFields (s : Superblock) (address : Nat) (f : Fields) : Except HeapError Header := do
  if f.filtersLength > 0 then throw (.feature address .filters)
  let table ← (DoublingTable.ofParameters f.tableWidth f.startingBlockSize f.maxDirectBlockSize
    f.maxHeapBits).mapError fun e => .malformed address (.tableParameter e)
  if f.offsetBytes = 0 then throw (.malformed address .noAddressSpace)
  return ⟨address, s, f, table, f.offsetBytes, f.lengthBytes⟩

/-- The header at an address of the image. -/
def read (image : Image) (s : Superblock) (address : Nat) : Logged Header := do
  let record ← image.readRecord address (encodedLength s)
  let fields ← (Fields.reader s).read address record
  let header ← ofFields s address fields
  Logged.emit (.headerRead address fields.idLength fields.tableWidth fields.startingBlockSize
    fields.maxDirectBlockSize)
  return header

/-- The address of the root block; an empty heap has none. -/
def root? (h : Header) : Option Nat :=
  if h.superblock.isUndefined h.fields.rootAddress then none else some h.fields.rootAddress

/-- Whether identifiers of huge objects are reused. -/
def hugeIdsWrapped (h : Header) : Bool := Bytes.Bits.flag h.fields.flags 0

/-- Whether direct blocks carry a checksum after their header fields. -/
def directBlocksChecksummed (h : Header) : Bool := Bytes.Bits.flag h.fields.flags 1

/-- Whether blocks pass through filters. -/
def hasFilters (h : Header) : Bool := h.fields.filtersLength > 0

/-- The fields by name, with the address in front and the derived widths at the end. -/
def listing (h : Header) : List (String × Nat) :=
  let f := h.fields
  [("address", h.address),
   ("version", version),
   ("id_length", f.idLength),
   ("io_filters_length", f.filtersLength),
   ("flags", f.flags.toNat),
   ("max_size_of_managed_objects", f.maxManagedSize),
   ("next_huge_object_id", f.nextHugeId),
   ("huge_object_btree_address", f.hugeTreeAddress),
   ("free_space_in_managed_blocks", f.freeSpace),
   ("free_space_manager_address", f.freeSpaceManagerAddress),
   ("managed_space", f.managedSpace),
   ("allocated_managed_space", f.allocatedSpace),
   ("direct_block_allocation_iterator_offset", f.allocationOffset),
   ("managed_object_count", f.managedObjects),
   ("huge_object_size", f.hugeObjectSize),
   ("huge_object_count", f.hugeObjects),
   ("tiny_object_size", f.tinyObjectSize),
   ("tiny_object_count", f.tinyObjects),
   ("table_width", f.tableWidth),
   ("starting_block_size", f.startingBlockSize),
   ("max_direct_block_size", f.maxDirectBlockSize),
   ("max_heap_size", f.maxHeapBits),
   ("starting_rows_in_root_indirect_block", f.startingRows),
   ("root_block_address", f.rootAddress),
   ("current_rows_in_root_indirect_block", f.rootRows),
   ("bytes_to_store_offset", h.offsetBytes),
   ("bytes_to_store_length", h.lengthBytes)]

end Header

end DoublingHeap
