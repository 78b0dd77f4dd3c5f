import DoublingHeap.Bytes.LittleEndian
import DoublingHeap.Bytes.Hex
import DoublingHeap.Bytes.Utf8
import DoublingHeap.Image
import DoublingHeap.DoublingTable

/-! # Errors of reading a heap

A `HeapError` says what is wrong, and at which file address. Its cause is data: `ReferenceFault`,
`IdentifierFault` and `StructureFault` list what can be wrong with a stored reference, an identifier
and a structure. A failure to load a heap is wrapped in `opening`, which adds the address of the
heap; `kind` and `address` look through it. `message` is the text of an error by itself, and
`sources` lists the texts of the errors below it. -/

namespace DoublingHeap

/-- The versioned structures. -/
inductive Structure where
  | heap
  | directBlock
  | indirectBlock
  | identifier
deriving DecidableEq, Repr

/-- The name of a structure. -/
def Structure.name : Structure → String
  | .heap => "fractal heap"
  | .directBlock => "direct block"
  | .indirectBlock => "indirect block"
  | .identifier => "heap identifier"

/-- What a heap may use and this library does not read. -/
inductive Feature where
  | filters
  | hugeObjects
  | tinyObjects
deriving DecidableEq, Repr

/-- The name of a feature. -/
def Feature.name : Feature → String
  | .filters => "I/O filters"
  | .hugeObjects => "huge objects"
  | .tinyObjects => "tiny objects"

/-- The two widths of a superblock. -/
inductive WidthName where
  | offsets
  | lengths
deriving DecidableEq, Repr

/-- The name of a width. -/
def WidthName.name : WidthName → String
  | .offsets => "size of offsets"
  | .lengths => "size of lengths"

/-- Why a stored reference leads nowhere. -/
inductive ReferenceFault where
  /-- A block names another heap as its owner. -/
  | foreignBlock (block : Structure) (owner heap : Nat)
  /-- No block starts at or below the heap offset. -/
  | uncovered (offset : Nat)
  /-- The object is not inside the block that should hold it. -/
  | outsideBlock (offset length blockSize blockOffset : Nat)
deriving DecidableEq, Repr

/-- The text of a reference fault. -/
def ReferenceFault.message : ReferenceFault → String
  | .foreignBlock block owner heap => s!"{block.name} belongs to heap at {owner} instead of {heap}"
  | .uncovered offset => s!"no direct block covers heap offset {offset}"
  | .outsideBlock offset length blockSize blockOffset =>
    s!"object at heap offset {offset} of {length} bytes is outside the {blockSize} byte block " ++
      s!"at offset {blockOffset}"

/-- Why a byte string is no identifier of a heap. -/
inductive IdentifierFault where
  | wrongLength (expected actual : Nat)
  | empty
  /-- There is no room for offset and length. -/
  | tooShort (length offsetBytes lengthBytes : Nat)
  /-- The addressing mode has no meaning. -/
  | unassignedMode
deriving DecidableEq, Repr

/-- The text of an identifier fault. -/
def IdentifierFault.message : IdentifierFault → String
  | .wrongLength expected actual => s!"identifiers are {expected} bytes but got {actual} bytes"
  | .empty => "empty identifier"
  | .tooShort length offsetBytes lengthBytes =>
    s!"{length} byte identifier cannot hold a {offsetBytes} byte offset and " ++
      s!"{lengthBytes} byte length"
  | .unassignedMode => "addressing mode 3 is not assigned"

/-- Why a structure cannot be read. -/
inductive StructureFault where
  /-- A width of the superblock is not between one and eight bytes. -/
  | superblockWidth (which : WidthName) (width : Nat)
  | tableParameter (error : TableError)
  /-- The heap has no address space. -/
  | noAddressSpace
  /-- A record ends before the field that is read. -/
  | truncated (needed position remaining : Nat)
  | integerWidth (width : Nat)
  /-- A direct block is smaller than its own header. -/
  | blockBelowHeader (size headerLength : Nat)
  /-- An indirect block has more rows than address space. -/
  | tooManyRows (rows maxRows : Nat)
  /-- Two direct blocks start at one heap offset. -/
  | offsetTaken (offset holder : Nat)
  /-- A slot is too small for an indirect block. -/
  | rowTooSmall (row : Nat)
deriving DecidableEq, Repr

/-- The text of a structure fault. -/
def StructureFault.message : StructureFault → String
  | .superblockWidth which width => s!"{which.name} must be 1..=8 bytes, got {width}"
  | .tableParameter error => error.message
  | .noAddressSpace => "maximum heap size of zero bits"
  | .truncated needed position remaining =>
    s!"record truncated: needed {needed} bytes at position {position}, {remaining} left"
  | .integerWidth width => s!"unsupported integer width {width}"
  | .blockBelowHeader size headerLength =>
    s!"direct block size {size} cannot hold its {headerLength} byte header"
  | .tooManyRows rows maxRows =>
    s!"{rows} rows exceed the {maxRows} rows the heap address space allows"
  | .offsetTaken offset holder =>
    s!"direct block offset {offset} already used by block at {holder}"
  | .rowTooSmall row => s!"row {row} cannot hold an indirect block"

/-- What went wrong while reading a heap, and where. -/
inductive HeapError where
  | signature (address : Nat) (expected found : List UInt8)
  | version (address : Nat) (subject : Structure) (version : Nat)
  | feature (address : Nat) (feature : Feature)
  | reference (address : Nat) (fault : ReferenceFault)
  | identifier (address : Nat) (fault : IdentifierFault)
  | malformed (address : Nat) (fault : StructureFault)
  | input (address length : Nat) (source : OutOfRange)
  /-- The heap at `address` could not be loaded. -/
  | opening (address : Nat) (source : HeapError)
deriving DecidableEq, Repr

/-- The kinds of heap error. -/
inductive ErrorKind where
  | signatureMismatch
  | unsupportedVersion
  | unsupportedFeature
  | corruptReference
  | malformedIdentifier
  | malformed
  | input
deriving DecidableEq, Repr

namespace HeapError

/-- The kind of an error; the failure to load a heap has the kind of its source. -/
def kind : HeapError → ErrorKind
  | signature .. => .signatureMismatch
  | version .. => .unsupportedVersion
  | feature .. => .unsupportedFeature
  | reference .. => .corruptReference
  | identifier .. => .malformedIdentifier
  | malformed .. => .malformed
  | input .. => .input
  | opening _ source => source.kind

/-- The address of the structure at fault; the failure to load a heap has that of its source. -/
def address : HeapError → Nat
  | signature a .. | version a .. | feature a .. | reference a .. | identifier a ..
  | malformed a .. | input a .. => a
  | opening _ source => source.address

/-- The text of an error, without that of its source. -/
def message : HeapError → String
  | signature a expected found =>
    let bytes := ", ".intercalate (found.map fun b => String.ofList (Bytes.Hex.ofByte b))
    s!"signature '" ++ String.ofList (Bytes.Utf8.decodeLossy expected)
      ++ s!"' not matched at address {a} (found [{bytes}])"
  | version a subject v => s!"unsupported {subject.name} version {v} at address {a}"
  | feature a f => s!"{f.name} not supported (heap at address {a})"
  | reference a fault => s!"corrupt reference at address {a}: {fault.message}"
  | identifier a fault => s!"malformed heap identifier for heap at address {a}: {fault.message}"
  | malformed a fault => s!"malformed structure at address {a}: {fault.message}"
  | input a length source => s!"I/O error reading {length} bytes at address {a}: {source.message}"
  | opening a _ => s!"error reading fractal heap at address {a}"

/-- The texts of the errors that led to this one, outermost first. -/
def sources : HeapError → List String
  | input _ _ source => [source.message]
  | opening _ source => source.message :: source.sources
  | _ => []

end HeapError

namespace Image

/-- A copied range of the image, as part of reading a heap. -/
def readRecord (image : Image) (address length : Nat) : Except HeapError (List UInt8) :=
  (image.record address length).mapError (.input address length)

/-- A range of the image in view, as part of reading a heap. -/
def viewRegion (image : Image) (address length : Nat) : Except HeapError Region :=
  (image.region address length).mapError (.input address length)

end Image

end DoublingHeap
