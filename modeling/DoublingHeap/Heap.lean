import DoublingHeap.Identifier
import DoublingHeap.Walk

/-! # Heaps

Loading a heap (`Heap.load`) reads its header and walks all its blocks once; any failure becomes an
`opening` error that names the heap. A loaded heap answers which bytes an identifier names
(`Heap.resolve`) without reading the file again. -/

namespace DoublingHeap

/-- How identifiers are resolved, where the file does not say. -/
structure Heap.Options where
  /-- Read short identifiers of the unassigned addressing mode as the bytes they carry. -/
  legacyInlineIds : Bool := false
deriving DecidableEq, Repr, Inhabited

/-- A loaded heap. -/
structure Heap where
  header : Header
  options : Heap.Options
  index : BlockIndex

namespace Heap

/-- Identifiers that carry their bytes are shorter than this. -/
def inlineLimit : Nat := 19

/-- The heap whose header is at an address. -/
def load (image : Image) (s : Superblock) (address : Nat) (options : Options) : Logged Heap := do
  let header ← (Header.read image s address).mapError (.opening address)
  let index ← (Walk.directBlocks image header).mapError (.opening address)
  Logged.emit (.heapLoaded address index.size)
  return ⟨header, options, index⟩

/-- The file address of the heap's header. -/
def address (heap : Heap) : Nat := heap.header.address

/-- The direct blocks in the order of their heap offsets. -/
def blocks (heap : Heap) : List DirectBlock := heap.index.blocks

/-- The last block that starts at or below a heap offset. -/
def floorBlock? (heap : Heap) (offset : Nat) : Option DirectBlock := heap.index.floor? offset

/-- The shape of the heap's identifiers. -/
def layout (heap : Heap) : Identifier.Layout :=
  ⟨heap.header.fields.idLength, heap.header.offsetBytes, heap.header.lengthBytes⟩

/-- The bytes of a managed object: all of them lie in the last block that starts at or below its
offset. -/
def managedObject (heap : Heap) (offset length : Nat) : Except HeapError (List UInt8) :=
  match heap.floorBlock? offset with
  | none => .error (.reference heap.address (.uncovered offset))
  | some block =>
    match block.slice offset length with
    | none => .error (.reference heap.address (.outsideBlock offset length block.size block.offset))
    | some bytes => .ok bytes

/-- The bytes that an identifier names. -/
def resolve (heap : Heap) (id : List UInt8) : Logged (List UInt8) := do
  match ← Identifier.parse id heap.layout heap.address with
  | .managed offset length =>
    Logged.emit (.lookup offset length)
    heap.managedObject offset length
  | .huge => .fail (.feature heap.address .hugeObjects)
  | .tiny => .fail (.feature heap.address .tinyObjects)
  | .reserved payload =>
    if heap.options.legacyInlineIds ∧ id.length < inlineLimit then return payload
    else .fail (.identifier heap.address .unassignedMode)

/-- The heap in one line: its address and its counts. -/
def describe (heap : Heap) : String :=
  let f := heap.header.fields
  s!"FractalHeap [address={heap.address}, idLength={f.idLength}, tinyObjects={f.tinyObjects}, " ++
    s!"hugeObjects={f.hugeObjects}, managedObjects={f.managedObjects}, " ++
    s!"directBlocks={heap.index.size}]"

end Heap

end DoublingHeap
