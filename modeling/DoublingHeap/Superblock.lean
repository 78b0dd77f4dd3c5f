import DoublingHeap.HeapError
import DoublingHeap.Json

/-! # Superblock widths

A heap file stores addresses and lengths at widths that its superblock declares. A `Superblock` is
the pair of them, each between one and eight bytes (`ofWidths`). The address whose bytes are all
`0xFF` means "nothing there" (`undefinedAddress`). -/

namespace DoublingHeap

attribute [local instance (high)] instPowNat

/-- The widths, in bytes, of the addresses and lengths in a file. -/
structure Superblock where
  offsetWidth : Nat
  lengthWidth : Nat
  offsetWidth_pos : 1 ≤ offsetWidth
  offsetWidth_le : offsetWidth ≤ 8
  lengthWidth_pos : 1 ≤ lengthWidth
  lengthWidth_le : lengthWidth ≤ 8
deriving DecidableEq, Repr

namespace Superblock

/-- The superblock with the given widths. The width of addresses is tested first. -/
def ofWidths (offsets lengths : Nat) : Except HeapError Superblock :=
  if ho : 1 ≤ offsets ∧ offsets ≤ 8 then
    if hl : 1 ≤ lengths ∧ lengths ≤ 8 then .ok ⟨offsets, lengths, ho.1, ho.2, hl.1, hl.2⟩
    else .error (.malformed 0 (.superblockWidth .lengths lengths))
  else .error (.malformed 0 (.superblockWidth .offsets offsets))

/-- The usual widths: eight bytes each. -/
def default : Superblock := ⟨8, 8, by decide, by decide, by decide, by decide⟩

instance : Inhabited Superblock := ⟨default⟩

/-- The address that stands for "nothing there": all its bytes are `0xFF`. -/
def undefinedAddress (s : Superblock) : Nat := 256 ^ s.offsetWidth - 1

/-- Whether an address stands for "nothing there". -/
def isUndefined (s : Superblock) (address : Nat) : Bool := address == s.undefinedAddress

/-- The widths as a JSON object. -/
def toJson (s : Superblock) : Json :=
  .object [("size_of_offsets", .number s.offsetWidth), ("size_of_lengths", .number s.lengthWidth)]

end Superblock

end DoublingHeap
