import DoublingHeap.Proofs.Safety
import DoublingHeap.Proofs.Search

/-! # Slices of a block

A block holds the heap offsets from its own on, as many as it has bytes. Its own offset is a word
that comes from the file, so its end may be none. What lies in a block is a matter of exact numbers
all the same (`DirectBlock.contains_iff`, `DirectBlock.slice_eq_some_iff`), and a machine of 64 bits
finds the same, since it compares what is left of an offset after that of the block.

Slices compose: two that meet are one (`slice_add_eq_some_iff`), and the longest is the whole block
(`slice_all`). `slicing_is_exact` puts this together for blocks that have been read. -/

namespace DoublingHeap.Proofs.Slices

open DoublingHeap.Proofs.Blocks DoublingHeap.Proofs.Descent DoublingHeap.Proofs.Safety
open DoublingHeap.Proofs.Search

attribute [local instance (high)] instPowNat

variable {image : Image} {h : Header} {address size : Nat} {t : Level} {b : DirectBlock}
  {offset m n : Nat} {bytes : List UInt8}

theorem length_of_slice (h : b.slice offset m = some bytes) : bytes.length = m := by
  obtain ⟨hin, hend, rfl⟩ := DirectBlock.slice_eq_some_iff.mp h
  have hle := (DirectBlock.contains_iff.mp hin).1
  have hlength : b.data.toList.length = b.size := b.data.length_toList
  rw [List.length_take, List.length_drop, hlength]
  omega

/-- **Slices compose**, as long as the second is not empty: an empty one may not start at the end
of the block. -/
theorem slice_add_eq_some_iff (hn : 1 ≤ n) :
    b.slice offset (m + n) = some bytes ↔
      ∃ xs ys, b.slice offset m = some xs ∧ b.slice (offset + m) n = some ys ∧
        bytes = xs ++ ys := by
  simp only [DirectBlock.slice_eq_some_iff, DirectBlock.contains_iff]
  constructor
  · rintro ⟨⟨hle, hlt⟩, hend, rfl⟩
    have hsecond : offset + m - b.offset = (offset - b.offset) + m := by omega
    refine ⟨_, _, ⟨⟨hle, hlt⟩, by omega, rfl⟩, ⟨⟨by omega, by omega⟩, by omega, rfl⟩, ?_⟩
    rw [hsecond, ← List.drop_drop, List.take_add]
  · rintro ⟨_, _, ⟨⟨hle, hlt⟩, -, rfl⟩, ⟨-, hend, rfl⟩, rfl⟩
    have hsecond : offset + m - b.offset = (offset - b.offset) + m := by omega
    refine ⟨⟨hle, hlt⟩, by omega, ?_⟩
    rw [hsecond, ← List.drop_drop, List.take_add]

theorem slice_all (hpos : 0 < b.size) : b.slice b.offset b.size = some b.data.toList := by
  refine DirectBlock.slice_eq_some_iff.mpr
    ⟨DirectBlock.contains_iff.mpr ⟨Nat.le_refl _, by omega⟩, Nat.le_refl _, ?_⟩
  have hlength : b.data.toList.length = b.size := b.data.length_toList
  rw [Nat.sub_self, List.drop_zero, ← hlength, List.take_length]

/-- **Slicing is exact** in every block that has been read, wherever its end is. The offsets in the
block are those from its own on, as many as it has bytes; the slices of it are those that start in
it and end no later than it. A machine of 64 bits finds the same and does not trap. -/
theorem slicing_is_exact (hsize : image.size < 2 ^ 64)
    (hread : (DirectBlock.read image h address size).result t = .ok b) :
    b.offset < 2 ^ 64 ∧ b.slice b.offset b.size = some b.data.toList ∧
    ∀ offset m,
      (b.contains offset = true ↔ b.offset ≤ offset ∧ offset < b.offset + b.size) ∧
      ((∃ bytes, b.slice offset m = some bytes) ↔
        b.contains offset = true ∧ offset + m ≤ b.offset + b.size) ∧
      (∀ bytes, b.slice offset m = some bytes →
        bytes = (b.data.toList.drop (offset - b.offset)).take m ∧ bytes.length = m) ∧
      (∀ n bytes, 1 ≤ n → (b.slice offset (m + n) = some bytes ↔
        ∃ xs ys, b.slice offset m = some xs ∧ b.slice (offset + m) n = some ys ∧
          bytes = xs ++ ys)) ∧
      contains? b offset = some (b.contains offset) ∧
      objectIn? b offset m = some (b.slice offset m) := by
  have hpos := size_pos_of_readDirect hread
  obtain ⟨-, he, -, within, heq⟩ := readDirect_iff.mp hread
  have hb : b.size < 2 ^ 64 := by
    have hlength : b.size = size := congrArg DirectBlock.size heq
    omega
  have hoffset : b.offset < 2 ^ 64 :=
    Nat.lt_of_lt_of_le he.offset (Nat.pow_le_pow_right (by decide) he.width.2)
  refine ⟨hoffset, slice_all hpos, fun offset m => ⟨DirectBlock.contains_iff, ?_, ?_, ?_, ?_, ?_⟩⟩
  · exact exists_slice_iff.trans inside_iff
  · intro bytes hslice
    obtain ⟨-, -, hbytes⟩ := DirectBlock.slice_eq_some_iff.mp hslice
    exact ⟨hbytes, length_of_slice hslice⟩
  · exact fun n bytes hn => slice_add_eq_some_iff hn
  · exact contains?_eq b offset
  · exact objectIn?_eq hb offset m

/-- The header of a heap with offsets of eight bytes. -/
def eightByteOffsets : Header := { smallHeader 0 0 with offsetBytes := 8 }

/-- A block that starts eight bytes below the end of what words can count, and has sixteen. -/
def lastBlock : Image :=
  .ofList (DirectBlock.encode eightByteOffsets (2 ^ 64 - 8) [] [1, 2])

/-- The block as it is read. -/
def atLast : DirectBlock := ⟨0, 2 ^ 64 - 8, 14, ⟨lastBlock, 0, 16, by decide +kernel⟩⟩

/-- The end of the block is no word. It has the last offset that is a word, and a slice of it goes
on from there, but not past its own end. -/
theorem lastBlock_sliced :
    lastBlock.size < 2 ^ 64 ∧
      (DirectBlock.read lastBlock eightByteOffsets 0 16).result .trace = .ok atLast ∧
      ¬ atLast.offset + atLast.size < 2 ^ 64 ∧
      contains? atLast (2 ^ 64 - 1) = some true ∧ contains? atLast 0 = some false ∧
      objectIn? atLast (2 ^ 64 - 1) 9 = some (some [255, 255, 255, 255, 255, 255, 255, 1, 2]) ∧
      objectIn? atLast (2 ^ 64 - 1) 10 = some none := by
  have hsize : lastBlock.size < 2 ^ 64 := by decide +kernel
  have hread : (DirectBlock.read lastBlock eightByteOffsets 0 16).result .trace = .ok atLast :=
    readDirect_iff.mpr ⟨by decide, ⟨by decide, by decide, by decide⟩, by decide +kernel, _, rfl⟩
  obtain ⟨-, -, hexact⟩ := slicing_is_exact hsize hread
  obtain ⟨hlast, -, -, -, hcontains, hnine⟩ := hexact (2 ^ 64 - 1) 9
  obtain ⟨hfirst, -, -, -, hzero, -⟩ := hexact 0 0
  obtain ⟨-, hten, -, -, -, hnone⟩ := hexact (2 ^ 64 - 1) 10
  refine ⟨hsize, hread, by decide, ?_, ?_, ?_, ?_⟩
  · rw [hcontains, hlast.mpr (by decide)]
  · have hout : atLast.contains 0 = false := Bool.eq_false_iff.mpr (mt hfirst.mp (by decide))
    rw [hzero, hout]
  · rw [hnine]
    decide +kernel
  · have hout : atLast.slice (2 ^ 64 - 1) 10 = none :=
      Option.eq_none_iff_forall_ne_some.mpr fun bytes h => absurd (hten.mp ⟨bytes, h⟩).2 (by decide)
    rw [hnone, hout]

end DoublingHeap.Proofs.Slices
