import DoublingHeap.DoublingTable

/-! # The slots of a table tile address space

The block in a slot starts where the block before it ends, so the offset of a slot is the sum of the
sizes before it (`slotOffset`). In a row offsets grow by the size of that row
(`slotOffset_row_add`), and all rows up to one span as much as the blocks of the next row together
(`slotOffset_rows`). An indirect block has so many rows that they fill its own slot
(`slotOffset_childRows`). -/

namespace DoublingHeap.Proofs.Tiling

attribute [local instance (high)] instPowNat

variable {t : DoublingTable}

/-- The bytes of address space in a slot. -/
def slotSize (t : DoublingTable) (slot : Nat) : Nat := 2 ^ t.rowBits (t.rowOf slot)

/-- The offset of a slot from the start of its block: all slots before it come first. -/
def slotOffset (t : DoublingTable) : Nat → Nat
  | 0 => 0
  | slot + 1 => slotOffset t slot + slotSize t slot

theorem slotOffset_mono {i j : Nat} (hij : i ≤ j) : slotOffset t i ≤ slotOffset t j := by
  induction hij with
  | refl => exact Nat.le_refl _
  | step _ ih => exact Nat.le_trans ih (Nat.le_add_right ..)

theorem rowOf_row_add {row j : Nat} (hj : j < t.width) : t.rowOf (row * t.width + j) = row := by
  unfold DoublingTable.rowOf
  rw [Nat.mul_comm, Nat.mul_add_div t.width_pos, Nat.div_eq_of_lt hj, Nat.add_zero]

/-- **In a row** every slot is as far from the one before as blocks of that row are long. -/
theorem slotOffset_row_add (row : Nat) {j : Nat} (hj : j ≤ t.width) :
    slotOffset t (row * t.width + j) = slotOffset t (row * t.width) + j * 2 ^ t.rowBits row := by
  induction j with
  | zero => rw [Nat.zero_mul, Nat.add_zero, Nat.add_zero]
  | succ j ih =>
    have hsize : slotSize t (row * t.width + j) = 2 ^ t.rowBits row := by
      unfold slotSize
      rw [rowOf_row_add hj]
    rw [← Nat.add_assoc, slotOffset, ih (Nat.le_of_succ_le hj), hsize, Nat.succ_mul, Nat.add_assoc]

/-- **Rows double**: all rows up to one span as much as the next one. -/
theorem slotOffset_rows (k : Nat) :
    slotOffset t ((k + 1) * t.width) = 2 ^ (t.startBits + k + t.widthBits) := by
  have hrow : ∀ row, t.width * 2 ^ t.rowBits row = 2 ^ (t.rowBits row + t.widthBits) := by
    intro row
    unfold DoublingTable.width
    rw [Nat.pow_add, Nat.mul_comm]
  induction k with
  | zero =>
    have hfirst := slotOffset_row_add (t := t) 0 (Nat.le_refl t.width)
    rw [hrow, Nat.zero_mul, Nat.zero_add] at hfirst
    rw [Nat.zero_add, Nat.one_mul, hfirst]
    unfold slotOffset DoublingTable.rowBits
    rw [Nat.zero_add]
  | succ k ih =>
    have hnext := slotOffset_row_add (t := t) (k + 1) (Nat.le_refl t.width)
    have hbits : t.rowBits (k + 1) = t.startBits + k := rfl
    rw [hrow, hbits, ih, ← Nat.succ_mul] at hnext
    rw [hnext, ← Nat.two_mul, ← Nat.pow_succ']
    congr 1
    omega

/-- **An indirect block fills its slot**: its rows span one block of the row that it is in. -/
theorem slotOffset_childRows {row k : Nat} (hrow : 2 ≤ row) (hk : t.childRows row = some k) :
    slotOffset t (k * t.width) = 2 ^ t.rowBits row := by
  have hpos := DoublingTable.childRows_pos hk
  obtain ⟨m, rfl⟩ : ∃ m, k = m + 1 := ⟨k - 1, by omega⟩
  unfold DoublingTable.childRows at hk
  split at hk
  · rename_i hroom
    rw [Option.some.injEq] at hk
    rw [slotOffset_rows]
    unfold DoublingTable.rowBits
    congr 1
    omega
  · cases hk

theorem slotSize_of_direct {slot size : Nat} (h : t.blockSize slot = .direct size) :
    slotSize t slot = size := by
  unfold DoublingTable.blockSize DoublingTable.rowBlockSize at h
  unfold slotSize
  split at h
  · rename_i hsome
    split at hsome
    · rw [Option.some.injEq] at hsome
      split at h
      · cases h
        exact hsome
      · cases h
    · cases hsome
  · cases h

theorem slotSize_of_indirect {slot k : Nat} (h : t.blockSize slot = .indirect)
    (hk : t.childRows (t.rowOf slot) = some k) : slotOffset t (k * t.width) = slotSize t slot :=
  slotOffset_childRows (DoublingTable.two_le_rowOf h) hk

end DoublingHeap.Proofs.Tiling
