import Mathlib.Algebra.BigOperators.Group.Finset.Basic
import DoublingHeap.Proofs.Headers
import DoublingHeap.Proofs.TableWords

/-! # Sizes double, and rows are counted in sizes

A table keeps exponents, and a machine counts the zeros at the end of words (`TableWords`). What
both stand for is said here in numbers: blocks in a row have the starting size, doubled for every
row after the second (`exactSize`), and some rows together span the sum of their blocks
(`exactSpan`).

* Sizes. The size of a row is the exact one where that is a word, slots are direct below the
  greatest direct size and from there on indirect, and size classes never decrease
  (`blockSize_mono`).
* Row counts. All rows up to one span as much as that row does (`exactSpan_succ`), so the rows of a
  child are those that span the block of its parent's row, and the most rows are those that address
  space has room for. -/

namespace DoublingHeap.Proofs.Doubling

open DoublingHeap.Proofs.Headers DoublingHeap.Proofs.TableWords

attribute [local instance (high)] instPowNat

variable {t : DoublingTable} {width start maxDirect heapBits row k i j : Nat}

/-! ### Numbers -/

/-- The block size of a row: the starting size, doubled for every row after the second. -/
def exactSize (start row : Nat) : Nat := start * 2 ^ (max row 1 - 1)

/-- The bytes in some rows of blocks, from the first row on. -/
def exactSpan (width start rows : Nat) : Nat :=
  ∑ row ∈ Finset.range rows, width * exactSize start row

theorem exactSize_succ_succ : exactSize start (k + 2) = 2 * exactSize start (k + 1) := by
  have hlater : max (k + 2) 1 - 1 = k + 1 := by omega
  have hrow : max (k + 1) 1 - 1 = k := by omega
  unfold exactSize
  rw [hlater, hrow, Nat.mul_left_comm, ← Nat.pow_succ']

theorem exactSize_first (h : row < 2) : exactSize start row = start := by
  have hrow : max row 1 - 1 = 0 := by omega
  unfold exactSize
  rw [hrow, Nat.pow_zero, Nat.mul_one]

theorem exactSpan_succ : exactSpan width start (k + 1) = width * exactSize start (k + 1) := by
  induction k with
  | zero =>
    unfold exactSpan
    rw [Finset.sum_range_one]
    rfl
  | succ k ih =>
    have hsplit : exactSpan width start (k + 2)
        = exactSpan width start (k + 1) + width * exactSize start (k + 1) :=
      Finset.sum_range_succ ..
    rw [hsplit, ih, exactSize_succ_succ, Nat.mul_left_comm, Nat.two_mul]

/-! ### Exponents -/

theorem exactSize_eq (t : DoublingTable) (row : Nat) :
    exactSize t.startingSize row = 2 ^ t.rowBits row := by
  have hrow : max row 1 - 1 = row - 1 := by omega
  unfold exactSize DoublingTable.startingSize DoublingTable.rowBits
  rw [hrow, Nat.pow_add]

theorem exactSize_lt_iff {e : Nat} : exactSize t.startingSize row < 2 ^ e ↔ t.rowBits row < e := by
  rw [exactSize_eq]
  exact Nat.pow_lt_pow_iff_right (by decide)

theorem exactSize_mono {row' : Nat} (h : row ≤ row') :
    exactSize t.startingSize row ≤ exactSize t.startingSize row' := by
  rw [exactSize_eq, exactSize_eq]
  unfold DoublingTable.rowBits
  exact Nat.pow_le_pow_right (by decide) (by omega)

theorem exactSpan_eq (t : DoublingTable) (k : Nat) :
    exactSpan t.width t.startingSize (k + 1) = 2 ^ (t.firstRowBits + k) := by
  have hexp : t.firstRowBits + k = t.widthBits + (t.startBits + (k + 1 - 1)) := by
    unfold DoublingTable.firstRowBits
    omega
  rw [exactSpan_succ, exactSize_eq, hexp, Nat.pow_add]
  rfl

/-! ### Sizes of rows and slots -/

/-- **The size of a row** is the exact one, where that is a word. -/
theorem rowBlockSize_eq_some_iff {size : Nat} :
    t.rowBlockSize row = some size ↔ size = exactSize t.startingSize row ∧ size < 2 ^ 64 := by
  have hiff : exactSize t.startingSize row < 2 ^ 64 ↔ t.rowBits row < 64 := exactSize_lt_iff
  unfold DoublingTable.rowBlockSize
  rw [← exactSize_eq]
  constructor
  · intro hsome
    split at hsome
    · rename_i hbits
      cases hsome
      exact ⟨rfl, hiff.mpr hbits⟩
    · cases hsome
  · rintro ⟨rfl, hlt⟩
    rw [if_pos (hiff.mp hlt)]

theorem blockSize_of_direct
    (h : t.rowOf i < 2 ∨ exactSize t.startingSize (t.rowOf i) < t.maxDirectSize) :
    t.blockSize i = .direct (exactSize t.startingSize (t.rowOf i)) := by
  have hstart : t.startingSize < 2 ^ 64 := Nat.pow_lt_pow_right (by decide) t.startBits_lt
  have hmax : t.maxDirectSize < 2 ^ 64 := Nat.pow_lt_pow_right (by decide) t.maxDirectBits_lt
  have hword : exactSize t.startingSize (t.rowOf i) < 2 ^ 64 := by
    rcases h with hfirst | hlt
    · rwa [exactSize_first hfirst]
    · exact Nat.lt_trans hlt hmax
  unfold DoublingTable.blockSize
  rw [rowBlockSize_eq_some_iff.mpr ⟨rfl, hword⟩]
  exact if_pos h

theorem blockSize_of_indirect (hrow : 2 ≤ t.rowOf i)
    (hge : t.maxDirectSize ≤ exactSize t.startingSize (t.rowOf i)) : t.blockSize i = .indirect := by
  unfold DoublingTable.blockSize
  cases hsize : t.rowBlockSize (t.rowOf i) with
  | none => rfl
  | some size =>
    obtain ⟨rfl, -⟩ := rowBlockSize_eq_some_iff.mp hsize
    exact if_neg (by omega)

theorem direct_le_direct_iff {m n : Nat} : BlockSize.direct m ≤ .direct n ↔ m ≤ n :=
  Nat.isLE_compare

theorem le_indirect (c : BlockSize) : c ≤ .indirect := by
  cases c <;> rfl

theorem indirect_le_iff {c : BlockSize} : .indirect ≤ c ↔ c = .indirect := by
  constructor
  · intro hle
    cases c with
    | direct size => cases hle
    | indirect => rfl
  · rintro rfl
    exact le_indirect _

/-- **Size classes never decrease** from one slot to a later one. -/
theorem blockSize_mono (hij : i ≤ j) : t.blockSize i ≤ t.blockSize j := by
  have hrows : t.rowOf i ≤ t.rowOf j := Nat.div_le_div_right hij
  have hsizes := exactSize_mono (t := t) hrows
  by_cases hj : t.rowOf j < 2 ∨ exactSize t.startingSize (t.rowOf j) < t.maxDirectSize
  · have hi : t.rowOf i < 2 ∨ exactSize t.startingSize (t.rowOf i) < t.maxDirectSize := by omega
    rw [blockSize_of_direct hi, blockSize_of_direct hj]
    exact direct_le_direct_iff.mpr hsizes
  · have hindirect : t.blockSize j = .indirect := blockSize_of_indirect (by omega) (by omega)
    rw [hindirect]
    exact le_indirect _

/-! ### Counts of rows -/

/-- **The rows of a child** are those that span a block of the row that it is in. -/
theorem childRows_eq_some_iff_span : t.childRows row = some k ↔
    exactSize t.startingSize row < 2 ^ 64 ∧ 1 ≤ k ∧
      exactSpan t.width t.startingSize k = exactSize t.startingSize row := by
  have hspan : 1 ≤ k → (exactSpan t.width t.startingSize k = exactSize t.startingSize row ↔
      t.firstRowBits + (k - 1) = t.rowBits row) := by
    intro hk
    obtain ⟨m, rfl⟩ : ∃ m, k = m + 1 := ⟨k - 1, by omega⟩
    rw [exactSpan_eq, exactSize_eq]
    exact Nat.pow_right_inj (by decide)
  have hbits : t.rowBits row = t.startBits + (row - 1) := rfl
  have hfirst : t.firstRowBits = t.startBits + t.widthBits := rfl
  rw [exactSize_lt_iff]
  unfold DoublingTable.childRows
  constructor
  · intro hsome
    split at hsome
    · rename_i hroom
      cases hsome
      exact ⟨hroom.1, by omega, (hspan (by omega)).mpr (by omega)⟩
    · cases hsome
  · rintro ⟨hlt, hk, heq⟩
    have hexp := (hspan hk).mp heq
    rw [if_pos ⟨hlt, by omega⟩]
    congr 1
    omega

theorem childRows_eq_none_iff_span : t.childRows row = none ↔
    2 ^ 64 ≤ exactSize t.startingSize row ∨
      exactSize t.startingSize row < t.width * t.startingSize := by
  have hword : exactSize t.startingSize row < 2 ^ 64 ↔ t.rowBits row < 64 := exactSize_lt_iff
  have hfirst : t.width * t.startingSize = 2 ^ (t.widthBits + t.startBits) :=
    (Nat.pow_add ..).symm
  have hbits : t.rowBits row = t.startBits + (row - 1) := rfl
  rw [hfirst, exactSize_lt_iff, ← Nat.not_lt, hword]
  unfold DoublingTable.childRows
  rw [ite_eq_right_iff]
  simp only [reduceCtorEq, imp_false]
  omega

/-- **The most rows** are those that address space has room for, and one. -/
theorem le_maxRows_iff {rows : Nat} : rows ≤ t.maxRows ↔
    rows ≤ 1 ∨ exactSpan t.width t.startingSize rows ≤ 2 ^ t.maxHeapBits := by
  unfold DoublingTable.maxRows
  rcases rows with _ | k
  · simp only [Nat.zero_le, true_or]
  · rw [exactSpan_eq, Nat.pow_le_pow_iff_right (by decide)]
    omega

/-! ### Tables -/

/-- **Sizes double and never decrease.** In a table with these parameters, the size of a row is the
starting size, doubled for every row after the second, if this is a word. A slot of the first two
rows is direct with the starting size; a slot of a later row is direct with the exact size of its
row if that is below the greatest direct size, and otherwise indirect. Later slots have no smaller
size classes, so what comes after an indirect slot is indirect.

A machine of words finds the same sizes and size classes, for all rows and slots. -/
theorem sizes_double
    (h : DoublingTable.ofParameters width start maxDirect heapBits = .ok t) :
    (∀ row size, t.rowBlockSize row = some size ↔
      size = start * 2 ^ (max row 1 - 1) ∧ size < 2 ^ 64) ∧
    (∀ slot, slot / width < 2 → t.blockSize slot = .direct start) ∧
    (∀ slot, 2 ≤ slot / width → start * 2 ^ (slot / width - 1) < maxDirect →
      t.blockSize slot = .direct (start * 2 ^ (slot / width - 1))) ∧
    (∀ slot, 2 ≤ slot / width → maxDirect ≤ start * 2 ^ (slot / width - 1) →
      t.blockSize slot = .indirect) ∧
    (∀ i j, i ≤ j → t.blockSize i ≤ t.blockSize j) ∧
    (∀ i j, i ≤ j → t.blockSize i = .indirect → t.blockSize j = .indirect) ∧
    (∀ row, rowSize? start row = some (t.rowBlockSize row)) ∧
    ∀ slot, sizeClass? width start maxDirect slot = some (t.blockSize slot) := by
  obtain ⟨rfl, rfl, rfl, rfl⟩ := ofParameters_eq_ok h
  have hlater : ∀ slot, 2 ≤ slot / t.width →
      t.startingSize * 2 ^ (slot / t.width - 1) = exactSize t.startingSize (t.rowOf slot) := by
    intro slot hrow
    have hmax : max (slot / t.width) 1 = slot / t.width := Nat.max_eq_left (by omega)
    unfold exactSize DoublingTable.rowOf
    rw [hmax]
  refine ⟨fun row size => rowBlockSize_eq_some_iff, fun slot (hrow : t.rowOf slot < 2) => ?_,
    fun slot hrow hlt => ?_, fun slot hrow hge => ?_, fun i j hij => blockSize_mono hij,
    fun i j hij hi => ?_, rowSize?_eq t, sizeClass?_eq t⟩
  · rw [blockSize_of_direct (.inl hrow), exactSize_first hrow]
  · rw [hlater slot hrow] at hlt ⊢
    exact blockSize_of_direct (.inr hlt)
  · rw [hlater slot hrow] at hge
    exact blockSize_of_indirect hrow hge
  · have hle := blockSize_mono (t := t) hij
    rw [hi] at hle
    exact indirect_le_iff.mp hle

/-- In a table of one column that starts with blocks of a megabyte, sizes go up to the last power of
two that is a word, and the last slot of all is indirect. -/
theorem megabytes_double :
    ∃ t, DoublingTable.ofParameters 1 (2 ^ 20) (2 ^ 30) 64 = .ok t ∧
      t.rowBlockSize 44 = some (2 ^ 63) ∧ t.blockSize 1 = .direct (2 ^ 20) ∧
      t.blockSize 10 = .direct (2 ^ 29) ∧ t.blockSize 11 = .indirect ∧
      t.blockSize 10 ≤ t.blockSize (2 ^ 64 - 1) ∧ t.blockSize (2 ^ 64 - 1) = .indirect ∧
      sizeClass? 1 (2 ^ 20) (2 ^ 30) (2 ^ 64 - 1) = some .indirect := by
  have haccepted : DoublingTable.ofParameters 1 (2 ^ 20) (2 ^ 30) 64
      = .ok ⟨0, 20, 30, 64, by decide, by decide, by decide, by decide⟩ := rfl
  obtain ⟨hrows, hfirst, hdirect, hindirect, hmono, hlast, -, hwords⟩ := sizes_double haccepted
  have heleven := hindirect 11 (by decide) (by decide)
  have hend := hlast 11 (2 ^ 64 - 1) (by decide) heleven
  exact ⟨_, haccepted, (hrows 44 _).mpr ⟨by decide, by decide⟩, hfirst 1 (by decide),
    hdirect 10 (by decide) (by decide), heleven, hmono 10 _ (by decide), hend,
    (hwords _).trans (congrArg some hend)⟩

/-- **Rows are counted in sizes.** In a table with these parameters, the rows of a child are `k`
exactly if the block of the row that it is in has a size, `k` is positive, and the first `k` rows
together span this size. There are none exactly if the size is not a word, or below that of the
first row. A block may have one row, and more of them exactly if they do not span more than address
space.

A machine counts zeros at the end of words. The count of a child's rows is a signed number between,
which may be below zero but is not far from it, and then there are no rows; nothing traps. -/
theorem row_counts_are_spans
    (h : DoublingTable.ofParameters width start maxDirect heapBits = .ok t) :
    (∀ row k, t.childRows row = some k ↔ exactSize start row < 2 ^ 64 ∧ 1 ≤ k ∧
      exactSpan width start k = exactSize start row) ∧
    (∀ row, t.childRows row = none ↔
      2 ^ 64 ≤ exactSize start row ∨ exactSize start row < width * start) ∧
    (∀ rows, rows ≤ t.maxRows ↔ rows ≤ 1 ∨ exactSpan width start rows ≤ 2 ^ heapBits) ∧
    (∀ row, ∃ rows, signedRows? width start row = some rows ∧
      t.childRows row = rows.bind positive? ∧ ∀ n ∈ rows, -15 < n ∧ n ≤ 64) ∧
    roomFor? width start heapBits = some t.maxRows ∧
    width ≤ 2 ^ 15 ∧ start ≤ 2 ^ 63 ∧ heapBits ≤ 64 := by
  obtain ⟨rfl, rfl, rfl, rfl⟩ := ofParameters_eq_ok h
  have hwidth := t.widthBits_lt
  have hstart := t.startBits_lt
  refine ⟨fun row k => childRows_eq_some_iff_span, fun row => childRows_eq_none_iff_span,
    fun rows => le_maxRows_iff, fun row => ?_, roomFor?_eq t,
    Nat.pow_le_pow_right (by decide) (by omega), Nat.pow_le_pow_right (by decide) (by omega),
    t.maxHeapBits_le⟩
  refine ⟨_, signedRows?_eq t row, childRows_eq_positive t row, fun n hn => ?_⟩
  unfold exactRows at hn
  split at hn
  · rename_i hbits
    have hrow : t.rowBits row = t.startBits + (row - 1) := rfl
    rw [Option.mem_some_iff] at hn
    omega
  · cases hn

/-- With four blocks in a row, a child of one row needs a block of four times the starting size. -/
theorem four_columns_counted :
    ∃ t, DoublingTable.ofParameters 4 512 1024 16 = .ok t ∧ t.childRows 2 = none ∧
      t.childRows 3 = some 1 ∧ t.childRows 5 = some 3 ∧ 6 ≤ t.maxRows ∧ ¬ 7 ≤ t.maxRows ∧
      roomFor? 4 512 16 = some t.maxRows := by
  have haccepted : DoublingTable.ofParameters 4 512 1024 16
      = .ok ⟨2, 9, 10, 16, by decide, by decide, by decide, by decide⟩ := rfl
  obtain ⟨hsome, hnone, hmost, -, hroom, -⟩ := row_counts_are_spans haccepted
  exact ⟨_, haccepted, (hnone 2).mpr (by decide), (hsome 3 1).mpr (by decide),
    (hsome 5 3).mpr (by decide), (hmost 6).mpr (by decide),
    fun hle => absurd ((hmost 7).mp hle) (by decide), hroom⟩

/-- In the first row of this table the signed count of a child's rows is below zero. -/
theorem signed_count_below_zero :
    (∃ t, DoublingTable.ofParameters 4 512 1024 16 = .ok t ∧ t.childRows 0 = none) ∧
      signedRows? 4 512 0 = some (some (-1)) := by
  let t : DoublingTable := ⟨2, 9, 10, 16, by decide, by decide, by decide, by decide⟩
  have hcount : signedRows? t.width t.startingSize 0 = some (exactRows t 0) := signedRows?_eq t 0
  exact ⟨⟨t, rfl, rfl⟩, hcount⟩

end DoublingHeap.Proofs.Doubling
