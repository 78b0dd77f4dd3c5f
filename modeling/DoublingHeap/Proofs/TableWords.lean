import Mathlib.NumberTheory.Padics.PadicVal.Basic
import DoublingHeap.Proofs.Machine

/-! # A table in words

The library keeps the exponents of a table. A machine keeps its numbers, and shifts and multiplies
them, counts the zeros at the end of words, and forms signed differences of such counts. It finds
the same sizes (`rowSize?_eq`, `sizeClass?_eq`) and the same counts of rows (`childRows?_eq`,
`roomFor?_eq`), and does not trap. The signed count of a child's rows (`signedRows?`) is the exact
one, `exactRows`, which is not above zero where there is no room for a row. -/

namespace DoublingHeap.Proofs.TableWords

open DoublingHeap.Proofs.Machine

attribute [local instance (high)] instPowNat

/-! ### Sizes -/

/-- The number, if it is half a word. -/
def half? (n : Nat) : Option Nat := if n < 2 ^ 32 then some n else none

/-- The block size of a row, if it is a word. -/
def rowSize? (start row : Nat) : Option (Option Nat) :=
  if row < 2 then some (some start) else do
    let doublings ← sub? row 1
    -- a row too far out has no size, and that is no trap
    return (half? doublings).bind fun shift => (shift? shift).bind (mul? start)

/-- The size class of a slot. -/
def sizeClass? (width start maxDirect slot : Nat) : Option BlockSize := do
  let row ← div? slot width
  match ← rowSize? start row with
  | some size => return if row < 2 ∨ size < maxDirect then .direct size else .indirect
  | none => return .indirect

theorem half?_bind_shift? (n : Nat) (f : Nat → Option Nat) :
    ((half? n).bind fun shift => (shift? shift).bind f) = (shift? n).bind f := by
  unfold half?
  split
  · rfl
  · unfold shift?
    rw [if_neg (by omega)]
    rfl

theorem shift?_bind_mul? (t : DoublingTable) (n : Nat) :
    (shift? n).bind (mul? t.startingSize)
      = if t.startBits + n < 64 then some (2 ^ (t.startBits + n)) else none := by
  have hproduct : t.startingSize * 2 ^ n = 2 ^ (t.startBits + n) := (Nat.pow_add ..).symm
  unfold shift?
  by_cases hbits : t.startBits + n < 64
  · rw [if_pos hbits, if_pos (by omega), ← hproduct]
    refine mul?_eq_some ?_
    rw [hproduct]
    exact Nat.pow_lt_pow_right (by decide) hbits
  · rw [if_neg hbits]
    split
    · show mul? t.startingSize (2 ^ n) = none
      unfold mul?
      rw [hproduct]
      exact if_neg (Nat.not_lt.mpr (Nat.pow_le_pow_right (by decide) (by omega)))
    · rfl

theorem rowSize?_eq (t : DoublingTable) (row : Nat) :
    rowSize? t.startingSize row = some (t.rowBlockSize row) := by
  have hstart := t.startBits_lt
  unfold rowSize? DoublingTable.rowBlockSize DoublingTable.rowBits
  split
  · have hrow : t.startBits + (row - 1) = t.startBits := by omega
    rw [hrow, if_pos hstart]
    rfl
  · rw [sub?_eq_some (by omega)]
    show some ((half? (row - 1)).bind _) = _
    rw [half?_bind_shift?, shift?_bind_mul?]

theorem sizeClass?_eq (t : DoublingTable) (slot : Nat) :
    sizeClass? t.width t.startingSize t.maxDirectSize slot = some (t.blockSize slot) := by
  unfold sizeClass? DoublingTable.blockSize
  rw [div?_eq_some (Nat.ne_of_gt t.width_pos)]
  show (rowSize? t.startingSize (t.rowOf slot)).bind _ = _
  rw [rowSize?_eq]
  cases t.rowBlockSize (t.rowOf slot) <;> rfl

/-! ### Counts of rows -/

/-- The number of zeros at the end of a word. -/
def trailingZeros (n : Nat) : Nat := if n = 0 then 64 else padicValNat 2 n

/-- The zeros at the end of the size of the first row; counts of zeros are half words. -/
def firstZeros? (width start : Nat) : Option Nat :=
  half? (trailingZeros start + trailingZeros width)

/-- The rows of a child in a row, as a signed number. It is not above zero if there is no room for
any. -/
def signedRows? (width start row : Nat) : Option (Option Int) := do
  match ← rowSize? start row with
  | none => return none
  | some span =>
    let first ← firstZeros? width start
    let difference ← signed? (trailingZeros span - first)
    let rows ← signed? (difference + 1)
    return some rows

/-- A count that is above zero. -/
def positive? (rows : Int) : Option Nat := if 0 < rows then some rows.toNat else none

/-- The rows of an indirect block that fills one slot of a row. -/
def childRows? (width start row : Nat) : Option (Option Nat) := do
  let rows ← signedRows? width start row
  return rows.bind positive?

/-- The most rows of a block; the difference stops at zero. -/
def roomFor? (width start heapBits : Nat) : Option Nat := do
  let first ← firstZeros? width start
  let bits ← add? heapBits 1
  return max (bits - first) 1

/-- The exact count of a child's rows, which may be below zero, in a row that has a size. -/
def exactRows (t : DoublingTable) (row : Nat) : Option Int :=
  if t.rowBits row < 64 then some ((max row 1 : Nat) - (t.widthBits : Int)) else none

theorem trailingZeros_two_pow (e : Nat) : trailingZeros (2 ^ e) = e := by
  unfold trailingZeros
  rw [if_neg (Nat.ne_of_gt (Nat.two_pow_pos e))]
  exact padicValNat.prime_pow e

theorem firstZeros?_eq (t : DoublingTable) :
    firstZeros? t.width t.startingSize = some t.firstRowBits := by
  have hwidth := t.widthBits_lt
  have hstart := t.startBits_lt
  unfold firstZeros? DoublingTable.width DoublingTable.startingSize
  rw [trailingZeros_two_pow, trailingZeros_two_pow]
  exact if_pos (by omega)

/-- **The signed count** is the exact one, so it fits. -/
theorem signedRows?_eq (t : DoublingTable) (row : Nat) :
    signedRows? t.width t.startingSize row = some (exactRows t row) := by
  have hwidth := t.widthBits_lt
  have hstart := t.startBits_lt
  unfold signedRows? exactRows
  rw [rowSize?_eq, firstZeros?_eq]
  unfold DoublingTable.rowBlockSize
  by_cases hbits : t.rowBits row < 64
  · have hrow : t.rowBits row = t.startBits + (row - 1) := rfl
    have hfirst : t.firstRowBits = t.startBits + t.widthBits := rfl
    simp only [if_pos hbits, Option.bind_eq_bind, Option.bind_some, trailingZeros_two_pow, signed?]
    rw [if_pos (by omega)]
    simp only [Option.bind_some]
    rw [if_pos (by omega)]
    simp only [Option.bind_some, Option.pure_def, Option.some.injEq]
    omega
  · simp only [if_neg hbits]
    rfl

theorem childRows_eq_positive (t : DoublingTable) (row : Nat) :
    t.childRows row = (exactRows t row).bind positive? := by
  unfold DoublingTable.childRows exactRows
  by_cases hbits : t.rowBits row < 64
  · simp only [hbits, true_and, if_true, Option.bind_some, positive?]
    split
    · rw [if_pos (by omega)]
      congr 1
      omega
    · rw [if_neg (by omega)]
  · simp only [hbits, false_and, if_false]
    rfl

theorem childRows?_eq (t : DoublingTable) (row : Nat) :
    childRows? t.width t.startingSize row = some (t.childRows row) := by
  unfold childRows?
  rw [signedRows?_eq, childRows_eq_positive]
  rfl

theorem roomFor?_eq (t : DoublingTable) :
    roomFor? t.width t.startingSize t.maxHeapBits = some t.maxRows := by
  have hheap := t.maxHeapBits_le
  unfold roomFor?
  rw [firstZeros?_eq, add?_eq_some (by omega)]
  rfl

end DoublingHeap.Proofs.TableWords
