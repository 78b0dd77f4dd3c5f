/-! # The doubling table

Heap address space is carved into rows of `width` blocks. The first two rows hold blocks of the
starting size, and every later row doubles the size of the row before. While the size of a row is
below the largest direct size, its slots hold direct blocks; from then on they hold indirect blocks,
which are tables of their own.

Width and sizes are powers of two, so a `DoublingTable` keeps their exponents. `ofParameters` is the
only way from the stored numbers to a table. `blockSize` gives the size class of a slot, `childRows`
the number of rows of an indirect block that fills one slot, and `maxRows` the number of rows that
address space has room for. -/

namespace DoublingHeap

attribute [local instance (high)] instPowNat

/-- The geometry of a heap, by binary exponents. -/
structure DoublingTable where
  /-- Blocks in a row. -/
  widthBits : Nat
  /-- Size of a block in the first two rows. -/
  startBits : Nat
  /-- Size from which slots are indirect. -/
  maxDirectBits : Nat
  /-- Size of heap address space. -/
  maxHeapBits : Nat
  widthBits_lt : widthBits < 16
  startBits_lt : startBits < 64
  maxDirectBits_lt : maxDirectBits < 64
  maxHeapBits_le : maxHeapBits ≤ 64
deriving DecidableEq, Repr

/-- The size class of a slot. -/
inductive BlockSize where
  /-- The slot holds a direct block of this many bytes. -/
  | direct (size : Nat)
  /-- The slot holds an indirect block. -/
  | indirect
deriving DecidableEq, Repr

/-- Direct sizes are ordered by their bytes, and every direct size is below `indirect`. -/
def BlockSize.compare : BlockSize → BlockSize → Ordering
  | .direct m, .direct n => Ord.compare m n
  | .direct _, .indirect => .lt
  | .indirect, .direct _ => .gt
  | .indirect, .indirect => .eq

instance : Ord BlockSize := ⟨BlockSize.compare⟩

instance : LE BlockSize := leOfOrd

/-- Why numbers are not the parameters of a table. -/
inductive TableError where
  | width (n : Nat)
  | startingSize (n : Nat)
  | maxDirectSize (n : Nat)
  | maxHeapBits (n : Nat)
deriving DecidableEq, Repr

/-- What is wrong with the parameters. -/
def TableError.message : TableError → String
  | .width n => s!"table width {n} is not a non-zero power of two"
  | .startingSize n => s!"starting block size {n} is not a non-zero power of two"
  | .maxDirectSize n => s!"maximum direct block size {n} is not a non-zero power of two"
  | .maxHeapBits n => s!"maximum heap size of 2^{n} bytes exceeds a 64-bit address space"

namespace DoublingTable

/-- The exponent of a power of two below `2 ^ bits`. -/
def exponent? (bits n : Nat) : Option { e : Nat // e < bits } :=
  if h : n.log2 < bits then if n = 2 ^ n.log2 then some ⟨n.log2, h⟩ else none else none

/-- The table with a width below `2 ^ 16`, block sizes below `2 ^ 64` and address space of
`2 ^ maxHeapBits` bytes. The first parameter that does not fit is the error. -/
def ofParameters (width start maxDirect maxHeapBits : Nat) : Except TableError DoublingTable :=
  match exponent? 16 width with
  | none => .error (.width width)
  | some ⟨w, hw⟩ =>
    match exponent? 64 start with
    | none => .error (.startingSize start)
    | some ⟨s, hs⟩ =>
      match exponent? 64 maxDirect with
      | none => .error (.maxDirectSize maxDirect)
      | some ⟨d, hd⟩ =>
        if hm : maxHeapBits ≤ 64 then .ok ⟨w, s, d, maxHeapBits, hw, hs, hd, hm⟩
        else .error (.maxHeapBits maxHeapBits)

/-- Blocks in a row. -/
def width (t : DoublingTable) : Nat := 2 ^ t.widthBits

/-- Bytes of a block in the first two rows. -/
def startingSize (t : DoublingTable) : Nat := 2 ^ t.startBits

/-- The block size from which slots are indirect. -/
def maxDirectSize (t : DoublingTable) : Nat := 2 ^ t.maxDirectBits

/-- The row that a slot lies in. -/
def rowOf (t : DoublingTable) (slot : Nat) : Nat := slot / t.width

/-- The exponent of the block size of a row. The first two rows share one size. -/
def rowBits (t : DoublingTable) (row : Nat) : Nat := t.startBits + (row - 1)

/-- The block size of a row, if it is below `2 ^ 64`. -/
def rowBlockSize (t : DoublingTable) (row : Nat) : Option Nat :=
  if t.rowBits row < 64 then some (2 ^ t.rowBits row) else none

/-- The size class of a slot. The first two rows are always direct. -/
def blockSize (t : DoublingTable) (slot : Nat) : BlockSize :=
  match t.rowBlockSize (t.rowOf slot) with
  | some size => if t.rowOf slot < 2 ∨ size < t.maxDirectSize then .direct size else .indirect
  | none => .indirect

/-- The rows of an indirect block that fills one slot of `row`: so many that together they span
one block of that row. A row whose blocks are smaller than one row of a table has room for none. -/
def childRows (t : DoublingTable) (row : Nat) : Option Nat :=
  if t.rowBits row < 64 ∧ t.widthBits < max row 1 then some (max row 1 - t.widthBits) else none

/-- The exponent of the bytes in the first row. -/
def firstRowBits (t : DoublingTable) : Nat := t.startBits + t.widthBits

/-- The most rows that an indirect block of the heap may have. There is always room for one. -/
def maxRows (t : DoublingTable) : Nat := max (t.maxHeapBits + 1 - t.firstRowBits) 1

/-! ### Rows and slots -/

theorem width_pos (t : DoublingTable) : 0 < t.width := Nat.two_pow_pos _

theorem exponent?_eq_some_iff {bits n e : Nat} {h : e < bits} :
    exponent? bits n = some ⟨e, h⟩ ↔ n = 2 ^ e := by
  unfold exponent?
  constructor
  · intro hx
    split at hx
    · split at hx
      · rename_i hn
        simp only [Option.some.injEq, Subtype.mk.injEq] at hx
        rw [← hx]
        exact hn
      · simp at hx
    · simp at hx
  · rintro rfl
    simp [Nat.log2_two_pow, h]

/-- A child of row `q` has fewer rows than any block that has a row `q`. -/
theorem childRows_lt {t : DoublingTable} {row rows k : Nat} (h : t.childRows row = some k)
    (hrow : 2 ≤ row) (hrows : row < rows) : k < rows := by
  unfold childRows at h
  split at h
  · simp only [Option.some.injEq] at h
    omega
  · simp at h

theorem childRows_pos {t : DoublingTable} {row k : Nat} (h : t.childRows row = some k) : 0 < k := by
  unfold childRows at h
  split at h
  · rename_i hc
    simp only [Option.some.injEq] at h
    omega
  · simp at h

/-- Only rows after the second hold indirect blocks. -/
theorem two_le_rowOf {t : DoublingTable} {slot : Nat} (h : t.blockSize slot = .indirect) :
    2 ≤ t.rowOf slot := by
  unfold blockSize at h
  split at h
  · split at h
    · simp at h
    · omega
  · rename_i hn
    unfold rowBlockSize rowBits at hn
    have := t.startBits_lt
    split at hn
    · simp at hn
    · omega

end DoublingTable

end DoublingHeap
