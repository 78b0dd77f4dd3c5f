/-! # Numbers in bytes

Integers are stored little-endian: a field of `w` bytes holds a natural number below `256 ^ w`,
least significant byte first. `decode` reads a field of any width and `encode` writes one; they are
inverse to each other on fields of one width (`decode_encode`, `encode_decode`), and a field of `w`
bytes never holds more than `w` bytes can (`decode_lt`). `decode?` is the reader for integers of at
most `maxWidth` bytes, and `bytesNeeded` is the least width that holds a number. Flag bytes hold
several numbers, each in a run of bits (`Bits.field`). -/

namespace DoublingHeap.Bytes.LittleEndian

-- Powers are those of `Nat`, whatever else is in scope. This is local, so modules that write powers
-- of numbers say it again.
attribute [local instance (high)] instPowNat

-- This includes powers whose exponent is a numeral, here and wherever this module is imported.
attribute [default_instance 20000] instPowNat

/-- The number that a run of bytes stands for, least significant byte first. -/
def decode : List UInt8 → Nat
  | [] => 0
  | b :: bs => b.toNat + 256 * decode bs

/-- The lowest `w` bytes of a number, least significant byte first. -/
def encode : Nat → Nat → List UInt8
  | 0, _ => []
  | w + 1, n => UInt8.ofNat n :: encode w (n / 256)

/-- The widest integer that fits a machine word, in bytes. -/
def maxWidth : Nat := 8

/-- The number of a field of at most `maxWidth` bytes; a wider field has none. -/
def decode? (bytes : List UInt8) : Option Nat :=
  if bytes.length ≤ maxWidth then some (decode bytes) else none

/-- The least number of bytes, at least one, that hold `n`. -/
def bytesNeeded (n : Nat) : Nat := n.log2 / 8 + 1

/-! ### A field and its number -/

theorem length_encode (w n : Nat) : (encode w n).length = w := by
  induction w generalizing n with
  | zero => rfl
  | succ w ih => simp [encode, ih]

theorem decode_lt (bytes : List UInt8) : decode bytes < 256 ^ bytes.length := by
  induction bytes with
  | nil => simp [decode]
  | cons b bs ih =>
    have hb : b.toNat < 256 := b.toNat_lt
    simp only [decode, List.length_cons, Nat.pow_succ]
    omega

theorem decode_encode {w n : Nat} (h : n < 256 ^ w) : decode (encode w n) = n := by
  induction w generalizing n with
  | zero => simp at h; simp [encode, decode, h]
  | succ w ih =>
    rw [Nat.pow_succ] at h
    simp only [encode, decode, UInt8.toNat_ofNat']
    rw [ih (by omega)]
    omega

theorem encode_decode (bytes : List UInt8) : encode bytes.length (decode bytes) = bytes := by
  induction bytes with
  | nil => rfl
  | cons b bs ih =>
    have hb : b.toNat < 256 := b.toNat_lt
    have hlow : UInt8.ofNat (b.toNat + 256 * decode bs) = b := by
      apply UInt8.toNat.inj
      rw [UInt8.toNat_ofNat']
      omega
    have hrest : (b.toNat + 256 * decode bs) / 256 = decode bs := by omega
    simp only [List.length_cons, encode, decode, hlow, hrest, ih]

theorem lt_pow_bytesNeeded (n : Nat) : n < 256 ^ bytesNeeded n := by
  have h : n < 2 ^ (n.log2 + 1) := Nat.lt_log2_self
  have hle : 2 ^ (n.log2 + 1) ≤ 2 ^ (8 * bytesNeeded n) :=
    Nat.pow_le_pow_right (by decide) (by unfold bytesNeeded; omega)
  have h256 : (256 : Nat) ^ bytesNeeded n = 2 ^ (8 * bytesNeeded n) := by
    rw [Nat.pow_mul]
  omega

/-- A number fits a field exactly when the field is at least `bytesNeeded` wide. -/
theorem lt_pow_iff_bytesNeeded_le {n w : Nat} (hw : 1 ≤ w) : n < 256 ^ w ↔ bytesNeeded n ≤ w := by
  constructor
  · intro h
    have hlog : n.log2 < 8 * w := by
      by_cases hzero : n = 0
      · rw [hzero, Nat.log2_zero]
        omega
      · rw [Nat.log2_lt hzero, Nat.pow_mul]
        exact h
    unfold bytesNeeded
    omega
  · intro h
    exact Nat.lt_of_lt_of_le (lt_pow_bytesNeeded n) (Nat.pow_le_pow_right (by decide) h)

end DoublingHeap.Bytes.LittleEndian

/-! ### Packed bytes

Flag bytes pack several small fields into one byte. Bit `0` is the lowest. -/

namespace DoublingHeap.Bytes.Bits

attribute [local instance (high)] instPowNat

/-- The number in the `length` bits of `byte` that start at bit `start`. -/
def field (byte : UInt8) (start length : Nat) : Nat := byte.toNat / 2 ^ start % 2 ^ length

/-- Whether bit `index` of `byte` is set. -/
def flag (byte : UInt8) (index : Nat) : Bool := field byte index 1 == 1

end DoublingHeap.Bytes.Bits
