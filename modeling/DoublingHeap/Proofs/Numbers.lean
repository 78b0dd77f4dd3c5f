import Mathlib.Algebra.BigOperators.Fin
import Mathlib.Data.Set.Function
import Mathlib.Order.Bounds.Defs
import DoublingHeap.Proofs.ExactBlocks
import DoublingHeap.Proofs.Traps

/-! # Fields and numbers

The number of a field is the sum of its bytes, each with the weight of its place (`positional`). The
fields of one width and the numbers below a power of 256 are in bijection (`invOn_decode`,
`bijOn_decode`): every number is that of one field, which `encode` writes byte by byte
(`getElem?_encode`). So the least width of a number says where it starts to have a field
(`isLeast_bytesNeeded`), and the greatest number of a width is that of the field of `0xFF` bytes.

A machine goes through a field from its last byte on and moves the bits that it has found up by
eight places for each byte. No bit leaves the word as long as there are at most eight bytes
(`toNat_shiftIn`). -/

namespace DoublingHeap.Proofs.Numbers

open DoublingHeap.Bytes.LittleEndian DoublingHeap.Proofs.ExactBlocks DoublingHeap.Proofs.Traps

attribute [local instance (high)] instPowNat

variable {bytes : List UInt8} {w n : Nat}

/-- The sum of the bytes, each with the weight of its place. -/
def positional (bytes : List UInt8) : Nat :=
  ∑ i : Fin bytes.length, bytes[i].toNat * 256 ^ i.val

/-- The fields of a width. -/
def fields (w : Nat) : Set (List UInt8) := {bytes | bytes.length = w}

/-- The numbers below a power of 256. -/
def numbers (w : Nat) : Set Nat := {n | n < 256 ^ w}

/-! ### The number of a field -/

theorem positional_cons (b : UInt8) (bytes : List UInt8) :
    positional (b :: bytes) = b.toNat + 256 * positional bytes := by
  have hsplit : positional (b :: bytes) = b.toNat * 256 ^ 0
      + ∑ i : Fin bytes.length, bytes[i].toNat * 256 ^ (i.val + 1) :=
    Fin.sum_univ_succ _
  rw [hsplit, Nat.pow_zero, Nat.mul_one]
  unfold positional
  rw [Finset.mul_sum]
  congr 1
  refine Finset.sum_congr rfl fun i _ => ?_
  rw [Nat.pow_succ, ← Nat.mul_assoc, Nat.mul_comm 256]

theorem decode_eq_positional (bytes : List UInt8) : decode bytes = positional bytes := by
  induction bytes with
  | nil => rfl
  | cons b bytes ih => rw [decode, ih, positional_cons]

/-- **Writing and reading** are inverse to each other at every width. -/
theorem invOn_decode (w : Nat) : Set.InvOn (encode w) decode (fields w) (numbers w) := by
  constructor
  · rintro bytes rfl
    exact encode_decode bytes
  · intro n hn
    exact decode_encode hn

theorem bijOn_decode (w : Nat) : Set.BijOn decode (fields w) (numbers w) := by
  refine (invOn_decode w).bijOn ?_ ?_
  · rintro bytes rfl
    exact decode_lt bytes
  · intro n _
    exact length_encode w n

theorem getElem?_encode {i : Nat} (hi : i < w) :
    (encode w n)[i]? = some (UInt8.ofNat (n / 256 ^ i)) := by
  induction w generalizing n i with
  | zero => cases hi
  | succ w ih =>
    cases i with
    | zero => rw [encode, List.getElem?_cons_zero, Nat.pow_zero, Nat.div_one]
    | succ i =>
      rw [encode, List.getElem?_cons_succ, ih (Nat.lt_of_succ_lt_succ hi), Nat.div_div_eq_div_mul,
        Nat.pow_succ']

theorem decode?_eq_some (h : bytes.length ≤ maxWidth) : decode? bytes = some (decode bytes) :=
  if_pos h

theorem bijOn_decode? (hw : w ≤ maxWidth) :
    Set.BijOn decode? (fields w) (some '' numbers w) := by
  have hsome : Set.EqOn (some ∘ decode) decode? (fields w) := by
    rintro bytes rfl
    exact (decode?_eq_some hw).symm
  exact ((Option.some_injective _).injOn.bijOn_image.comp (bijOn_decode w)).congr hsome

theorem decode_lt_word (h : bytes.length ≤ maxWidth) : decode bytes < 2 ^ 64 :=
  Nat.lt_of_lt_of_le (decode_lt bytes) (Nat.pow_le_pow_right (by decide) h)

/-! ### Widths -/

theorem isLeast_bytesNeeded (n : Nat) : IsLeast {w | 1 ≤ w ∧ n < 256 ^ w} (bytesNeeded n) :=
  ⟨⟨Nat.succ_pos _, lt_pow_bytesNeeded n⟩, fun _ hw => (lt_pow_iff_bytesNeeded_le hw.1).mp hw.2⟩

theorem monotone_bytesNeeded : Monotone bytesNeeded := by
  intro m n hmn
  have hm : m < 256 ^ bytesNeeded n := Nat.lt_of_le_of_lt hmn (lt_pow_bytesNeeded n)
  exact (lt_pow_iff_bytesNeeded_le (Nat.succ_pos _)).mp hm

theorem bytesNeeded_mem_Icc (hn : n < 2 ^ 64) : bytesNeeded n ∈ Set.Icc 1 8 :=
  ⟨Nat.succ_pos _, (lt_pow_iff_bytesNeeded_le (by decide)).mp hn⟩

/-- **Nothing is there** exactly if all bytes of an address are `0xFF`. -/
theorem isUndefined_decode_iff {s : Superblock} (hlen : bytes.length = s.offsetWidth) :
    s.isUndefined (decode bytes) = true ↔ ∀ b ∈ bytes, b = 0xFF := by
  rw [isUndefined_decode hlen]
  unfold used
  rw [Bool.not_not, List.all_eq_true]
  simp only [beq_iff_eq]

/-! ### Words -/

/-- The word of a field, from its last byte on: what has been found moves up by eight bits, and a
byte comes in below. -/
def shiftIn (bytes : List UInt8) : UInt64 :=
  bytes.reverse.foldl (fun found b => found <<< 8 ||| b.toUInt64) 0

/-- The word of a field, which has to have one. -/
def word? (bytes : List UInt8) : Option UInt64 :=
  if bytes.length ≤ 8 then some (shiftIn bytes) else none

theorem shiftIn_cons (b : UInt8) (bytes : List UInt8) :
    shiftIn (b :: bytes) = shiftIn bytes <<< 8 ||| b.toUInt64 := by
  unfold shiftIn
  rw [List.reverse_cons, List.foldl_append]
  rfl

/-- **No bit is lost** in fields of at most eight bytes. -/
theorem toNat_shiftIn (h : bytes.length ≤ maxWidth) : (shiftIn bytes).toNat = decode bytes := by
  induction bytes with
  | nil => rfl
  | cons b bytes ih =>
    have hb : b.toNat < 2 ^ 8 := b.toNat_lt
    have hword : decode (b :: bytes) < 2 ^ 64 := decode_lt_word h
    rw [decode] at hword
    have hshift : (shiftIn bytes <<< 8).toNat = decode bytes <<< 8 := by
      rw [UInt64.toNat_shiftLeft, ih (Nat.le_of_succ_le h)]
      refine Nat.mod_eq_of_lt ?_
      show decode bytes <<< 8 < 2 ^ 64
      rw [Nat.shiftLeft_eq]
      omega
    rw [shiftIn_cons, UInt64.toNat_or, hshift, UInt8.toNat_toUInt64,
      ← Nat.shiftLeft_add_eq_or_of_lt hb, Nat.shiftLeft_eq, decode]
    omega

theorem map_word? (bytes : List UInt8) : (word? bytes).map UInt64.toNat = decode? bytes := by
  unfold word? decode?
  split
  · rename_i h
    rw [Option.map_some, toNat_shiftIn h]
    exact (if_pos h).symm
  · rename_i h
    exact (if_neg h).symm

/-- **Fields of a width and numbers are in bijection.** Fields of at most eight bytes have a number,
and longer ones have none; it is the sum of the bytes by their places, and the word that a machine
shifts together. The fields of one width have each number below that power of 256 once, and the
field that has it is written byte by byte. The bytes that a number needs are the least width, at
least one, at which it has a field; they are at most eight for a word and never fewer for a greater
number. At the width of addresses, nothing is there exactly if all bytes are `0xFF`. -/
theorem fields_are_numbers :
    (∀ bytes, (word? bytes).map UInt64.toNat = decode? bytes) ∧
    (∀ bytes, bytes.length ≤ 8 → decode? bytes = some (positional bytes)) ∧
    (∀ w, w ≤ 8 → Set.BijOn decode? (fields w) (some '' numbers w) ∧
      ∀ n ∈ numbers w, (encode w n).length = w ∧ decode? (encode w n) = some n ∧
        ∀ i < w, (encode w n)[i]? = some (UInt8.ofNat (n / 256 ^ i))) ∧
    (∀ v, v < 2 ^ 64 → IsLeast {n | 1 ≤ n ∧ v < 256 ^ n} (bytesNeeded v) ∧
      bytesNeeded v ∈ Set.Icc 1 8 ∧ bytesNeeded? v = some (bytesNeeded v)) ∧
    Monotone bytesNeeded ∧
    ∀ s : Superblock, undefinedAddress? s = some s.undefinedAddress ∧
      ∀ bytes ∈ fields s.offsetWidth, ∃ n, decode? bytes = some n ∧
        (s.isUndefined n = true ↔ ∀ b ∈ bytes, b = 0xFF) := by
  refine ⟨map_word?, fun bytes h => ?_, fun w hw => ⟨bijOn_decode? hw, fun n hn => ?_⟩,
    fun v hv => ⟨isLeast_bytesNeeded v, bytesNeeded_mem_Icc hv, bytesNeeded?_eq hv⟩,
    monotone_bytesNeeded, fun s => ⟨undefinedAddress?_eq s, fun bytes hbytes => ?_⟩⟩
  · rw [decode?_eq_some h, decode_eq_positional]
  · have hlength := length_encode w n
    have hread : decode? (encode w n) = some (decode (encode w n)) :=
      decode?_eq_some (hlength.trans_le hw)
    rw [decode_encode hn] at hread
    exact ⟨hlength, hread, fun i hi => getElem?_encode hi⟩
  · have hlen : bytes.length = s.offsetWidth := hbytes
    exact ⟨_, decode?_eq_some (hlen.trans_le s.offsetWidth_le), isUndefined_decode_iff hlen⟩

/-- The widest field with the greatest number: no bit of it is lost, eight bytes are the least that
it needs, and at that width it is the address where nothing is. -/
theorem greatest_word_in_eight_bytes :
    (List.replicate 8 (0xFF : UInt8)).length ≤ 8 ∧
      decode? (List.replicate 8 0xFF) = some (2 ^ 64 - 1) ∧
      (word? (List.replicate 8 0xFF)).map UInt64.toNat = some (2 ^ 64 - 1) ∧
      decode? (encode 8 (2 ^ 64 - 1)) = some (2 ^ 64 - 1) ∧
      IsLeast {n | 1 ≤ n ∧ 2 ^ 64 - 1 < 256 ^ n} 8 ∧
      Superblock.default.isUndefined (2 ^ 64 - 1) = true := by
  obtain ⟨hword, hsum, hfields, hwidth, -, haddress⟩ := fields_are_numbers
  have hlength : (List.replicate 8 (0xFF : UInt8)).length ≤ 8 := by decide
  have hnumber : decode? (List.replicate 8 0xFF) = some (2 ^ 64 - 1) := by
    rw [hsum _ hlength]
    decide +kernel
  have hleast := (hwidth (2 ^ 64 - 1) (by decide)).1
  have hneeded : bytesNeeded (2 ^ 64 - 1) = 8 := by decide +kernel
  rw [hneeded] at hleast
  obtain ⟨n, hn, hundefined⟩ := (haddress .default).2 (List.replicate 8 0xFF) rfl
  obtain rfl : 2 ^ 64 - 1 = n := Option.some.inj (hnumber.symm.trans hn)
  have hmem : 2 ^ 64 - 1 ∈ numbers 8 := by
    show 2 ^ 64 - 1 < 256 ^ 8
    decide
  exact ⟨hlength, hnumber, (hword _).trans hnumber, ((hfields 8 (by decide)).2 _ hmem).2.1, hleast,
    hundefined.mpr fun b hb => List.eq_of_mem_replicate hb⟩

end DoublingHeap.Proofs.Numbers
