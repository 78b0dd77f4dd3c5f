import Mathlib.Data.List.Forall2
import Mathlib.Data.Nat.Digits.Defs
import DoublingHeap.Proofs.Digits

/-! # Which texts spell addresses and byte strings

Digits are the characters of two alphabets, one for each case (`IsDigit`). A run of digits spells a
number by the places that the digits have (`Spells`), and two digits spell a byte (`Pairs`).

* `SpellsAddress`: digits of base ten, or of base sixteen after a mark, with a plus sign in front of
  them if wanted, that spell a number of 64 bits.
* `Interspersed`: a text in which separators stand anywhere between the characters of another.

Addresses are what `SpellsAddress` says (`address?_eq_some_iff`). A byte string is read from the
characters that are left without the separators (`parse_eq_ok_iff`); it does not matter that it is
the bytes of the text that are read, since no byte of a character beyond ASCII is a digit. -/

namespace DoublingHeap.Proofs.Spelling

open DoublingHeap.Bytes DoublingHeap.Text DoublingHeap.Text.Numeral
open DoublingHeap.Proofs.Digits

attribute [local instance (high)] instPowNat

variable {base n : Nat} {c : Char} {cs digits text : List Char} {bytes : List UInt8}

/-! ### Digits -/

/-- The digits in the order of their values. -/
def lowerAlphabet : List Char := "0123456789abcdef".toList

/-- The same, with capital letters. -/
def upperAlphabet : List Char := "0123456789ABCDEF".toList

/-- The character is the digit of a value below the base, in one case or the other. -/
def IsDigit (base : Nat) (c : Char) (d : Nat) : Prop :=
  d < base ∧ (lowerAlphabet[d]? = some c ∨ upperAlphabet[d]? = some c)

/-- **Digits spell a number**: each counts for its value times a power of the base, the last one for
its value alone. There is at least one. -/
def Spells (base : Nat) (digits : List Char) (n : Nat) : Prop :=
  digits ≠ [] ∧
    ∃ values, List.Forall₂ (IsDigit base) digits values ∧ n = Nat.ofDigits base values.reverse

theorem toNat_lt_of_digitValue? {d : Nat} (h : Hex.digitValue? c = some d) : c.toNat < 128 := by
  have hle : ∀ {last : Char}, c ≤ last → c.toNat ≤ last.toNat := fun h => h
  unfold Hex.digitValue? at h
  split at h
  · rename_i hc
    exact Nat.lt_of_le_of_lt (hle hc.2) (by decide)
  split at h
  · rename_i hc
    exact Nat.lt_of_le_of_lt (hle hc.2) (by decide)
  split at h
  · rename_i hc
    exact Nat.lt_of_le_of_lt (hle hc.2) (by decide)
  · cases h

theorem alphabet_of_digitValue? {d : Nat} (h : Hex.digitValue? c = some d) :
    lowerAlphabet[d]? = some c ∨ upperAlphabet[d]? = some c := by
  have hall : ∀ k : Fin 128, ∀ d ∈ Hex.digitValue? (Char.ofNat k),
      lowerAlphabet[d]? = some (Char.ofNat k) ∨ upperAlphabet[d]? = some (Char.ofNat k) := by
    decide +kernel
  have hc := hall ⟨c.toNat, toNat_lt_of_digitValue? h⟩ d
  rw [Char.ofNat_toNat] at hc
  exact hc h

theorem digitValue?_of_alphabet {d : Nat}
    (h : lowerAlphabet[d]? = some c ∨ upperAlphabet[d]? = some c) :
    Hex.digitValue? c = some d := by
  have hlower : ∀ d : Fin 16, lowerAlphabet[d.val]?.bind Hex.digitValue? = some d.val := by decide
  have hupper : ∀ d : Fin 16, upperAlphabet[d.val]?.bind Hex.digitValue? = some d.val := by decide
  rcases h with h | h
  · obtain ⟨hd, -⟩ := List.getElem?_eq_some_iff.mp h
    have hvalue := hlower ⟨d, hd⟩
    rwa [h, Option.bind_some] at hvalue
  · obtain ⟨hd, -⟩ := List.getElem?_eq_some_iff.mp h
    have hvalue := hupper ⟨d, hd⟩
    rwa [h, Option.bind_some] at hvalue

theorem hexValue_eq_some_iff {d : Nat} : Hex.digitValue? c = some d ↔ IsDigit 16 c d := by
  constructor
  · intro h
    have halphabet := alphabet_of_digitValue? h
    refine ⟨?_, halphabet⟩
    rcases halphabet with h | h
    · exact (List.getElem?_eq_some_iff.mp h).1
    · exact (List.getElem?_eq_some_iff.mp h).1
  · rintro ⟨-, h⟩
    exact digitValue?_of_alphabet h

/-- **The digits of a base** are those of the alphabets whose value is below it. -/
theorem digitValue?_eq_some_iff {d : Nat} : digitValue? base c = some d ↔ IsDigit base c d := by
  unfold digitValue? IsDigit
  rw [Option.filter_eq_some_iff, decide_eq_true_iff, and_comm]
  exact and_congr_right fun _ => ⟨alphabet_of_digitValue?, digitValue?_of_alphabet⟩

theorem IsDigit.toNat_lt {d : Nat} (h : IsDigit base c d) : c.toNat < 128 :=
  toNat_lt_of_digitValue? (digitValue?_of_alphabet h.2)

theorem not_isDigit (h : Hex.digitValue? c = none) (d : Nat) : ¬ IsDigit base c d := by
  intro hd
  rw [digitValue?_of_alphabet hd.2] at h
  cases h

/-! ### Numbers -/

theorem continueDigits?_eq_some_iff {m : Nat} :
    continueDigits? base cs m = some n ↔
      ∃ values, List.Forall₂ (IsDigit base) cs values ∧
        n = Nat.ofDigits base values.reverse + base ^ values.length * m := by
  -- by induction on the digits, of which the first is worth the most
  induction cs generalizing m with
  | nil =>
    rw [continueDigits?, Option.some.injEq]
    constructor
    · rintro rfl
      exact ⟨[], .nil, by simp⟩
    · rintro ⟨values, hvalues, hn⟩
      cases hvalues
      simpa using hn.symm
  | cons c cs ih =>
    have hplace : ∀ (d : Nat) (values : List Nat),
        Nat.ofDigits base values.reverse + base ^ values.length * (m * base + d)
          = Nat.ofDigits base (d :: values).reverse + base ^ (d :: values).length * m := by
      intro d values
      rw [List.reverse_cons, Nat.ofDigits_append, Nat.ofDigits_singleton, List.length_reverse,
        List.length_cons]
      ring
    rw [continueDigits?, Option.bind_eq_bind, Option.bind_eq_some_iff]
    constructor
    · rintro ⟨d, hd, hcs⟩
      obtain ⟨values, hvalues, rfl⟩ := ih.mp hcs
      exact ⟨d :: values, .cons (digitValue?_eq_some_iff.mp hd) hvalues, hplace d values⟩
    · rintro ⟨values, hvalues, rfl⟩
      cases hvalues with
      | cons hd hrest =>
        exact ⟨_, digitValue?_eq_some_iff.mpr hd, ih.mpr ⟨_, hrest, (hplace _ _).symm⟩⟩

/-- **A run of digits** is read as the number that it spells. -/
theorem digits?_eq_some_iff : digits? base cs = some n ↔ Spells base cs n := by
  unfold Spells
  cases cs with
  | nil => simp [digits?]
  | cons c cs =>
    rw [digits?, continueDigits?_eq_some_iff]
    simp only [Nat.mul_zero, Nat.add_zero, ne_eq, reduceCtorEq, not_false_eq_true, true_and]
    exact fun h => nomatch h

/-- **A number below a limit**, after a plus sign if there is one. The sign is no digit, so there is
one way only to take it off. -/
theorem unsigned?_eq_some_iff {limit : Nat} :
    unsigned? base limit cs = some n ↔
      ∃ digits, (cs = digits ∨ cs = '+' :: digits) ∧ Spells base digits n ∧ n < limit := by
  unfold unsigned?
  rw [Option.filter_eq_some_iff, decide_eq_true_iff, digits?_eq_some_iff]
  constructor
  · rintro ⟨hspells, hlt⟩
    refine ⟨dropPlus cs, ?_, hspells, hlt⟩
    unfold dropPlus
    split
    · exact .inr rfl
    · exact .inl rfl
  · rintro ⟨digits, rfl | rfl, hspells, hlt⟩
    · have hkeep : dropPlus cs = cs := by
        unfold dropPlus
        split
        · obtain ⟨-, values, hvalues, -⟩ := hspells
          cases hvalues with
          | cons hplus _ => exact absurd hplus (not_isDigit rfl _)
        · rfl
      rw [hkeep]
      exact ⟨hspells, hlt⟩
    · exact ⟨hspells, hlt⟩

/-- **The texts of addresses.** -/
inductive SpellsAddress : List Char → Nat → Prop
  /-- Digits of base ten. -/
  | decimal {text digits : List Char} {n : Nat} (hsign : text = digits ∨ text = '+' :: digits)
      (hdigits : Spells 10 digits n) (hlt : n < (2 : Nat) ^ (64 : Nat)) : SpellsAddress text n
  /-- Digits of base sixteen, after a mark. -/
  | hexadecimal {text digits : List Char} {n : Nat} {mark : Char} (hmark : mark = 'x' ∨ mark = 'X')
      (hsign : text = digits ∨ text = '+' :: digits) (hdigits : Spells 16 digits n)
      (hlt : n < (2 : Nat) ^ (64 : Nat)) : SpellsAddress ('0' :: mark :: text) n

theorem not_spells_of_mark {mark : Char} (hmark : mark = 'x' ∨ mark = 'X')
    (hsign : '0' :: mark :: cs = digits ∨ '0' :: mark :: cs = '+' :: digits) :
    ¬ Spells 10 digits n := by
  rintro ⟨-, values, hvalues, -⟩
  rcases hsign with rfl | hsign
  · cases hvalues with
    | cons _ hrest =>
      cases hrest with
      | cons hdigit _ =>
        rcases hmark with rfl | rfl
        · exact not_isDigit rfl _ hdigit
        · exact not_isDigit rfl _ hdigit
  · exact absurd (List.cons.inj hsign).1 (by decide)

theorem unsigned?_marked_iff {mark : Char} (hmark : mark = 'x' ∨ mark = 'X') :
    unsigned? 16 addressLimit cs = some n ↔ SpellsAddress ('0' :: mark :: cs) n := by
  rw [unsigned?_eq_some_iff]
  constructor
  · rintro ⟨digits, hsign, hdigits, hlt⟩
    exact .hexadecimal hmark hsign hdigits hlt
  · intro h
    cases h with
    | decimal hsign hdigits => exact absurd hdigits (not_spells_of_mark hmark hsign)
    | hexadecimal _ hsign hdigits hlt => exact ⟨_, hsign, hdigits, hlt⟩

theorem address?_eq_some_iff {text : String} :
    address? text = some n ↔ SpellsAddress text.toList n := by
  unfold address?
  split
  · rename_i cs htext
    rw [htext]
    exact unsigned?_marked_iff (.inl rfl)
  · rename_i cs htext
    rw [htext]
    exact unsigned?_marked_iff (.inr rfl)
  · rename_i hx hX
    rw [unsigned?_eq_some_iff]
    constructor
    · rintro ⟨digits, hsign, hdigits, hlt⟩
      exact .decimal hsign hdigits hlt
    · intro h
      generalize text.toList = cs at h hx hX
      cases h with
      | decimal hsign hdigits hlt => exact ⟨_, hsign, hdigits, hlt⟩
      | hexadecimal hmark =>
        rcases hmark with rfl | rfl
        · exact absurd rfl (hx _)
        · exact absurd rfl (hX _)

/-! ### Bytes -/

/-- **Digit pairs spell bytes**, high half first. -/
inductive Pairs : List Char → List UInt8 → Prop
  | nil : Pairs [] []
  | cons {high low : Char} {h l : Nat} {cs : List Char} {bytes : List UInt8}
      (hhigh : IsDigit 16 high h) (hlow : IsDigit 16 low l) (hrest : Pairs cs bytes) :
      Pairs (high :: low :: cs) (UInt8.ofNat (16 * h + l) :: bytes)

theorem Pairs.length (h : Pairs cs bytes) : cs.length = 2 * bytes.length := by
  induction h with
  | nil => rfl
  | cons _ _ _ ih =>
    rw [List.length_cons, List.length_cons, List.length_cons, ih]
    omega

theorem Pairs.isDigit_of_mem (h : Pairs cs bytes) : ∀ c ∈ cs, ∃ d, IsDigit 16 c d := by
  induction h with
  | nil => exact fun c hc => absurd hc List.not_mem_nil
  | cons hhigh hlow _ ih =>
    rw [List.forall_mem_cons, List.forall_mem_cons]
    exact ⟨⟨_, hhigh⟩, ⟨_, hlow⟩, ih⟩

theorem exists_pairs : ∀ {cs : List Char}, (∀ c ∈ cs, ∃ d, IsDigit 16 c d) → cs.length % 2 = 0 →
    ∃ bytes, Pairs cs bytes
  | [], _, _ => ⟨[], .nil⟩
  | [_], _, heven => by simp at heven
  | high :: low :: cs, hdigits, heven => by
    obtain ⟨⟨_, hhigh⟩, hdigits⟩ := List.forall_mem_cons.mp hdigits
    obtain ⟨⟨_, hlow⟩, hrest⟩ := List.forall_mem_cons.mp hdigits
    rw [List.length_cons, List.length_cons] at heven
    obtain ⟨bytes, hbytes⟩ := exists_pairs hrest (by omega)
    exact ⟨_, .cons hhigh hlow hbytes⟩

theorem exists_pairs_iff :
    (∃ bytes, Pairs cs bytes) ↔ (∀ c ∈ cs, ∃ d, IsDigit 16 c d) ∧ cs.length % 2 = 0 := by
  constructor
  · rintro ⟨bytes, h⟩
    have hlength := h.length
    exact ⟨h.isDigit_of_mem, by omega⟩
  · rintro ⟨hdigits, heven⟩
    exact exists_pairs hdigits heven

theorem pairs_encode (bytes : List UInt8) : Pairs (Hex.encode bytes) bytes := by
  induction bytes with
  | nil => exact .nil
  | cons b bytes ih =>
    have hb : b.toNat < 256 := b.toNat_lt
    have hhigh := hexValue_eq_some_iff.mp (digitValue?_digit (d := b.toNat / 16) (by omega))
    have hlow := hexValue_eq_some_iff.mp (digitValue?_digit (d := b.toNat % 16) (by omega))
    have hpairs := Pairs.cons hhigh hlow ih
    rwa [Nat.div_add_mod, UInt8.ofNat_toNat] at hpairs

theorem digitAt_eq_ok_iff {b : UInt8} {position v : Nat} :
    Hex.digitAt b position = .ok v ↔ IsDigit 16 (Char.ofNat b.toNat) v := by
  rw [← hexValue_eq_some_iff]
  unfold Hex.digitAt
  split
  · rename_i hv
    rw [hv, Except.ok.injEq, Option.some.injEq]
  · rename_i hv
    rw [hv]
    exact ⟨nofun, nofun⟩

theorem pairs_cons_eq_ok_iff {position : Nat} {high low : UInt8} {rest : List UInt8} :
    Hex.pairs position (high :: low :: rest) = .ok bytes ↔
      ∃ h l bytes', IsDigit 16 (Char.ofNat high.toNat) h ∧ IsDigit 16 (Char.ofNat low.toNat) l ∧
        Hex.pairs (position + 2) rest = .ok bytes' ∧
        bytes = UInt8.ofNat (16 * h + l) :: bytes' := by
  have hbind : ∀ {α β : Type} {x : Except Hex.Fault α} {f : α → Except Hex.Fault β} {b : β},
      x >>= f = .ok b ↔ ∃ a, x = .ok a ∧ f a = .ok b := by
    intro α β x f b
    cases x <;> simp [bind, Except.bind]
  rw [Hex.pairs, hbind]
  simp only [hbind, digitAt_eq_ok_iff, pure, Except.pure, Except.ok.injEq]
  constructor
  · rintro ⟨h, hh, l, hl, bytes', hrest, rfl⟩
    exact ⟨h, l, bytes', hh, hl, hrest, rfl⟩
  · rintro ⟨h, l, bytes', hh, hl, hrest, rfl⟩
    exact ⟨h, hh, l, hl, bytes', hrest, rfl⟩

/-- The byte of an ASCII character is the character. -/
theorem ofNat_toUInt8 (hc : c.toNat < 128) : Char.ofNat c.toUInt8.toNat = c := by
  have hbyte : c.toUInt8.toNat = c.toNat := Nat.mod_eq_of_lt (Nat.lt_trans hc (by decide))
  rw [hbyte, Char.ofNat_toNat]

/-- **The bytes of digit pairs**, which are ASCII characters. -/
theorem pairs_map_eq_ok_iff : ∀ {cs : List Char} {bytes : List UInt8} (position : Nat),
    (∀ c ∈ cs, c.toNat < 128) → cs.length % 2 = 0 →
      (Hex.pairs position (cs.map Char.toUInt8) = .ok bytes ↔ Pairs cs bytes)
  | [], bytes, _, _, _ => by
    constructor
    · intro h
      cases h
      exact .nil
    · intro h
      cases h
      rfl
  | [_], _, _, _, heven => by simp at heven
  | high :: low :: cs, bytes, position, hascii, heven => by
    obtain ⟨hhigh, hascii⟩ := List.forall_mem_cons.mp hascii
    obtain ⟨hlow, hascii⟩ := List.forall_mem_cons.mp hascii
    rw [List.length_cons, List.length_cons] at heven
    rw [List.map_cons, List.map_cons, pairs_cons_eq_ok_iff, ofNat_toUInt8 hhigh, ofNat_toUInt8 hlow]
    constructor
    · rintro ⟨h, l, bytes', hh, hl, hrest, rfl⟩
      exact .cons hh hl ((pairs_map_eq_ok_iff (position + 2) hascii (by omega)).mp hrest)
    · intro h
      cases h with
      | cons hh hl hrest =>
        have hpairs := (pairs_map_eq_ok_iff (position + 2) hascii (by omega)).mpr hrest
        exact ⟨_, _, _, hh, hl, hpairs, rfl⟩

theorem lt_of_pairs_eq_ok : ∀ {bs bytes : List UInt8} {position : Nat},
    Hex.pairs position bs = .ok bytes → bs.length % 2 = 0 → ∀ b ∈ bs, b.toNat < 128
  | [], _, _, _, _ => fun _ hb => absurd hb List.not_mem_nil
  | [_], _, _, _, heven => by simp at heven
  | high :: low :: bs, _, _, h, heven => by
    obtain ⟨_, _, bytes', hh, hl, hrest, -⟩ := pairs_cons_eq_ok_iff.mp h
    have hall : ∀ k : Fin 256, ∀ d ∈ Hex.digitValue? (Char.ofNat k), k < 128 := by decide +kernel
    have hlt : ∀ {b : UInt8} {d : Nat}, IsDigit 16 (Char.ofNat b.toNat) d → b.toNat < 128 :=
      fun {b d} hd => hall ⟨b.toNat, b.toNat_lt⟩ d (hexValue_eq_some_iff.mpr hd)
    rw [List.length_cons, List.length_cons] at heven
    rw [List.forall_mem_cons, List.forall_mem_cons]
    exact ⟨hlt hh, hlt hl, lt_of_pairs_eq_ok hrest (by omega)⟩

/-! ### Texts as bytes -/

theorem utf8_ofList (cs : List Char) :
    Utf8.encode (String.ofList cs) = cs.flatMap String.utf8EncodeChar := by
  unfold Utf8.encode
  rw [String.toUTF8_eq_toByteArray, String.toByteArray_ofList, List.utf8Encode,
    List.toList_data_toByteArray]

theorem utf8EncodeChar_of_lt (hc : c.toNat < 128) : String.utf8EncodeChar c = [c.toUInt8] := by
  have hle : c.val.toNat ≤ 127 := Nat.le_of_lt_succ hc
  unfold String.utf8EncodeChar
  simp only [if_pos hle]
  rfl

/-- A character beyond ASCII starts with a byte that is none. -/
theorem exists_byte_of_le (hc : 128 ≤ c.toNat) : ∃ b ∈ String.utf8EncodeChar c, 128 ≤ b.toNat := by
  have hgt : ¬ c.val.toNat ≤ 127 := Nat.not_le.mpr hc
  unfold String.utf8EncodeChar
  simp only [if_neg hgt]
  split
  · refine ⟨_, List.mem_cons_self, ?_⟩
    rw [UInt8.toNat_ofNat']
    omega
  split
  · refine ⟨_, List.mem_cons_self, ?_⟩
    rw [UInt8.toNat_ofNat']
    omega
  · refine ⟨_, List.mem_cons_self, ?_⟩
    rw [UInt8.toNat_ofNat']
    omega

theorem utf8_of_ascii (hascii : ∀ c ∈ cs, c.toNat < 128) :
    cs.flatMap String.utf8EncodeChar = cs.map Char.toUInt8 := by
  rw [List.flatMap_congr fun c hc => utf8EncodeChar_of_lt (hascii c hc), ← List.map_eq_flatMap]

/-- **A text is read as the bytes that its digit pairs spell.** If the bytes of the text are digits,
then it has no character beyond ASCII, and its bytes are its characters. -/
theorem decode_utf8_eq_ok_iff :
    Hex.decode (Utf8.encode (String.ofList cs)) = .ok bytes ↔ Pairs cs bytes := by
  rw [utf8_ofList]
  unfold Hex.decode
  constructor
  · intro h
    split at h
    · cases h
    rename_i heven
    have heven : (cs.flatMap String.utf8EncodeChar).length % 2 = 0 := by omega
    have hascii : ∀ c ∈ cs, c.toNat < 128 := by
      intro c hc
      by_contra hge
      obtain ⟨b, hb, hlarge⟩ := exists_byte_of_le (Nat.le_of_not_lt hge)
      have hsmall := lt_of_pairs_eq_ok h heven b (List.mem_flatMap.mpr ⟨c, hc, hb⟩)
      omega
    rw [utf8_of_ascii hascii] at h heven
    rw [List.length_map] at heven
    exact (pairs_map_eq_ok_iff 0 hascii heven).mp h
  · intro h
    have hlength := h.length
    have hascii : ∀ c ∈ cs, c.toNat < 128 := by
      intro c hc
      obtain ⟨d, hd⟩ := h.isDigit_of_mem c hc
      exact hd.toNat_lt
    rw [utf8_of_ascii hascii, List.length_map, if_neg (by omega)]
    exact (pairs_map_eq_ok_iff 0 hascii (by omega)).mpr h

/-! ### Separators -/

/-- The code points of white space. -/
def whiteSpace : List Nat :=
  [0x9, 0xA, 0xB, 0xC, 0xD, 0x20, 0x85, 0xA0, 0x1680, 0x2000, 0x2001, 0x2002, 0x2003, 0x2004,
   0x2005, 0x2006, 0x2007, 0x2008, 0x2009, 0x200A, 0x2028, 0x2029, 0x202F, 0x205F, 0x3000]

/-- White space and the colon separate digits. -/
def Separates (c : Char) : Prop := c = ':' ∨ c.toNat ∈ whiteSpace

instance (c : Char) : Decidable (Separates c) := inferInstanceAs (Decidable (_ ∨ _))

/-- The characters of a text that are no separators. -/
def withoutSeparators (text : List Char) : List Char := text.filter fun c => ¬ Separates c

/-- **Separators stand anywhere** between the characters of a text. -/
inductive Interspersed : List Char → List Char → Prop
  | nil : Interspersed [] []
  | keep (c : Char) {cs text : List Char} (h : Interspersed cs text) :
      Interspersed (c :: cs) (c :: text)
  | separator {c : Char} {cs text : List Char} (hc : Separates c) (h : Interspersed cs text) :
      Interspersed cs (c :: text)

theorem isSeparator_iff : ByteString.isSeparator c = true ↔ Separates c := by
  unfold ByteString.isSeparator Separates Space.isSpace Space.ranges whiteSpace
  simp only [Bool.or_eq_true, beq_iff_eq, List.any_cons, List.any_nil, Bool.or_false,
    Bool.and_eq_true, decide_eq_true_eq, List.mem_cons, List.not_mem_nil, or_false]
  refine or_congr_right ?_
  omega

theorem compact_eq (text : String) :
    ByteString.compact text = String.ofList (withoutSeparators text.toList) := by
  unfold ByteString.compact withoutSeparators
  refine congrArg String.ofList (List.filter_congr fun c _ => ?_)
  by_cases hc : Separates c
  · rw [isSeparator_iff.mpr hc, decide_eq_false (not_not_intro hc)]
    rfl
  · rw [eq_false_of_ne_true (mt isSeparator_iff.mp hc), decide_eq_true hc]
    rfl

theorem not_separates_of_isDigit {d : Nat} (h : IsDigit base c d) : ¬ Separates c := by
  have hlower : lowerAlphabet.all (fun c => ¬ Separates c) = true := by decide
  have hupper : upperAlphabet.all (fun c => ¬ Separates c) = true := by decide
  rcases h.2 with h | h
  · exact of_decide_eq_true (List.all_eq_true.mp hlower c (List.mem_of_getElem? h))
  · exact of_decide_eq_true (List.all_eq_true.mp hupper c (List.mem_of_getElem? h))

theorem withoutSeparators_of_interspersed (h : Interspersed cs text)
    (hcs : ∀ c ∈ cs, ¬ Separates c) : withoutSeparators text = cs := by
  unfold withoutSeparators
  induction h with
  | nil => rfl
  | keep c _ ih =>
    obtain ⟨hc, hcs⟩ := List.forall_mem_cons.mp hcs
    rw [List.filter_cons_of_pos (by simpa using hc), ih hcs]
  | separator hc _ ih =>
    rw [List.filter_cons_of_neg (by simpa using hc), ih hcs]

theorem parse_eq_ok_iff {text : String} :
    ByteString.parse text = .ok bytes ↔ Pairs (withoutSeparators text.toList) bytes := by
  unfold ByteString.parse
  rw [compact_eq, decode_utf8_eq_ok_iff]

theorem parse_of_interspersed {text : String} (hpairs : Pairs digits bytes)
    (h : Interspersed digits text.toList) : ByteString.parse text = .ok bytes := by
  have hdigits : ∀ c ∈ digits, ¬ Separates c := by
    intro c hc
    obtain ⟨d, hd⟩ := hpairs.isDigit_of_mem c hc
    exact not_separates_of_isDigit hd
  rw [parse_eq_ok_iff, withoutSeparators_of_interspersed h hdigits]
  exact hpairs

/-- **Addresses and byte strings are read from exactly the texts that spell them.** A text is the
address `n` if and only if it is a run of digits of base ten, or a mark of base sixteen and a run of
digits of either case, with a plus sign in front of the digits if wanted, and they spell `n`, which
is below `2 ^ 64`. A text is a byte string if and only if an even number of digits of base sixteen
is left of it without white space and colons, and its bytes are those that the pairs of them spell.
So every byte string is read back from its digits in whatever case, with separators put in
anywhere. -/
theorem spelled_texts_are_read (text : String) :
    (∀ n, address? text = some n ↔ SpellsAddress text.toList n) ∧
    (∀ bytes, ByteString.parse text = .ok bytes ↔
      Pairs (withoutSeparators text.toList) bytes) ∧
    ((∃ bytes, ByteString.parse text = .ok bytes) ↔
      (∀ c ∈ withoutSeparators text.toList, ∃ d, IsDigit 16 c d) ∧
        (withoutSeparators text.toList).length % 2 = 0) ∧
    (∀ bytes digits, Pairs digits bytes → Interspersed digits text.toList →
      ByteString.parse text = .ok bytes) ∧
    ∀ bytes, Pairs (Hex.encode bytes) bytes := by
  refine ⟨fun n => address?_eq_some_iff, fun bytes => parse_eq_ok_iff, ?_, ?_, pairs_encode⟩
  · simp only [parse_eq_ok_iff]
    exact exists_pairs_iff
  · intro bytes digits hpairs h
    exact parse_of_interspersed hpairs h

/-- An address with a mark, a sign and leading zeros is read, and so are two bytes with separators
between the digits of each. -/
theorem marked_and_separated_read :
    SpellsAddress "0X+00fF".toList 255 ∧ address? "0X+00fF" = some 255 ∧
      Pairs "420A".toList [0x42, 0x0A] ∧ Interspersed "420A".toList "4 :2\u00a00\tA".toList ∧
      ByteString.parse "4 :2\u00a00\tA" = .ok [0x42, 0x0A] := by
  have hvalues : List.Forall₂ (IsDigit 16) "00fF".toList [0, 0, 15, 15] :=
    .cons ⟨by decide, .inl rfl⟩ (.cons ⟨by decide, .inl rfl⟩
      (.cons ⟨by decide, .inl rfl⟩ (.cons ⟨by decide, .inr rfl⟩ .nil)))
  have haddress : SpellsAddress "0X+00fF".toList 255 :=
    .hexadecimal (.inr rfl) (.inr rfl) ⟨by decide, _, hvalues, by decide⟩ (by decide)
  have hpairs : Pairs "420A".toList [0x42, 0x0A] :=
    .cons (h := 4) (l := 2) ⟨by decide, .inl rfl⟩ ⟨by decide, .inl rfl⟩
      (.cons (h := 0) (l := 10) ⟨by decide, .inl rfl⟩ ⟨by decide, .inr rfl⟩ .nil)
  have hseparated : Interspersed "420A".toList "4 :2\u00a00\tA".toList :=
    .keep '4' (.separator (by decide) (.separator (by decide) (.keep '2' (.separator (by decide)
      (.keep '0' (.separator (by decide) (.keep 'A' .nil)))))))
  obtain ⟨hread, -, -, -, -⟩ := spelled_texts_are_read "0X+00fF"
  obtain ⟨-, -, -, hparse, -⟩ := spelled_texts_are_read "4 :2\u00a00\tA"
  exact ⟨haddress, (hread 255).mpr haddress, hpairs, hseparated, hparse _ _ hpairs hseparated⟩

end DoublingHeap.Proofs.Spelling
