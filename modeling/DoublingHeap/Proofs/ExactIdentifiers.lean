import DoublingHeap.Proofs.Classification
import DoublingHeap.Proofs.ExactHeaders

/-! # Which byte strings name a managed object

A byte string is the identifier of a managed object if it has the length of the layout, its first
byte has none of the four high bits, both widths are possible, and there is room for an offset and
a length (`SpellsManaged`). The two numbers are then those of the fields after the first byte
(`parse_eq_managed_iff`), and nothing else in the byte string matters. The widths that a header
declares are wide enough for every offset and every length in its heap (`nameable_of_read`), so an
identifier that is written for them is read back. -/

namespace DoublingHeap.Proofs.ExactIdentifiers

open DoublingHeap.Bytes.LittleEndian
open DoublingHeap.Proofs.Reading DoublingHeap.Proofs.Headers DoublingHeap.Proofs.Descent
open DoublingHeap.Proofs.Resolution DoublingHeap.Proofs.Classification
open DoublingHeap.Proofs.ExactHeaders

attribute [local instance (high)] instPowNat

variable {layout : Identifier.Layout} {address offset length : Nat} {raw rest : List UInt8}

/-! ### The grammar -/

/-- The byte string has the shape of the identifier of a managed object. -/
structure SpellsManaged (layout : Identifier.Layout) (raw : List UInt8) : Prop where
  length : raw.length = layout.idLength
  first : (raw.headD 0).toNat / 16 = 0
  offsetBytes : 1 ≤ layout.offsetBytes ∧ layout.offsetBytes ≤ 8
  lengthBytes : 1 ≤ layout.lengthBytes ∧ layout.lengthBytes ≤ 8
  room : 1 + layout.offsetBytes + layout.lengthBytes ≤ layout.idLength

theorem possible_of_place {place : Nat × Nat}
    (hread : (Identifier.placeReader layout).read address rest = .ok place) :
    Possible layout ∧ layout.offsetBytes + layout.lengthBytes ≤ rest.length := by
  obtain ⟨c, hstep⟩ := read_eq_ok_iff.mp hread
  unfold Identifier.placeReader at hstep
  obtain ⟨_, _, hoffset, hstep⟩ := Reader.step_bind_eq_ok.mp hstep
  obtain ⟨_, _, hlength, -⟩ := Reader.step_bind_eq_ok.mp hstep
  obtain ⟨ho, -, hp⟩ := step_uint_iff.mp hoffset
  obtain ⟨hl, -, hp'⟩ := step_uint_iff.mp hlength
  refine ⟨⟨ho, hl⟩, ?_⟩
  rw [(hp.append hp').eq_append, List.length_append, List.length_append, length_encode,
    length_encode]
  exact Nat.le_add_right ..

theorem place_of_managed (hid : HasMode layout raw 0 rest)
    (hparse : Identifier.parse raw layout address = .ok (.managed offset length)) :
    (Identifier.placeReader layout).read address rest = .ok (offset, length) := by
  obtain ⟨hlen, flags, rfl, hversion, hmode⟩ := hid
  unfold Identifier.parse at hparse
  simp only [hlen, versionOf_eq, hversion, modeOf_eq, hmode, ne_eq, not_true_eq_false,
    if_false] at hparse
  split at hparse
  · rename_i hread
    cases hparse
    exact hread
  · cases hparse

theorem hasMode_of_managed
    (hparse : Identifier.parse raw layout address = .ok (.managed offset length)) :
    ∃ rest, HasMode layout raw 0 rest := by
  unfold Identifier.parse at hparse
  split at hparse
  · cases hparse
  rename_i hlen
  rw [Decidable.not_not] at hlen
  split at hparse
  · cases hparse
  rename_i flags rest
  split at hparse
  · cases hparse
  rename_i hversion
  rw [Decidable.not_not, versionOf_eq] at hversion
  split at hparse
  · rename_i hmode
    exact ⟨rest, hlen, flags, rfl, hversion, (modeOf_eq flags).symm.trans hmode⟩
  · cases hparse
  · cases hparse
  · cases hparse

/-- **A managed object is named** exactly by the byte strings of its shape, and offset and length
are the numbers of their fields. -/
theorem parse_eq_managed_iff :
    Identifier.parse raw layout address = .ok (.managed offset length) ↔
      SpellsManaged layout raw ∧
        offset = decode ((raw.drop 1).take layout.offsetBytes) ∧
        length = decode ((raw.drop (1 + layout.offsetBytes)).take layout.lengthBytes) := by
  have hlengthIn : lengthIn layout (raw.drop 1)
      = decode ((raw.drop (1 + layout.offsetBytes)).take layout.lengthBytes) := by
    unfold lengthIn
    rw [List.drop_drop]
  rw [← hlengthIn]
  constructor
  · intro hparse
    obtain ⟨rest, hid⟩ := hasMode_of_managed hparse
    obtain ⟨hpossible, hroom⟩ := possible_of_place (place_of_managed hid hparse)
    have hmanaged := hid
    obtain ⟨hlen, flags, rfl, hversion, hmode⟩ := hid
    have hlong : 1 + layout.offsetBytes + layout.lengthBytes ≤ layout.idLength := by
      rw [List.length_cons] at hlen
      omega
    rw [parse_of_long hpossible hmanaged hlong] at hparse
    cases hparse
    have hfirst : flags.toNat / 16 = 0 := by omega
    exact ⟨⟨hlen, hfirst, hpossible.offsetBytes, hpossible.lengthBytes, hlong⟩, rfl, rfl⟩
  · rintro ⟨⟨hlen, hfirst, ho, hl, hroom⟩, rfl, rfl⟩
    cases raw with
    | nil =>
      rw [List.length_nil] at hlen
      omega
    | cons flags rest =>
      have hfirst : flags.toNat / 16 = 0 := hfirst
      have hid : HasMode layout (flags :: rest) 0 rest :=
        ⟨hlen, flags, rfl, by omega, by rw [hfirst]⟩
      exact parse_of_long ⟨ho, hl⟩ hid hroom

/-- **Nothing else matters**: not the four low bits of the first byte, and not the bytes after the
length. -/
theorem parse_managed_congr {raw' : List UInt8} (hlen : raw'.length = raw.length)
    (hfirst : (raw'.headD 0).toNat / 16 = (raw.headD 0).toNat / 16)
    (hfields : (raw'.drop 1).take (layout.offsetBytes + layout.lengthBytes)
      = (raw.drop 1).take (layout.offsetBytes + layout.lengthBytes)) :
    Identifier.parse raw' layout address = .ok (.managed offset length) ↔
      Identifier.parse raw layout address = .ok (.managed offset length) := by
  have hoffset : (raw'.drop 1).take layout.offsetBytes = (raw.drop 1).take layout.offsetBytes := by
    have htake := congrArg (List.take layout.offsetBytes) hfields
    rwa [List.take_take, List.take_take, Nat.min_eq_left (Nat.le_add_right ..)] at htake
  have hlength : (raw'.drop (1 + layout.offsetBytes)).take layout.lengthBytes
      = (raw.drop (1 + layout.offsetBytes)).take layout.lengthBytes := by
    have hdrop := congrArg (List.drop layout.offsetBytes) hfields
    rwa [List.drop_take, List.drop_take, List.drop_drop, List.drop_drop,
      Nat.add_sub_cancel_left] at hdrop
  have hspells : SpellsManaged layout raw' ↔ SpellsManaged layout raw := by
    constructor
    · rintro ⟨h1, h2, h3, h4, h5⟩
      exact ⟨hlen ▸ h1, hfirst ▸ h2, h3, h4, h5⟩
    · rintro ⟨h1, h2, h3, h4, h5⟩
      exact ⟨hlen.trans h1, hfirst.trans h2, h3, h4, h5⟩
  rw [parse_eq_managed_iff, parse_eq_managed_iff, hoffset, hlength, hspells]

/-! ### Identifiers at the widths of a header -/

theorem parse_written {low : UInt8} {padding : List UInt8} (address : Nat)
    (hn : Nameable layout offset length) (hlow : low.toNat < 16)
    (hlen : 1 + layout.offsetBytes + layout.lengthBytes + padding.length = layout.idLength) :
    Identifier.parse (low :: (encode layout.offsetBytes offset ++ encode layout.lengthBytes length
      ++ padding)) layout address = .ok (.managed offset length) := by
  have hfirst : low.toNat / 16 = (0 : UInt8).toNat / 16 := Nat.div_eq_of_lt hlow
  refine (parse_managed_congr ?_ ?_ ?_).mpr (parse_encodeManaged address padding hn hlen)
  · rfl
  · exact hfirst
  · rfl

/-- **The widths of a header suffice** for the offsets in its address space and for the lengths of
the objects that a direct block holds. -/
theorem nameable_of_read {image : Image} {s : Superblock} {t : Level} {h : Header} (idLength : Nat)
    (hread : (Header.read image s address).result t = .ok h)
    (hoffset : offset < 2 ^ h.fields.maxHeapBits)
    (hlength : length ≤ min h.fields.maxDirectBlockSize h.fields.maxManagedSize) :
    Nameable ⟨idLength, h.offsetBytes, h.lengthBytes⟩ offset length := by
  obtain ⟨hob, hlb⟩ := widths_of_read hread
  obtain ⟨_, -, -, -, hof⟩ := readHeader_eq_ok_iff.mp hread
  refine ⟨offsetBytes_possible hof, ?_, ?_, ?_⟩
  · rw [hlb]
    exact lengthBytes_possible (fits_of_read hread)
  · have hbits : h.fields.maxHeapBits ≤ 8 * h.offsetBytes := by
      rw [hob]
      unfold Header.Fields.offsetBytes
      omega
    have hpow : (256 : Nat) ^ h.offsetBytes = 2 ^ (8 * h.offsetBytes) := by rw [Nat.pow_mul]
    show offset < 256 ^ h.offsetBytes
    rw [hpow]
    exact Nat.lt_of_lt_of_le hoffset (Nat.pow_le_pow_right (by decide) hbits)
  · show length < 256 ^ h.lengthBytes
    rw [hlb]
    exact Nat.lt_of_le_of_lt hlength (lt_pow_bytesNeeded _)

/-- **Managed identifiers are parsed exactly.** For every layout and every byte string, a managed
object is named if and only if the byte string has the length of the layout, the four high bits of
its first byte are zero, both widths are between one and eight, and there is room for both fields,
of which offset and length are then the numbers. The four low bits of the first byte and the bytes
after the length make no difference. For every header that is read and has room, every offset in its
address space and every length of an object that a direct block holds are read back from the
identifier that is written for them, whatever stands in those bits and bytes. -/
theorem managed_identifier_exact :
    (∀ (layout : Identifier.Layout) (raw : List UInt8) (address offset length : Nat),
      Identifier.parse raw layout address = .ok (.managed offset length) ↔
        SpellsManaged layout raw ∧
          offset = decode ((raw.drop 1).take layout.offsetBytes) ∧
          length = decode ((raw.drop (1 + layout.offsetBytes)).take layout.lengthBytes)) ∧
    (∀ (layout : Identifier.Layout) (raw raw' : List UInt8) (address offset length : Nat),
      raw'.length = raw.length → (raw'.headD 0).toNat / 16 = (raw.headD 0).toNat / 16 →
      (raw'.drop 1).take (layout.offsetBytes + layout.lengthBytes)
        = (raw.drop 1).take (layout.offsetBytes + layout.lengthBytes) →
      (Identifier.parse raw' layout address = .ok (.managed offset length) ↔
        Identifier.parse raw layout address = .ok (.managed offset length))) ∧
    ∀ (image : Image) (s : Superblock) (address : Nat) (t : Level) (h : Header),
      (Header.read image s address).result t = .ok h →
      ∀ offset length, offset < 2 ^ h.fields.maxHeapBits →
        length ≤ min h.fields.maxDirectBlockSize h.fields.maxManagedSize →
      ∀ (low : UInt8) (padding : List UInt8), low.toNat < 16 →
        1 + h.offsetBytes + h.lengthBytes + padding.length = h.fields.idLength →
        Identifier.parse
            (low :: (encode h.offsetBytes offset ++ encode h.lengthBytes length ++ padding))
            ⟨h.fields.idLength, h.offsetBytes, h.lengthBytes⟩ address
          = .ok (.managed offset length) := by
  refine ⟨fun _ _ _ _ _ => parse_eq_managed_iff, fun _ _ _ _ _ _ => parse_managed_congr, ?_⟩
  intro image s address t h hread offset length hoffset hlength low padding hlow hroom
  exact parse_written address (nameable_of_read _ hread hoffset hlength) hlow hroom

/-- The header of a heap, and nothing else. -/
def headerOnly : Image := .ofList ((smallHeader 41 3).fields.encode narrow)

/-- The last offset and the longest length of a heap are read back, with other low bits. -/
theorem last_place_read :
    (Header.read headerOnly narrow 0).result .trace = .ok (smallHeader 41 3) ∧
      255 < 2 ^ (smallHeader 41 3).fields.maxHeapBits ∧
      Identifier.parse [0x0F, 0xFF, 8] ⟨3, 1, 1⟩ 0 = .ok (.managed 255 8) := by
  have hread : (Header.read headerOnly narrow 0).result .trace = .ok (smallHeader 41 3) := rfl
  have hoffset : 255 < 2 ^ (smallHeader 41 3).fields.maxHeapBits := by decide
  exact ⟨hread, hoffset, managed_identifier_exact.2.2 _ narrow 0 .trace _ hread 255 8 hoffset
    (by decide) 0x0F [] (by decide) (by decide)⟩

end DoublingHeap.Proofs.ExactIdentifiers
