import DoublingHeap.Proofs.Checks
import DoublingHeap.Proofs.Headers
import DoublingHeap.Proofs.Descent

/-! # Which bytes are a header

The fields of a header stand at fixed positions of its record (`fieldsAt`). A record that begins
with the signature and the version is the encoding of these fields (`holds_fieldsAt`), and the
header is read if they are admissible (`Admissible`); otherwise the first condition that does not
hold is the error (`readHeader_eq`). The widths that follow from the fields are the least that hold
what they are for (`widths_of_read`, `lt_pow_iff_bytesNeeded_le`). -/

namespace DoublingHeap.Proofs.ExactHeaders

open DoublingHeap.Bytes.LittleEndian
open DoublingHeap.Proofs.Reading DoublingHeap.Proofs.Blocks DoublingHeap.Proofs.Headers
open DoublingHeap.Proofs.Checks DoublingHeap.Proofs.Descent

attribute [local instance (high)] instPowNat

variable {image : Image} {s : Superblock} {f : Header.Fields} {address : Nat} {t : Level}

/-! ### The fields of a record -/

/-- The fields of the header record at an address, each at its position. -/
def fieldsAt (image : Image) (s : Superblock) (address : Nat) : Header.Fields :=
  let l := s.lengthWidth
  let o := s.offsetWidth
  let number (position width : Nat) : Nat := numberAt image (address + position) width
  { idLength := number 5 2
    filtersLength := number 7 2
    flags := UInt8.ofNat (number 9 1)
    maxManagedSize := number 10 4
    nextHugeId := number 14 l
    hugeTreeAddress := number (14 + l) o
    freeSpace := number (14 + l + o) l
    freeSpaceManagerAddress := number (14 + 2 * l + o) o
    managedSpace := number (14 + 2 * l + 2 * o) l
    allocatedSpace := number (14 + 3 * l + 2 * o) l
    allocationOffset := number (14 + 4 * l + 2 * o) l
    managedObjects := number (14 + 5 * l + 2 * o) l
    hugeObjectSize := number (14 + 6 * l + 2 * o) l
    hugeObjects := number (14 + 7 * l + 2 * o) l
    tinyObjectSize := number (14 + 8 * l + 2 * o) l
    tinyObjects := number (14 + 9 * l + 2 * o) l
    tableWidth := number (14 + 10 * l + 2 * o) 2
    startingBlockSize := number (16 + 10 * l + 2 * o) l
    maxDirectBlockSize := number (16 + 11 * l + 2 * o) l
    maxHeapBits := number (16 + 12 * l + 2 * o) 2
    startingRows := number (18 + 12 * l + 2 * o) 2
    rootAddress := number (20 + 12 * l + 2 * o) o
    rootRows := number (20 + 12 * l + 3 * o) 2 }

theorem fits_fieldsAt (image : Image) (s : Superblock) (address : Nat) :
    Fits s (fieldsAt image s address) := by
  unfold Fits
  simp only [Header.Fields.layout, List.forall_mem_cons, fieldsAt, numberAt_lt, true_and]
  exact ⟨by decide, UInt8.toNat_lt _, fun _ hp => absurd hp List.not_mem_nil⟩

/-- **A record with signature and version** is the encoding of the fields at their positions. -/
theorem holds_fieldsAt (hn : address + Header.encodedLength s ≤ image.size)
    (hsignature : bytesAt image address 4 = Header.signature)
    (hversion : numberAt image (address + 4) 1 = 0) :
    Holds image address ((fieldsAt image s address).encode s) := by
  unfold Header.encodedLength at hn
  have field : ∀ {a b w : Nat}, b = a → a + w ≤ image.size →
      Holds image b (encode w (numberAt image a w)) := by
    rintro a _ w rfl hw
    rw [encode_numberAt hw]
    exact holds_bytesAt hw
  have hlength : Header.signature.length = 4 := rfl
  have hzero : Header.version = numberAt image (address + 4) 1 := hversion.symm
  have hflags : (fieldsAt image s address).flags.toNat = numberAt image (address + 9) 1 := by
    refine UInt8.toNat_ofNat_of_lt' ?_
    exact numberAt_lt image (address + 9) 1
  unfold Header.Fields.encode
  simp only [Header.Fields.layout, List.flatMap_cons, List.flatMap_nil, holds_append_iff,
    length_encode, hlength, hzero, hflags]
  refine ⟨?_, field (by omega) (by omega), ?_⟩
  · rw [← hsignature]
    exact holds_bytesAt (by omega)
  -- one field after the other, in stored order
  refine ⟨?_, ?_, ?_, ?_, ?_, ?_, ?_, ?_, ?_, ?_, ?_, ?_, ?_, ?_, ?_, ?_, ?_, ?_, ?_, ?_, ?_, ?_,
    ?_, ⟨by rw [List.length_nil]; omega, rfl⟩⟩
  all_goals exact field (by omega) (by omega)

/-! ### The conditions on the fields -/

/-- The fields are those of a heap without filters, with a table and an address space. -/
structure Admissible (f : Header.Fields) : Prop where
  filters : f.filtersLength = 0
  width : f.tableWidth.isPowerOfTwo
  start : f.startingBlockSize.isPowerOfTwo
  maxDirect : f.maxDirectBlockSize.isPowerOfTwo
  maxHeapBits : 1 ≤ f.maxHeapBits ∧ f.maxHeapBits ≤ 64

/-- The checks of the fields of a header, in order. -/
def fieldChecks (address : Nat) (f : Header.Fields) : List Check :=
  [⟨f.filtersLength = 0, .feature address .filters⟩,
   ⟨f.tableWidth.isPowerOfTwo, .malformed address (.tableParameter (.width f.tableWidth))⟩,
   ⟨f.startingBlockSize.isPowerOfTwo,
     .malformed address (.tableParameter (.startingSize f.startingBlockSize))⟩,
   ⟨f.maxDirectBlockSize.isPowerOfTwo,
     .malformed address (.tableParameter (.maxDirectSize f.maxDirectBlockSize))⟩,
   ⟨f.maxHeapBits ≤ 64, .malformed address (.tableParameter (.maxHeapBits f.maxHeapBits))⟩,
   ⟨1 ≤ f.maxHeapBits, .malformed address .noAddressSpace⟩]

theorem admissible_iff : (∀ c ∈ fieldChecks address f, c.condition) ↔ Admissible f := by
  simp only [fieldChecks, List.forall_mem_cons]
  constructor
  · rintro ⟨hfilters, hwidth, hstart, hdirect, hle, hpos, -⟩
    exact ⟨hfilters, hwidth, hstart, hdirect, hpos, hle⟩
  · rintro ⟨hfilters, hwidth, hstart, hdirect, hpos, hle⟩
    exact ⟨hfilters, hwidth, hstart, hdirect, hle, hpos, fun _ hc => absurd hc List.not_mem_nil⟩

theorem exponent?_of_isPowerOfTwo {bits n : Nat} (hn : n < 2 ^ bits) (h : n.isPowerOfTwo) :
    ∃ e, DoublingTable.exponent? bits n = some e := by
  obtain ⟨e, rfl⟩ := h
  have he : e < bits := (Nat.pow_lt_pow_iff_right (by decide)).mp hn
  exact ⟨⟨e, he⟩, DoublingTable.exponent?_eq_some_iff.mpr rfl⟩

theorem exponent?_of_not_isPowerOfTwo {bits n : Nat} (h : ¬ n.isPowerOfTwo) :
    DoublingTable.exponent? bits n = none := by
  cases he : DoublingTable.exponent? bits n with
  | none => rfl
  | some e => exact absurd ⟨e.1, DoublingTable.exponent?_eq_some_iff.mp he⟩ h

/-- **The header with given fields** is decided by the checks of the fields. -/
theorem ofFields_eq (s : Superblock) (hwidth : f.tableWidth < 2 ^ 16)
    (hstart : f.startingBlockSize < 2 ^ 64) (hdirect : f.maxDirectBlockSize < 2 ^ 64) :
    (Header.ofFields s address f).map Header.fields = judge (fieldChecks address f) f := by
  unfold Header.ofFields DoublingTable.ofParameters fieldChecks
  refine judge_cons (fun hfilters => ?_) fun hfilters => ?_
  · rw [if_pos (Nat.pos_of_ne_zero hfilters)]
    rfl
  rw [if_neg (by omega)]
  refine judge_cons (fun h => ?_) fun h => ?_
  · rw [exponent?_of_not_isPowerOfTwo h]
    rfl
  obtain ⟨w, hw⟩ := exponent?_of_isPowerOfTwo hwidth h
  refine judge_cons (fun h => ?_) fun h => ?_
  · rw [hw, exponent?_of_not_isPowerOfTwo h]
    rfl
  obtain ⟨b, hb⟩ := exponent?_of_isPowerOfTwo hstart h
  refine judge_cons (fun h => ?_) fun h => ?_
  · rw [hw, hb, exponent?_of_not_isPowerOfTwo h]
    rfl
  obtain ⟨d, hd⟩ := exponent?_of_isPowerOfTwo hdirect h
  rw [hw, hb, hd]
  refine judge_cons (fun hbits => ?_) fun hbits => ?_
  · simp only [dif_neg hbits]
    rfl
  simp only [dif_pos hbits]
  refine judge_cons (fun hpos => ?_) fun hpos => ?_
  · have hspace : f.offsetBytes = 0 := by unfold Header.Fields.offsetBytes; omega
    simp only [if_pos hspace]
    rfl
  · have hspace : f.offsetBytes ≠ 0 := by unfold Header.Fields.offsetBytes; omega
    simp only [if_neg hspace]
    rfl

/-! ### Reading -/

/-- The checks of a header, in order. -/
def headerChecks (image : Image) (s : Superblock) (address : Nat) : List Check :=
  ⟨address + Header.encodedLength s ≤ image.size, .input address (Header.encodedLength s)
      ⟨address, Header.encodedLength s, image.size⟩⟩
    :: signatureCheck image address Header.signature
    :: versionCheck image address .heap
    :: fieldChecks address (fieldsAt image s address)

theorem read_fields (hn : address + Header.encodedLength s ≤ image.size) :
    (Header.Fields.reader s).read address (bytesAt image address (Header.encodedLength s))
      = judge [signatureCheck image address Header.signature, versionCheck image address .heap]
          (fieldsAt image s address) := by
  have hlong : 5 ≤ Header.encodedLength s := by
    unfold Header.encodedLength
    omega
  have hmarks := judges_marks Header.signature .heap hn hlong
  cases hC : refusal?
      [signatureCheck image address Header.signature, versionCheck image address .heap] with
  | some e =>
    rw [judge_eq_error_iff.mpr hC]
    unfold Header.Fields.reader
    rw [← bind_assoc]
    exact hmarks.refused hC
  | none =>
    have hall := refusal?_eq_none_iff.mp hC
    simp only [List.forall_mem_cons] at hall
    have hheld := holds_fieldsAt hn hall.1 hall.2.1
    have hread := (readsBack_fields (fits_fieldsAt image s address)).read address []
    rw [List.append_nil, ← bytesAt_of_holds hheld (Header.length_encode ..)] at hread
    rw [hread, eq_comm, judge_eq_ok_iff, ← refusal?_eq_none_iff]
    exact ⟨hC, rfl⟩

/-- **A header is read** exactly as its checks decide. -/
theorem readHeader_eq (image : Image) (s : Superblock) (address : Nat) (t : Level) :
    ((Header.read image s address).result t).map Header.fields
      = judge (headerChecks image s address) (fieldsAt image s address) := by
  have hword : ∀ a, numberAt image a s.lengthWidth < 2 ^ 64 := fun a =>
    Nat.lt_of_lt_of_le (numberAt_lt ..) (Nat.pow_le_pow_right (by decide) s.lengthWidth_le)
  have hof : (Header.ofFields s address (fieldsAt image s address)).map Header.fields
      = judge (fieldChecks address (fieldsAt image s address)) (fieldsAt image s address) :=
    ofFields_eq s (numberAt_lt _ _ 2) (hword _) (hword _)
  unfold Header.read
  simp only [Logged.result_bind, result_lift, readRecord_eq, map_bind]
  refine judge_bind (D := _ :: _ :: fieldChecks address (fieldsAt image s address)) fun hrange => ?_
  rw [read_fields (hrange _ (List.mem_cons_self ..))]
  refine judge_bind fun _ => Eq.trans ?_ hof
  cases Header.ofFields s address (fieldsAt image s address) <;> rfl

theorem address_of_headerChecks :
    ∀ c ∈ headerChecks image s address, c.error.address = address := by
  simp only [headerChecks, fieldChecks, List.forall_mem_cons]
  exact ⟨rfl, rfl, rfl, rfl, rfl, rfl, rfl, rfl, rfl, fun _ hc => absurd hc List.not_mem_nil⟩

theorem kind_of_headerChecks {e : HeapError}
    (h : refusal? (headerChecks image s address) = some e) :
    e.kind =
      if ¬ address + Header.encodedLength s ≤ image.size then .input
      else if ¬ bytesAt image address 4 = Header.signature then .signatureMismatch
      else if ¬ numberAt image (address + 4) 1 = 0 then .unsupportedVersion
      else if ¬ (fieldsAt image s address).filtersLength = 0 then .unsupportedFeature
      else .malformed := by
  refine kind_of_refusal? h fun h => kind_of_refusal? h fun h => kind_of_refusal? h fun h =>
    kind_of_refusal? h fun h => ?_
  obtain ⟨c, hc, rfl⟩ := mem_of_refusal? h
  simp only [List.mem_cons, List.not_mem_nil, or_false] at hc
  rcases hc with rfl | rfl | rfl | rfl | rfl <;> rfl

variable {h : Header}

theorem exists_read_iff : (∃ h, (Header.read image s address).result t = .ok h) ↔
    address + Header.encodedLength s ≤ image.size ∧
      bytesAt image address 4 = Header.signature ∧ numberAt image (address + 4) 1 = 0 ∧
        Admissible (fieldsAt image s address) := by
  rw [exists_ok_iff (readHeader_eq image s address t)]
  simp only [headerChecks, List.forall_mem_cons, admissible_iff, signatureCheck, versionCheck]

theorem fieldsAt_of_holds (hf : Fits s f) (hh : Holds image address (f.encode s)) :
    fieldsAt image s address = f ∧ bytesAt image address 4 = Header.signature ∧
      numberAt image (address + 4) 1 = 0 := by
  have hrange : address + Header.encodedLength s ≤ image.size := by
    rw [← Header.length_encode s f]
    exact hh.1
  have hread := (readsBack_fields hf).read address []
  rw [List.append_nil, ← bytesAt_of_holds hh (Header.length_encode s f), read_fields hrange,
    judge_eq_ok_iff] at hread
  obtain ⟨hmarks, heq⟩ := hread
  simp only [List.forall_mem_cons] at hmarks
  exact ⟨heq, hmarks.1, hmarks.2.1⟩

/-! ### The widths of offsets and lengths -/

theorem widths_of_read (hread : (Header.read image s address).result t = .ok h) :
    h.offsetBytes = h.fields.offsetBytes ∧ h.lengthBytes = h.fields.lengthBytes := by
  obtain ⟨_, -, -, -, hof⟩ := readHeader_eq_ok_iff.mp hread
  have heq := (ofFields_eq_ok_iff.mp hof).2.2.2
  exact ⟨congrArg Header.offsetBytes heq, congrArg Header.lengthBytes heq⟩

/-- Lengths of objects take no more than four bytes, as the longest object is stored in four. -/
theorem lengthBytes_le (hf : Fits s f) : f.lengthBytes ≤ 4 := by
  have hmanaged := hf.maxManagedSize
  refine (lt_pow_iff_bytesNeeded_le (by decide)).mp ?_
  omega

/-- **The header codec is exact.** A header is read at an address if and only if all bytes of its
record lie in the image, it begins with the signature and the version zero, and the fields at their
positions are admissible. The first of these conditions that does not hold tells the kind of the
error, which is at the address of the header. The fields of a header that is read encode to its
record, and admissible fields that fit are read back from their encoding. Heap offsets take the
bytes that the bits of address space fill, and object lengths the least that hold the longest
object. -/
theorem header_codec_exact (image : Image) (s : Superblock) (address : Nat) (t : Level) :
    ((∃ h, (Header.read image s address).result t = .ok h) ↔
      address + (12 * s.lengthWidth + 3 * s.offsetWidth + 22) ≤ image.size ∧
        bytesAt image address 4 = [0x46, 0x52, 0x48, 0x50] ∧
        numberAt image (address + 4) 1 = 0 ∧ Admissible (fieldsAt image s address)) ∧
    (∀ e, (Header.read image s address).result t = .error e →
      e.address = address ∧ refusal? (headerChecks image s address) = some e ∧
      e.kind =
        if ¬ address + (12 * s.lengthWidth + 3 * s.offsetWidth + 22) ≤ image.size then .input
        else if ¬ bytesAt image address 4 = [0x46, 0x52, 0x48, 0x50] then .signatureMismatch
        else if ¬ numberAt image (address + 4) 1 = 0 then .unsupportedVersion
        else if ¬ (fieldsAt image s address).filtersLength = 0 then .unsupportedFeature
        else .malformed) ∧
    (∀ h, (Header.read image s address).result t = .ok h →
      h.fields = fieldsAt image s address ∧
      h.fields.encode s
        = bytesAt image address (12 * s.lengthWidth + 3 * s.offsetWidth + 22) ∧
      (1 ≤ h.offsetBytes ∧ h.offsetBytes ≤ 8 ∧ h.fields.maxHeapBits ≤ 8 * h.offsetBytes ∧
        8 * h.offsetBytes < h.fields.maxHeapBits + 8) ∧
      1 ≤ h.lengthBytes ∧ h.lengthBytes ≤ 4 ∧ ∀ w, 1 ≤ w →
        (min h.fields.maxDirectBlockSize h.fields.maxManagedSize < 256 ^ w ↔
          h.lengthBytes ≤ w)) ∧
    ∀ f, Fits s f → Admissible f → Holds image address (f.encode s) →
      ∃ h, (Header.read image s address).result t = .ok h ∧ h.fields = f := by
  have hlength : 12 * s.lengthWidth + 3 * s.offsetWidth + 22 = Header.encodedLength s := by
    unfold Header.encodedLength
    omega
  rw [hlength]
  refine ⟨exists_read_iff, fun e he => ?_, fun h hread => ?_, fun f hf ha hh => ?_⟩
  · have hrefused := refusal?_of_error (readHeader_eq image s address t) he
    exact ⟨address_of_refusal? address_of_headerChecks hrefused, hrefused,
      kind_of_headerChecks hrefused⟩
  · obtain ⟨-, hfields⟩ := conditions_of_ok (readHeader_eq image s address t) hread
    obtain ⟨hrange, hsignature, hversion, ha⟩ := exists_read_iff.mp ⟨h, hread⟩
    have hheld := holds_fieldsAt hrange hsignature hversion
    obtain ⟨hoffset, hlengthBytes⟩ := widths_of_read hread
    have hbits := ha.maxHeapBits
    rw [hfields] at hheld hbits
    refine ⟨hfields.symm, (bytesAt_of_holds hheld (Header.length_encode ..)).symm, ?_, ?_⟩
    · rw [hoffset]
      unfold Header.Fields.offsetBytes
      omega
    · rw [hlengthBytes]
      exact ⟨Nat.le_add_left .., lengthBytes_le (fits_of_read hread),
        fun w hw => lt_pow_iff_bytesNeeded_le hw⟩
  · obtain ⟨hfields, hsignature, hversion⟩ := fieldsAt_of_holds hf hh
    have hrange : address + Header.encodedLength s ≤ image.size := by
      rw [← Header.length_encode s f]
      exact hh.1
    obtain ⟨h, hread⟩ := exists_read_iff.mpr ⟨hrange, hsignature, hversion, hfields.symm ▸ ha⟩
    have hsame := (conditions_of_ok (readHeader_eq image s address t) hread).2
    exact ⟨h, hread, hsame.symm.trans hfields⟩

/-- Addresses of two bytes and lengths of one. -/
def wide : Superblock :=
  { narrow with
    offsetWidth := 2, offsetWidth_pos := Nat.le_succ 1, offsetWidth_le := Nat.le_add_left 2 6 }

/-- The fields of a header where one address needs both of its bytes. -/
def wideFields : Header.Fields := { (smallHeader 500 3).fields with hugeTreeAddress := 0xFFFF }

/-- A header whose two widths differ is read back field by field. -/
theorem wideFields_read :
    Fits wide wideFields ∧ Admissible wideFields ∧
      ∃ h, (Header.read (.ofList (7 :: wideFields.encode wide)) wide 1).result .trace = .ok h ∧
        h.fields = wideFields ∧ h.offsetBytes = 1 ∧ h.lengthBytes = 1 := by
  have hfits : Fits wide wideFields := by decide
  have hadmissible : Admissible wideFields :=
    ⟨rfl, ⟨0, rfl⟩, ⟨3, rfl⟩, ⟨4, rfl⟩, by decide⟩
  obtain ⟨-, -, hof, hback⟩ :=
    header_codec_exact (.ofList (7 :: wideFields.encode wide)) wide 1 .trace
  obtain ⟨h, hread, hfields⟩ := hback wideFields hfits hadmissible (by decide +kernel)
  obtain ⟨-, -, ⟨-, -, hle, hlt⟩, hpos, -, hleast⟩ := hof h hread
  have hbits : h.fields.maxHeapBits = 8 := congrArg Header.Fields.maxHeapBits hfields
  have hsmall : min h.fields.maxDirectBlockSize h.fields.maxManagedSize < 256 ^ 1 := by
    rw [hfields]
    decide
  have hone := (hleast 1 Nat.le.refl).mp hsmall
  exact ⟨hfits, hadmissible, h, hread, hfields, by omega, by omega⟩

end DoublingHeap.Proofs.ExactHeaders
