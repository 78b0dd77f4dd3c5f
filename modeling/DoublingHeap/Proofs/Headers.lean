import DoublingHeap.Proofs.Blocks
import DoublingHeap.Header

/-! # Headers in an image

A header that has been read knows its own address and superblock, and its table and widths follow
from its fields (`ofFields_eq_ok_iff`, `readHeader_eq_ok_iff`). Fields that fit their widths are
read back as they were written (`readsBack_fields`), so a header that an image holds is read
(`readHeader_of_holds`). No other bytes are read as these fields (`step_fields_iff`). -/

namespace DoublingHeap.Proofs.Headers

open DoublingHeap.Bytes.LittleEndian
open DoublingHeap.Proofs.Reading DoublingHeap.Proofs.Blocks

attribute [local instance (high)] instPowNat

variable {image : Image} {s : Superblock} {address : Nat} {t : Level}

theorem ofFields_eq_ok_iff {f : Header.Fields} {h : Header} :
    Header.ofFields s address f = .ok h ↔
      f.filtersLength = 0 ∧ f.offsetBytes ≠ 0 ∧
        DoublingTable.ofParameters f.tableWidth f.startingBlockSize f.maxDirectBlockSize
          f.maxHeapBits = .ok h.table ∧
        h = ⟨address, s, f, h.table, f.offsetBytes, f.lengthBytes⟩ := by
  unfold Header.ofFields
  by_cases hfilters : f.filtersLength > 0
  · rw [if_pos hfilters]
    constructor
    · intro h
      cases h
    · rintro ⟨h0, -⟩
      omega
  rw [if_neg hfilters]
  by_cases hspace : f.offsetBytes = 0
  · simp only [if_pos hspace, bind_eq_ok_iff]
    constructor
    · rintro ⟨_, -, _, hthrow, -⟩
      cases hthrow
    · rintro ⟨-, hne, -⟩
      exact absurd hspace hne
  simp only [if_neg hspace, bind_eq_ok_iff, mapError_eq_ok_iff]
  constructor
  · rintro ⟨table, htable, heq⟩
    cases heq
    exact ⟨by omega, hspace, htable, rfl⟩
  · rintro ⟨-, -, htable, heq⟩
    exact ⟨h.table, htable, congrArg Except.ok heq.symm⟩

theorem ofParameters_eq_ok {width start maxDirect bits : Nat} {table : DoublingTable}
    (h : DoublingTable.ofParameters width start maxDirect bits = .ok table) :
    width = table.width ∧ start = table.startingSize ∧ maxDirect = table.maxDirectSize ∧
      bits = table.maxHeapBits := by
  unfold DoublingTable.ofParameters at h
  split at h
  · cases h
  rename_i w hw hwidth
  split at h
  · cases h
  rename_i b hb hstart
  split at h
  · cases h
  rename_i d hd hdirect
  split at h
  · cases h
    exact ⟨DoublingTable.exponent?_eq_some_iff.mp hwidth,
      DoublingTable.exponent?_eq_some_iff.mp hstart,
      DoublingTable.exponent?_eq_some_iff.mp hdirect, rfl⟩
  · cases h

theorem offsetBytes_possible {f : Header.Fields} {h : Header}
    (hof : Header.ofFields s address f = .ok h) : 1 ≤ h.offsetBytes ∧ h.offsetBytes ≤ maxWidth := by
  obtain ⟨-, hspace, htable, heq⟩ := ofFields_eq_ok_iff.mp hof
  obtain ⟨-, -, -, hbits⟩ := ofParameters_eq_ok htable
  have hle := h.table.maxHeapBits_le
  have hoffset : h.offsetBytes = f.offsetBytes := congrArg Header.offsetBytes heq
  rw [hoffset]
  unfold Header.Fields.offsetBytes maxWidth at *
  omega

/-- **A header is read** from a record that the image holds. -/
theorem readHeader_eq_ok_iff {h : Header} :
    (Header.read image s address).result t = .ok h ↔
      ∃ record, Holds image address record ∧ record.length = Header.encodedLength s ∧
        (Header.Fields.reader s).read address record = .ok h.fields ∧
        Header.ofFields s address h.fields = .ok h := by
  unfold Header.read
  simp only [Logged.result_bind_eq_ok, result_lift, readRecord_eq_ok_iff]
  constructor
  · rintro ⟨record, ⟨hrec, hlen⟩, fields, hread, header, hof, -, -, hpure⟩
    cases hpure
    have hfields : h.fields = fields := congrArg Header.fields (ofFields_eq_ok_iff.mp hof).2.2.2
    rw [hfields]
    exact ⟨record, hrec, hlen, hread, hof⟩
  · rintro ⟨record, hrec, hlen, hread, hof⟩
    exact ⟨record, ⟨hrec, hlen⟩, h.fields, hread, h, hof, (), rfl, rfl⟩

theorem address_of_read {h : Header} (hread : (Header.read image s address).result t = .ok h) :
    h.address = address ∧ h.superblock = s := by
  obtain ⟨_, -, -, -, hof⟩ := readHeader_eq_ok_iff.mp hread
  rw [(ofFields_eq_ok_iff.mp hof).2.2.2]
  exact ⟨rfl, rfl⟩

/-! ### Written headers -/

/-- Every number of the record fits its width. -/
def Fits (s : Superblock) (f : Header.Fields) : Prop := ∀ p ∈ f.layout s, p.2 < 256 ^ p.1

instance (s : Superblock) (f : Header.Fields) : Decidable (Fits s f) := by
  unfold Fits; infer_instance

theorem Fits.maxManagedSize {f : Header.Fields} (hf : Fits s f) : f.maxManagedSize < 256 ^ 4 := by
  refine hf (4, f.maxManagedSize) ?_
  simp [Header.Fields.layout]

theorem lengthBytes_possible {f : Header.Fields} (hf : Fits s f) :
    1 ≤ f.lengthBytes ∧ f.lengthBytes ≤ maxWidth := by
  have hmanaged := hf.maxManagedSize
  have hlog : (min f.maxDirectBlockSize f.maxManagedSize).log2 < 64 := by
    by_cases hzero : min f.maxDirectBlockSize f.maxManagedSize = 0
    · rw [hzero]
      decide
    · rw [Nat.log2_lt hzero]
      have hsmall : (256 : Nat) ^ 4 ≤ 2 ^ 64 := by decide
      omega
  unfold Header.Fields.lengthBytes bytesNeeded maxWidth
  omega

theorem readsBack_fields {f : Header.Fields} (hf : Fits s f) :
    ReadsBack (Header.Fields.reader s) (f.encode s) f := by
  have ho := offsetWidth_possible s
  have hl : 1 ≤ s.lengthWidth ∧ s.lengthWidth ≤ maxWidth := ⟨s.lengthWidth_pos, s.lengthWidth_le⟩
  unfold Fits at hf
  simp only [Header.Fields.layout, List.forall_mem_cons] at hf
  obtain ⟨-, h1, h2, -, h4, h5, h6, h7, h8, h9, h10, h11, h12, h13, h14, h15, h16, h17, h18, h19,
    h20, h21, h22, h23, -⟩ := hf
  unfold Header.Fields.reader Header.Fields.encode
  simp only [Header.Fields.layout, List.flatMap_cons, List.flatMap_nil]
  -- one step for each field, in stored order
  refine (readsBack_signature rfl).bind ?_
  refine (readsBack_version _).bind ?_
  refine (readsBack_fixed h1).bind ?_
  refine (readsBack_fixed h2).bind ?_
  refine (readsBack_byte _).bind ?_
  refine (readsBack_fixed h4).bind ?_
  refine (readsBack_uint hl h5).bind ?_
  refine (readsBack_uint ho h6).bind ?_
  refine (readsBack_uint hl h7).bind ?_
  refine (readsBack_uint ho h8).bind ?_
  refine (readsBack_uint hl h9).bind ?_
  refine (readsBack_uint hl h10).bind ?_
  refine (readsBack_uint hl h11).bind ?_
  refine (readsBack_uint hl h12).bind ?_
  refine (readsBack_uint hl h13).bind ?_
  refine (readsBack_uint hl h14).bind ?_
  refine (readsBack_uint hl h15).bind ?_
  refine (readsBack_uint hl h16).bind ?_
  refine (readsBack_fixed h17).bind ?_
  refine (readsBack_uint hl h18).bind ?_
  refine (readsBack_uint hl h19).bind ?_
  refine (readsBack_fixed h20).bind ?_
  refine (readsBack_fixed h21).bind ?_
  refine (readsBack_uint ho h22).bind ?_
  refine (readsBack_fixed h23).bind ?_
  exact readsBack_pure _

/-- **Fields are read where their encoding stands.** -/
theorem step_fields_iff {f : Header.Fields} {c c' : Cursor} :
    (Header.Fields.reader s).step c = (.ok f, c') ↔ Fits s f ∧ Passes c (f.encode s) c' := by
  constructor
  · intro h
    unfold Header.Fields.reader at h
    -- one step for each field, in stored order
    obtain ⟨_, _, hs, h⟩ := Reader.step_bind_eq_ok.mp h
    obtain ⟨_, _, hv, h⟩ := Reader.step_bind_eq_ok.mp h
    have ps := (step_signature_iff rfl).mp hs
    have pv : Passes _ (encode 1 0) _ := step_version_iff.mp hv
    obtain ⟨_, _, b₁, p₁, h⟩ := step_fixed_bind h
    obtain ⟨_, _, b₂, p₂, h⟩ := step_fixed_bind h
    obtain ⟨_, _, p₃, h⟩ := step_byte_bind h
    obtain ⟨_, _, b₄, p₄, h⟩ := step_fixed_bind h
    obtain ⟨_, _, b₅, p₅, h⟩ := step_uint_bind h
    obtain ⟨_, _, b₆, p₆, h⟩ := step_uint_bind h
    obtain ⟨_, _, b₇, p₇, h⟩ := step_uint_bind h
    obtain ⟨_, _, b₈, p₈, h⟩ := step_uint_bind h
    obtain ⟨_, _, b₉, p₉, h⟩ := step_uint_bind h
    obtain ⟨_, _, b₁₀, p₁₀, h⟩ := step_uint_bind h
    obtain ⟨_, _, b₁₁, p₁₁, h⟩ := step_uint_bind h
    obtain ⟨_, _, b₁₂, p₁₂, h⟩ := step_uint_bind h
    obtain ⟨_, _, b₁₃, p₁₃, h⟩ := step_uint_bind h
    obtain ⟨_, _, b₁₄, p₁₄, h⟩ := step_uint_bind h
    obtain ⟨_, _, b₁₅, p₁₅, h⟩ := step_uint_bind h
    obtain ⟨_, _, b₁₆, p₁₆, h⟩ := step_uint_bind h
    obtain ⟨_, _, b₁₇, p₁₇, h⟩ := step_fixed_bind h
    obtain ⟨_, _, b₁₈, p₁₈, h⟩ := step_uint_bind h
    obtain ⟨_, _, b₁₉, p₁₉, h⟩ := step_uint_bind h
    obtain ⟨_, _, b₂₀, p₂₀, h⟩ := step_fixed_bind h
    obtain ⟨_, _, b₂₁, p₂₁, h⟩ := step_fixed_bind h
    obtain ⟨_, _, b₂₂, p₂₂, h⟩ := step_uint_bind h
    obtain ⟨_, _, b₂₃, p₂₃, h⟩ := step_fixed_bind h
    rw [Reader.step_pure] at h
    cases h
    constructor
    · unfold Fits
      simp only [Header.Fields.layout, List.forall_mem_cons]
      exact ⟨by decide, b₁, b₂, UInt8.toNat_lt _, b₄, b₅, b₆, b₇, b₈, b₉, b₁₀, b₁₁, b₁₂, b₁₃, b₁₄,
        b₁₅, b₁₆, b₁₇, b₁₈, b₁₉, b₂₀, b₂₁, b₂₂, b₂₃, fun _ hp => absurd hp List.not_mem_nil⟩
    · unfold Header.Fields.encode
      simp only [Header.Fields.layout, List.flatMap_cons, List.flatMap_nil, List.append_nil]
      exact ps.append (pv.append (p₁.append (p₂.append (p₃.append (p₄.append (p₅.append (p₆.append
        (p₇.append (p₈.append (p₉.append (p₁₀.append (p₁₁.append (p₁₂.append (p₁₃.append (p₁₄.append
        (p₁₅.append (p₁₆.append (p₁₇.append (p₁₈.append (p₁₉.append (p₂₀.append (p₂₁.append
        (p₂₂.append p₂₃)))))))))))))))))))))))
  · rintro ⟨hf, hp⟩
    exact readsBack_fields hf c c' hp

theorem readHeader_of_holds {h : Header} (hof : Header.ofFields s address h.fields = .ok h)
    (hf : Fits s h.fields) (hh : Holds image address (h.fields.encode s)) :
    (Header.read image s address).result t = .ok h := by
  have hread := (readsBack_fields hf).read address []
  rw [List.append_nil] at hread
  exact readHeader_eq_ok_iff.mpr ⟨_, hh, Header.length_encode s h.fields, hread, hof⟩

theorem fits_of_read {h : Header} (hread : (Header.read image s address).result t = .ok h) :
    Fits s h.fields := by
  obtain ⟨_, -, -, hfields, -⟩ := readHeader_eq_ok_iff.mp hread
  obtain ⟨_, hstep⟩ := read_eq_ok_iff.mp hfields
  exact (step_fields_iff.mp hstep).1

end DoublingHeap.Proofs.Headers
