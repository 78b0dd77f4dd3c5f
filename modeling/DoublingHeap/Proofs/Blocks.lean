import DoublingHeap.Proofs.Reading
import DoublingHeap.DirectBlock
import DoublingHeap.IndirectBlock

/-! # Blocks in an image

An image *holds* a run of bytes at an address (`Holds`); reading a record that it holds gives these
bytes (`readRecord_eq_ok_iff`). A block that has been read is one that the image holds as it would
be written:

* `step_heading_iff`: a heading is read exactly where its encoding stands;
* `readDirect_iff`: a direct block of some size is read exactly if its heading stands at its address
  and the image holds all its bytes;
* `readIndirect_of_holds`: an indirect block that is written is read back. -/

namespace DoublingHeap.Proofs.Blocks

open DoublingHeap.Bytes.LittleEndian DoublingHeap.Proofs.Reading

attribute [local instance (high)] instPowNat

variable {image : Image} {h : Header} {t : Level}

/-! ### Ranges of an image -/

/-- The bytes stand in the image from an address on. -/
def Holds (image : Image) (address : Nat) (bytes : List UInt8) : Prop :=
  address + bytes.length ≤ image.size ∧ (image.toList.drop address).take bytes.length = bytes

instance (image : Image) (address : Nat) (bytes : List UInt8) :
    Decidable (Holds image address bytes) := by
  unfold Holds; infer_instance

theorem length_range {address length : Nat} (hle : address + length ≤ image.size) :
    ((image.toList.drop address).take length).length = length := by
  rw [List.length_take, List.length_drop, Image.length_toList]
  omega

theorem holds_range {address length : Nat} (hle : address + length ≤ image.size) :
    Holds image address ((image.toList.drop address).take length) := by
  unfold Holds
  rw [length_range hle]
  exact ⟨hle, rfl⟩

theorem holds_append_iff {address : Nat} {xs ys : List UInt8} :
    Holds image address (xs ++ ys) ↔
      Holds image address xs ∧ Holds image (address + xs.length) ys := by
  unfold Holds
  rw [List.length_append, List.take_add, List.drop_drop]
  constructor
  · rintro ⟨hle, heq⟩
    have hx : address + xs.length ≤ image.size := by omega
    obtain ⟨h1, h2⟩ := List.append_inj heq (length_range hx)
    exact ⟨⟨by omega, h1⟩, ⟨by omega, h2⟩⟩
  · rintro ⟨⟨-, h1⟩, ⟨hle, h2⟩⟩
    exact ⟨by omega, by rw [h1, h2]⟩

theorem mapError_eq_ok_iff {ε ε' α : Type} {r : Except ε α} {f : ε → ε'} {a : α} :
    r.mapError f = .ok a ↔ r = .ok a := by
  constructor <;> intro h <;> cases r <;> cases h <;> rfl

theorem eq_ok_of_toOption {ε α : Type} {r : Except ε α} {a : α} (h : r.toOption = some a) :
    r = .ok a := by
  cases r <;> cases h
  rfl

/-- **A record is read where the image holds it.** -/
theorem readRecord_eq_ok_iff {address length : Nat} {bytes : List UInt8} :
    image.readRecord address length = .ok bytes ↔
      Holds image address bytes ∧ bytes.length = length := by
  unfold Image.readRecord
  rw [mapError_eq_ok_iff, Image.record_eq_ok_iff]
  constructor
  · rintro ⟨hle, rfl⟩
    exact ⟨holds_range hle, length_range hle⟩
  · rintro ⟨⟨hle, heq⟩, rfl⟩
    exact ⟨hle, heq.symm⟩

theorem viewRegion_eq_ok_iff {address length : Nat} {r : Image.Region} :
    image.viewRegion address length = .ok r ↔ ∃ within, r = ⟨image, address, length, within⟩ := by
  unfold Image.viewRegion Image.region
  rw [mapError_eq_ok_iff]
  constructor
  · intro hr
    split at hr
    · rename_i hle
      cases hr
      exact ⟨hle, rfl⟩
    · cases hr
  · rintro ⟨within, rfl⟩
    rw [dif_pos within]

theorem result_lift {α : Type} (r : Except HeapError α) : (liftM r : Logged α).result t = r := rfl

theorem bind_eq_ok_iff {α β : Type} {x : Except HeapError α} {f : α → Except HeapError β} {b : β} :
    x >>= f = .ok b ↔ ∃ a, x = .ok a ∧ f a = .ok b := by
  cases x <;> simp [bind, Except.bind]

/-! ### Headings -/

/-- The owner and the heap offset of a block fit the fields of its heading. -/
structure Encodable (h : Header) (offset : Nat) : Prop where
  width : 1 ≤ h.offsetBytes ∧ h.offsetBytes ≤ maxWidth
  owner : h.address < 256 ^ h.superblock.offsetWidth
  offset : offset < 256 ^ h.offsetBytes

theorem offsetWidth_possible (s : Superblock) : 1 ≤ s.offsetWidth ∧ s.offsetWidth ≤ maxWidth :=
  ⟨s.offsetWidth_pos, s.offsetWidth_le⟩

theorem length_signature (kind : BlockKind) : kind.signature.length = 4 := by
  cases kind <;> rfl

/-- **A heading is read where its encoding stands.** -/
theorem step_heading_iff {kind : BlockKind} {c c' : Cursor} {offset : Nat} :
    (BlockHeading.reader h kind).step c = (.ok offset, c') ↔
      Encodable h offset ∧ Passes c (BlockHeading.encode h kind offset) c' := by
  unfold BlockHeading.reader BlockHeading.encode
  simp only [Reader.step_bind_eq_ok, step_signature_iff (length_signature kind), step_version_iff,
    step_uint_iff]
  constructor
  · rintro ⟨-, c₁, h₁, -, c₂, h₂, owner, c₃, ⟨-, how, h₃⟩, hc⟩
    split at hc
    · obtain ⟨_, _, hrefuse, -⟩ := Reader.step_bind_eq_ok.mp hc
      rw [step_refuse] at hrefuse
      cases hrefuse
    · rename_i hne
      rw [Decidable.not_not] at hne
      subst hne
      obtain ⟨hw, ho, h₄⟩ := step_uint_iff.mp hc
      refine ⟨⟨hw, how, ho⟩, ?_⟩
      have h₁₂ := passes_append_iff.mpr ⟨c₁, h₁, h₂⟩
      have h₁₃ := passes_append_iff.mpr ⟨c₂, h₁₂, h₃⟩
      exact passes_append_iff.mpr ⟨c₃, h₁₃, h₄⟩
  · rintro ⟨⟨hw, how, ho⟩, hp⟩
    obtain ⟨c₃, h₁₃, h₄⟩ := passes_append_iff.mp hp
    obtain ⟨c₂, h₁₂, h₃⟩ := passes_append_iff.mp h₁₃
    obtain ⟨c₁, h₁, h₂⟩ := passes_append_iff.mp h₁₂
    refine ⟨(), c₁, h₁, (), c₂, h₂, h.address, c₃, ⟨offsetWidth_possible _, how, h₃⟩, ?_⟩
    rw [if_neg (Decidable.not_not.mpr rfl)]
    exact step_uint_iff.mpr ⟨hw, ho, h₄⟩

/-! ### Direct blocks -/

theorem step_directHeader_iff {c c' : Cursor} {offset : Nat} :
    (DirectBlock.reader h).step c = (.ok offset, c') ↔
      Encodable h offset ∧ ∃ checksum, checksum.length = DirectBlock.checksumLength h ∧
        Passes c (BlockHeading.encode h .direct offset ++ checksum) c' := by
  unfold DirectBlock.reader DirectBlock.checksumLength
  rw [Reader.step_bind_eq_ok]
  simp only [step_heading_iff, passes_append_iff]
  by_cases hsum : h.directBlocksChecksummed
  · simp only [hsum, if_true, Reader.step_bind_eq_ok, step_skip_iff]
    constructor
    · rintro ⟨_, c₁, ⟨he, hp⟩, -, c₂, ⟨checksum, hlen, hs⟩, hc⟩
      rw [Reader.step_pure] at hc
      cases hc
      exact ⟨he, checksum, hlen, c₁, hp, hs⟩
    · rintro ⟨he, checksum, hlen, c₁, hp, hs⟩
      exact ⟨offset, c₁, ⟨he, hp⟩, (), c', ⟨checksum, hlen, hs⟩, rfl⟩
  · simp only [hsum, Bool.false_eq_true, if_false, Reader.step_pure]
    constructor
    · rintro ⟨_, c₁, ⟨he, hp⟩, hc⟩
      cases hc
      exact ⟨he, [], rfl, c', hp, passes_nil_iff.mpr rfl⟩
    · rintro ⟨he, checksum, hlen, c₁, hp, hs⟩
      rw [List.length_eq_zero_iff.mp hlen, passes_nil_iff] at hs
      subst hs
      exact ⟨offset, c', ⟨he, hp⟩, rfl⟩

theorem read_directHeader_iff {address : Nat} {record : List UInt8} {offset : Nat}
    (hlen : record.length = DirectBlock.headerLengthOf h) :
    (DirectBlock.reader h).read address record = .ok offset ↔
      Encodable h offset ∧ BlockHeading.encode h .direct offset <+: record := by
  rw [read_eq_ok_iff]
  simp only [step_directHeader_iff]
  constructor
  · rintro ⟨c', he, checksum, -, hp⟩
    refine ⟨he, ?_⟩
    rw [hp.eq_append, List.append_assoc]
    exact List.prefix_append ..
  · rintro ⟨he, checksum, rfl⟩
    rw [List.length_append, BlockHeading.length_encode] at hlen
    unfold DirectBlock.headerLengthOf at hlen
    have hp := passes_atStart address (BlockHeading.encode h .direct offset ++ checksum) []
    rw [List.append_nil] at hp
    exact ⟨_, he, checksum, by omega, hp⟩

/-- **A direct block is read** exactly if it is as long as its header, its heading stands at its
address, and the image holds all its bytes. -/
theorem readDirect_iff {address size : Nat} {b : DirectBlock} :
    (DirectBlock.read image h address size).result t = .ok b ↔
      DirectBlock.headerLengthOf h ≤ size ∧ Encodable h b.offset ∧
        Holds image address (BlockHeading.encode h .direct b.offset) ∧
        ∃ within, b = ⟨address, b.offset, DirectBlock.headerLengthOf h,
          ⟨image, address, size, within⟩⟩ := by
  unfold DirectBlock.read
  split
  · rename_i hlt
    constructor
    · intro hr
      cases hr
    · rintro ⟨hle, -⟩
      omega
  rename_i hle
  simp only [Logged.result_bind_eq_ok, result_lift, readRecord_eq_ok_iff, viewRegion_eq_ok_iff]
  constructor
  · rintro ⟨record, ⟨hrec, hlen⟩, offset, hread, _, ⟨within, rfl⟩, -, -, hb⟩
    cases hb
    obtain ⟨he, rest, rfl⟩ := (read_directHeader_iff hlen).mp hread
    exact ⟨by omega, he, (holds_append_iff.mp hrec).1, within, rfl⟩
  · rintro ⟨-, he, hh, within, hb⟩
    have hrange : address + DirectBlock.headerLengthOf h ≤ image.size := by omega
    have hrec := holds_range hrange
    have hlen := length_range hrange
    have hprefix : BlockHeading.encode h .direct b.offset <+:
        (image.toList.drop address).take (DirectBlock.headerLengthOf h) := by
      rw [← hh.2, BlockHeading.length_encode]
      exact List.take_prefix_take_left (Nat.le_add_right ..)
    refine ⟨_, ⟨hrec, hlen⟩, b.offset, (read_directHeader_iff hlen).mpr ⟨he, hprefix⟩, _,
      ⟨within, rfl⟩, (), rfl, ?_⟩
    rw [Logged.result_pure, ← hb]

theorem size_pos_of_readDirect {address size : Nat} {b : DirectBlock}
    (hread : (DirectBlock.read image h address size).result t = .ok b) : 0 < b.size := by
  obtain ⟨hle, -, -, within, heq⟩ := readDirect_iff.mp hread
  have hsize : b.size = size := congrArg DirectBlock.size heq
  have hheader : 0 < DirectBlock.headerLengthOf h := by
    unfold DirectBlock.headerLengthOf BlockHeading.length
    omega
  omega

/-! ### Indirect blocks -/

theorem lt_of_lt_undefinedAddress {s : Superblock} {a : Nat} (ha : a < s.undefinedAddress) :
    a < 256 ^ s.offsetWidth := by
  unfold Superblock.undefinedAddress at ha
  omega

theorem undefinedAddress_lt (s : Superblock) : s.undefinedAddress < 256 ^ s.offsetWidth := by
  have hpos : 0 < 256 ^ s.offsetWidth := Nat.pow_pos (by decide)
  unfold Superblock.undefinedAddress
  omega

theorem isUndefined_eq_false {s : Superblock} {a : Nat} (ha : a < s.undefinedAddress) :
    s.isUndefined a = false := by
  unfold Superblock.isUndefined
  rw [beq_eq_false_iff_ne]
  omega

theorem isUndefined_undefinedAddress (s : Superblock) :
    s.isUndefined s.undefinedAddress = true := by
  unfold Superblock.isUndefined
  exact beq_self_eq_true _

theorem readsBack_slot (hfilters : h.hasFilters = false) {child : Nat}
    (hchild : child < 256 ^ h.superblock.offsetWidth) :
    ReadsBack (IndirectBlock.slotReader h) (encode h.superblock.offsetWidth child)
      (if h.superblock.isUndefined child then none else some child) := by
  unfold IndirectBlock.slotReader
  rw [← List.append_nil (encode _ child)]
  refine (readsBack_uint (offsetWidth_possible _) hchild).bind ?_
  rw [hfilters]
  split
  · exact readsBack_pure _
  · exact readsBack_pure _

/-- **Children are read back** up to the first slot that is not used. -/
theorem collect_slots (hfilters : h.hasFilters = false) {children : List Nat} (found : List Nat)
    (unused : Nat) {c : Cursor} {rest : List UInt8}
    (hchildren : ∀ child ∈ children, child < h.superblock.undefinedAddress)
    (hc : c.rest = (children ++ List.replicate unused h.superblock.undefinedAddress).flatMap
      (encode h.superblock.offsetWidth) ++ rest) :
    ∃ c', (Reader.collect (IndirectBlock.slotReader h) (children.length + unused) found).step c
      = (.ok (found.reverse ++ children), c') := by
  induction children generalizing found c with
  | nil =>
    cases unused with
    | zero => exact ⟨c, by rw [List.append_nil]; rfl⟩
    | succ n =>
      rw [List.nil_append, List.replicate_succ, List.flatMap_cons, List.append_assoc] at hc
      have hslot := readsBack_slot hfilters (undefinedAddress_lt h.superblock) c
        ⟨c.address, c.position + h.superblock.offsetWidth, _⟩ ⟨hc, by rw [length_encode], rfl⟩
      rw [isUndefined_undefinedAddress, if_pos rfl] at hslot
      rw [List.length_nil, Nat.zero_add, Reader.collect]
      exact ⟨_, Reader.step_bind_eq_ok.mpr ⟨none, _, hslot, by rw [List.append_nil]; rfl⟩⟩
  | cons child children ih =>
    have hchild := hchildren child (List.mem_cons_self ..)
    rw [List.cons_append, List.flatMap_cons, List.append_assoc] at hc
    have hslot := readsBack_slot hfilters (lt_of_lt_undefinedAddress hchild) c
      ⟨c.address, c.position + h.superblock.offsetWidth, _⟩ ⟨hc, by rw [length_encode], rfl⟩
    rw [isUndefined_eq_false hchild] at hslot
    rw [List.length_cons, Nat.add_right_comm, Reader.collect]
    obtain ⟨c', hrest⟩ := ih (child :: found) (c := ⟨_, _, _⟩)
      (fun x hx => hchildren x (List.mem_cons_of_mem _ hx)) rfl
    refine ⟨c', Reader.step_bind_eq_ok.mpr ⟨some child, _, hslot, ?_⟩⟩
    rw [List.reverse_cons, List.append_assoc] at hrest
    exact hrest

theorem length_encodeIndirect (hfilters : h.hasFilters = false) {b : IndirectBlock}
    (hlen : b.children.length ≤ IndirectBlock.slots h b.rows) :
    (IndirectBlock.encode h b).length = IndirectBlock.recordLength h b.rows := by
  have hslots : ∀ slots : List Nat,
      (slots.flatMap (encode h.superblock.offsetWidth)).length
        = slots.length * h.superblock.offsetWidth := by
    intro slots
    induction slots with
    | nil => simp
    | cons slot rest ih =>
      rw [List.flatMap_cons, List.length_append, length_encode, ih, List.length_cons,
        Nat.succ_mul, Nat.add_comm]
  unfold IndirectBlock.encode IndirectBlock.encodeSlots IndirectBlock.recordLength
    IndirectBlock.filterEntryLength
  rw [hfilters, List.length_append, BlockHeading.length_encode, hslots, List.length_append,
    List.length_replicate, Nat.add_sub_cancel' hlen]
  rfl

theorem readIndirect_of_holds (hfilters : h.hasFilters = false) {b : IndirectBlock}
    (hrows : b.rows ≤ h.table.maxRows) (he : Encodable h b.offset)
    (hlen : b.children.length ≤ IndirectBlock.slots h b.rows)
    (hchildren : ∀ child ∈ b.children, child < h.superblock.undefinedAddress)
    (hh : Holds image b.address (IndirectBlock.encode h b)) :
    IndirectBlock.read image h b.address b.rows = .ok b := by
  have hrecord : image.readRecord b.address (IndirectBlock.recordLength h b.rows)
      = .ok (IndirectBlock.encode h b) :=
    readRecord_eq_ok_iff.mpr ⟨hh, length_encodeIndirect hfilters hlen⟩
  have hread : (IndirectBlock.reader h b.rows).read b.address (IndirectBlock.encode h b)
      = .ok (b.offset, b.children) := by
    have hp := passes_atStart b.address (BlockHeading.encode h .indirect b.offset)
      (IndirectBlock.encodeSlots h b.rows b.children)
    obtain ⟨c', hcollect⟩ := collect_slots hfilters []
      (IndirectBlock.slots h b.rows - b.children.length)
      (c := ⟨b.address, _, IndirectBlock.encodeSlots h b.rows b.children⟩) hchildren
      (List.append_nil _).symm
    rw [Nat.add_sub_cancel' hlen] at hcollect
    refine read_eq_ok_iff.mpr ⟨c', ?_⟩
    unfold IndirectBlock.reader IndirectBlock.childrenReader IndirectBlock.encode
    refine Reader.step_bind_eq_ok.mpr ⟨b.offset, _, step_heading_iff.mpr ⟨he, hp⟩, ?_⟩
    exact Reader.step_bind_eq_ok.mpr ⟨b.children, c', hcollect, rfl⟩
  unfold IndirectBlock.read
  rw [if_neg (Nat.not_lt.mpr hrows)]
  exact bind_eq_ok_iff.mpr ⟨_, hrecord, bind_eq_ok_iff.mpr ⟨_, hread, rfl⟩⟩

end DoublingHeap.Proofs.Blocks
