import DoublingHeap.Proofs.ExactHeaders
import DoublingHeap.Proofs.Sights

/-! # Which bytes are a block

The heading of a block, its slots and its bytes stand at fixed positions of the image, and whether
the block is read is decided by conditions that are tested in order: `headingChecks` for what both
kinds of block begin with, `indirectChecks` and `directChecks` for whole blocks. There is one
equation for each kind (`readIndirect_eq`, `readDirect_eq`), from which it follows when a block is
read, what it holds and which error there is otherwise.

The entries of an indirect block (`entriesAt`) do not depend on the number of rows that are read,
so fewer rows give a shorter run of the same children (`childrenIn_of_fewer`).

A header is *decoded* if it has been read from some image, and may then be used with another
superblock (`Decoded`). -/

namespace DoublingHeap.Proofs.ExactBlocks

open DoublingHeap.Bytes.LittleEndian
open DoublingHeap.Proofs.Reading DoublingHeap.Proofs.Blocks DoublingHeap.Proofs.Headers
open DoublingHeap.Proofs.Sights DoublingHeap.Proofs.Checks DoublingHeap.Proofs.Descent
open DoublingHeap.Proofs.ExactHeaders

attribute [local instance (high)] instPowNat

variable {image : Image} {h : Header} {address n k : Nat} {t : Level}

/-! ### Decoded headers -/

/-- The header has been read somewhere, perhaps with another superblock. -/
def Decoded (h : Header) : Prop :=
  ∃ image s address t, (Header.read image s address).result t = .ok { h with superblock := s }

theorem Decoded.filters (hd : Decoded h) : h.hasFilters = false := by
  obtain ⟨_, _, _, _, hread⟩ := hd
  obtain ⟨_, -, -, -, hof⟩ := readHeader_eq_ok_iff.mp hread
  have hfilters : h.fields.filtersLength = 0 := (ofFields_eq_ok_iff.mp hof).1
  unfold Header.hasFilters
  rw [hfilters]
  rfl

theorem Decoded.offsetBytes (hd : Decoded h) : 1 ≤ h.offsetBytes ∧ h.offsetBytes ≤ maxWidth := by
  obtain ⟨_, s, _, _, hread⟩ := hd
  obtain ⟨_, -, -, -, hof⟩ := readHeader_eq_ok_iff.mp hread
  exact offsetBytes_possible (h := { h with superblock := s }) hof

/-! ### Headings -/

/-- The heap offset in the heading of the block at an address. -/
def offsetAt (image : Image) (h : Header) (address : Nat) : Nat :=
  numberAt image (address + (5 + h.superblock.offsetWidth)) h.offsetBytes

/-- The checks of the heading of a block, in order. -/
def headingChecks (image : Image) (h : Header) (kind : BlockKind) (address : Nat) : List Check :=
  let owner := numberAt image (address + 5) h.superblock.offsetWidth
  [signatureCheck image address kind.signature,
   versionCheck image address kind.subject,
   ⟨owner = h.address, .reference address (.foreignBlock kind.subject owner h.address)⟩]

theorem judges_heading (hw : 1 ≤ h.offsetBytes ∧ h.offsetBytes ≤ maxWidth) (kind : BlockKind)
    (hn : address + n ≤ image.size) (hle : BlockHeading.length h ≤ n) :
    Judges (BlockHeading.reader h kind) (cursorAt image address n 0)
      (headingChecks image h kind address) (offsetAt image h address)
      (cursorAt image address n (BlockHeading.length h)) := by
  unfold BlockHeading.length at hle ⊢
  have howner := judges_uint hn (k := 5) (w := h.superblock.offsetWidth) (by omega)
    (offsetWidth_possible _)
  have hoffset := judges_uint hn (k := 5 + h.superblock.offsetWidth) hle hw
  unfold BlockHeading.reader
  rw [← bind_assoc]
  exact (judges_marks _ _ hn (by omega)).bind (howner.bind (.require Iff.rfl rfl hoffset))

theorem address_of_headingChecks {kind : BlockKind} :
    ∀ c ∈ headingChecks image h kind address, c.error.address = address := by
  simp only [headingChecks, List.forall_mem_cons]
  exact ⟨rfl, rfl, rfl, fun _ hc => absurd hc List.not_mem_nil⟩

/-! ### The slots of an indirect block -/

/-- The entries of a width that stand one after the other from an address on. -/
def entriesAt (image : Image) (address width n : Nat) : List (List UInt8) :=
  (List.range n).map fun i => bytesAt image (address + i * width) width

/-- Whether the entry is an address: not all its bytes are `0xFF`. -/
def used (entry : List UInt8) : Bool := !entry.all (· == 0xFF)

/-- The addresses in a run of entries, up to the first entry that is none. -/
def childrenIn (entries : List (List UInt8)) : List Nat := (entries.takeWhile used).map decode

theorem entriesAt_succ (address width n : Nat) :
    entriesAt image address width (n + 1)
      = bytesAt image address width :: entriesAt image (address + width) width n := by
  unfold entriesAt
  rw [List.range_succ_eq_map, List.map_cons, List.map_map, Nat.zero_mul, Nat.add_zero]
  congr 2
  funext i
  rw [Function.comp_apply, Nat.succ_mul, Nat.add_assoc, Nat.add_comm width]

theorem childrenIn_cons (entry : List UInt8) (entries : List (List UInt8)) :
    childrenIn (entry :: entries)
      = if used entry then decode entry :: childrenIn entries else [] := by
  unfold childrenIn
  rw [List.takeWhile_cons]
  split <;> rfl

theorem take_entriesAt {m : Nat} (hle : m ≤ n) (address width : Nat) :
    (entriesAt image address width n).take m = entriesAt image address width m := by
  unfold entriesAt
  rw [← List.map_take, List.take_range, Nat.min_eq_left hle]

theorem decode_succ_eq_iff (bytes : List UInt8) :
    decode bytes + 1 = 256 ^ bytes.length ↔ bytes.all (· == 0xFF) = true := by
  induction bytes with
  | nil => simp [decode]
  | cons b bs ih =>
    have hrest := decode_lt bs
    have hb := b.toNat_lt
    have hfull : b = 0xFF ↔ b.toNat = 255 := UInt8.toNat_inj.symm
    rw [List.all_cons, Bool.and_eq_true, ← ih, beq_iff_eq, hfull, decode, List.length_cons,
      Nat.pow_succ]
    omega

theorem isUndefined_decode {s : Superblock} {entry : List UInt8}
    (hlen : entry.length = s.offsetWidth) : s.isUndefined (decode entry) = !used entry := by
  have hpos : 0 < 256 ^ s.offsetWidth := Nat.pow_pos (by decide)
  unfold used
  rw [Bool.not_not, Bool.eq_iff_iff, ← decode_succ_eq_iff, hlen]
  unfold Superblock.isUndefined Superblock.undefinedAddress
  rw [beq_iff_eq]
  omega

theorem step_slot (hfilters : h.hasFilters = false) (hn : address + n ≤ image.size)
    (hk : k + h.superblock.offsetWidth ≤ n) :
    (IndirectBlock.slotReader h).step (cursorAt image address n k)
      = (.ok (if used (bytesAt image (address + k) h.superblock.offsetWidth) then
            some (numberAt image (address + k) h.superblock.offsetWidth) else none),
          cursorAt image address n (k + h.superblock.offsetWidth)) := by
  have hback := readsBack_slot hfilters (numberAt_lt image (address + k) h.superblock.offsetWidth)
  have hundef : h.superblock.isUndefined (numberAt image (address + k) h.superblock.offsetWidth)
      = !used (bytesAt image (address + k) h.superblock.offsetWidth) :=
    isUndefined_decode (length_bytesAt (by omega))
  rw [encode_numberAt (by omega), hundef] at hback
  rw [hback _ _ (passes_at hn hk)]
  cases used (bytesAt image (address + k) h.superblock.offsetWidth) <;> rfl

/-- **The slots are read** up to the first that is not used. -/
theorem step_collect (hfilters : h.hasFilters = false) (hn : address + n ≤ image.size) {m : Nat}
    (found : List Nat) (hk : k + m * h.superblock.offsetWidth ≤ n) :
    ∃ c', (Reader.collect (IndirectBlock.slotReader h) m found).step (cursorAt image address n k)
      = (.ok (found.reverse
          ++ childrenIn (entriesAt image (address + k) h.superblock.offsetWidth m)), c') := by
  induction m generalizing k found with
  | zero => exact ⟨_, congrArg (fun l => (Except.ok l, _)) (List.append_nil _).symm⟩
  | succ m ih =>
    rw [Nat.succ_mul] at hk
    have hslot := step_slot hfilters hn (k := k) (by omega)
    rw [Reader.collect, entriesAt_succ, childrenIn_cons]
    by_cases hused : used (bytesAt image (address + k) h.superblock.offsetWidth) = true
    · rw [if_pos hused] at hslot
      obtain ⟨c', hrest⟩ := ih (k := k + h.superblock.offsetWidth)
        (numberAt image (address + k) h.superblock.offsetWidth :: found) (by omega)
      rw [List.reverse_cons, List.append_assoc, ← Nat.add_assoc] at hrest
      rw [if_pos hused]
      exact ⟨c', Reader.step_bind_eq_ok.mpr ⟨_, _, hslot, hrest⟩⟩
    · rw [if_neg hused] at hslot
      rw [if_neg hused, List.append_nil]
      exact ⟨_, Reader.step_bind_eq_ok.mpr ⟨_, _, hslot, rfl⟩⟩

theorem childrenIn_of_fewer {m : Nat} (hle : m ≤ n) (address width : Nat) :
    childrenIn (entriesAt image address width m)
      = (childrenIn (entriesAt image address width n)).take m := by
  unfold childrenIn
  rw [← take_entriesAt hle, ← List.map_take, List.take_takeWhile]

/-! ### Indirect blocks -/

/-- The checks of an indirect block, in order. -/
def indirectChecks (image : Image) (h : Header) (address rows : Nat) : List Check :=
  ⟨rows ≤ h.table.maxRows, .malformed address (.tooManyRows rows h.table.maxRows)⟩
    :: ⟨address + IndirectBlock.recordLength h rows ≤ image.size,
      .input address (IndirectBlock.recordLength h rows)
        ⟨address, IndirectBlock.recordLength h rows, image.size⟩⟩
    :: headingChecks image h .indirect address

/-- The children in the slots of an indirect block. -/
def childrenAt (image : Image) (h : Header) (address rows : Nat) : List Nat :=
  childrenIn (entriesAt image (address + BlockHeading.length h) h.superblock.offsetWidth
    (IndirectBlock.slots h rows))

theorem recordLength_eq (hfilters : h.hasFilters = false) (rows : Nat) :
    IndirectBlock.recordLength h rows
      = BlockHeading.length h + IndirectBlock.slots h rows * h.superblock.offsetWidth := by
  unfold IndirectBlock.recordLength IndirectBlock.filterEntryLength
  rw [hfilters, if_neg Bool.false_ne_true, Nat.add_zero]

/-- **An indirect block is read** exactly as its checks decide. -/
theorem readIndirect_eq (hd : Decoded h) (image : Image) (address rows : Nat) :
    IndirectBlock.read image h address rows
      = judge (indirectChecks image h address rows)
          ⟨address, offsetAt image h address, rows, childrenAt image h address rows⟩ := by
  unfold IndirectBlock.read
  refine judge_cons (fun hrows => ?_) fun hrows => ?_
  · rw [if_pos (Nat.lt_of_not_le hrows)]
    rfl
  rw [if_neg (Nat.not_lt.mpr hrows), readRecord_eq]
  refine judge_bind (D := headingChecks image h .indirect address) fun hrange => ?_
  have hn : address + IndirectBlock.recordLength h rows ≤ image.size :=
    hrange _ (List.mem_cons_self ..)
  have hlen := recordLength_eq hd.filters rows
  obtain ⟨c', hcollect⟩ := step_collect hd.filters hn (k := BlockHeading.length h)
    (m := IndirectBlock.slots h rows) [] (Nat.le_of_eq hlen.symm)
  have hreader : Judges (IndirectBlock.reader h rows)
      (cursorAt image address (IndirectBlock.recordLength h rows) 0)
      (headingChecks image h .indirect address)
      (offsetAt image h address, childrenAt image h address rows) c' :=
    (judges_heading hd.offsetBytes .indirect hn (hlen ▸ Nat.le_add_right ..)).bind
      ((Judges.of_ok hcollect).bind (judges_pure ..))
  rw [hreader.read]
  exact judge_bind_ok rfl

theorem address_of_indirectChecks {rows : Nat} :
    ∀ c ∈ indirectChecks image h address rows, c.error.address = address := by
  simp only [indirectChecks, List.forall_mem_cons]
  exact ⟨rfl, rfl, address_of_headingChecks⟩

theorem kind_of_indirectChecks {rows : Nat} {e : HeapError}
    (he : refusal? (indirectChecks image h address rows) = some e) :
    e.kind =
      if ¬ rows ≤ h.table.maxRows then .malformed
      else if ¬ address + IndirectBlock.recordLength h rows ≤ image.size then .input
      else if ¬ bytesAt image address 4 = BlockKind.indirect.signature then .signatureMismatch
      else if ¬ numberAt image (address + 4) 1 = 0 then .unsupportedVersion
      else .corruptReference :=
  kind_of_refusal? he fun he => kind_of_refusal? he fun he => kind_of_refusal? he fun he =>
    kind_of_refusal? he kind_of_last

theorem exists_readIndirect_iff (hd : Decoded h) {rows : Nat} :
    (∃ b, IndirectBlock.read image h address rows = .ok b) ↔
      rows ≤ h.table.maxRows ∧
        address + IndirectBlock.recordLength h rows ≤ image.size ∧
        bytesAt image address 4 = BlockKind.indirect.signature ∧
        numberAt image (address + 4) 1 = 0 ∧
        numberAt image (address + 5) h.superblock.offsetWidth = h.address := by
  rw [readIndirect_eq hd]
  simp only [judge_eq_ok_iff, exists_and_left, exists_eq', and_true]
  simp [indirectChecks, headingChecks, signatureCheck, versionCheck]

theorem recordLength_mono {rows r : Nat} (hr : r ≤ rows) :
    IndirectBlock.recordLength h r ≤ IndirectBlock.recordLength h rows :=
  Nat.add_le_add_left (Nat.mul_le_mul_right _ (Nat.mul_le_mul_right _ hr)) _

/-- **A block that is read with some rows** is read with fewer, and has the first of its
children. -/
theorem readIndirect_of_fewer (hd : Decoded h) {rows r : Nat} {b : IndirectBlock} (hr : r ≤ rows)
    (hb : IndirectBlock.read image h address rows = .ok b) :
    ∃ b', IndirectBlock.read image h address r = .ok b' ∧
      b'.children = b.children.take (r * h.table.width) := by
  obtain ⟨hrows, hrange, hmarks⟩ := (exists_readIndirect_iff hd).mp ⟨b, hb⟩
  have hrange' : address + IndirectBlock.recordLength h r ≤ image.size :=
    Nat.le_trans (Nat.add_le_add_left (recordLength_mono hr) _) hrange
  obtain ⟨b', hb'⟩ := (exists_readIndirect_iff hd).mpr ⟨Nat.le_trans hr hrows, hrange', hmarks⟩
  refine ⟨b', hb', ?_⟩
  rw [readIndirect_eq hd, judge_eq_ok_iff] at hb hb'
  rw [← hb.2, ← hb'.2]
  exact childrenIn_of_fewer (Nat.mul_le_mul_right _ hr) _ _

/-- **Indirect blocks are parsed exactly.** An indirect block is read with some rows if and only if
the table has room for the rows, all bytes of its record lie in the image, and it begins with the
signature, the version zero and the address of the heap. If it is not read, the error is at its
address, and the first condition that does not hold tells the kind. The children are the longest run
of its entries none of which has all its bytes `0xFF`. A block that is read with some rows is read
with fewer, and has the first of its children. -/
theorem indirectBlock_exact (hd : Decoded h) (image : Image) (address rows : Nat) :
    ((∃ b, IndirectBlock.read image h address rows = .ok b) ↔
      rows ≤ h.table.maxRows ∧
        address + (5 + h.superblock.offsetWidth + h.offsetBytes
          + rows * h.table.width * h.superblock.offsetWidth) ≤ image.size ∧
        bytesAt image address 4 = [0x46, 0x48, 0x49, 0x42] ∧
        numberAt image (address + 4) 1 = 0 ∧
        numberAt image (address + 5) h.superblock.offsetWidth = h.address) ∧
    (∀ e, IndirectBlock.read image h address rows = .error e →
      e.address = address ∧
      e.kind =
        if ¬ rows ≤ h.table.maxRows then .malformed
        else if ¬ address + (5 + h.superblock.offsetWidth + h.offsetBytes
          + rows * h.table.width * h.superblock.offsetWidth) ≤ image.size then .input
        else if ¬ bytesAt image address 4 = [0x46, 0x48, 0x49, 0x42] then .signatureMismatch
        else if ¬ numberAt image (address + 4) 1 = 0 then .unsupportedVersion
        else .corruptReference) ∧
    ∀ b, IndirectBlock.read image h address rows = .ok b →
      b.children = ((entriesAt image (address + (5 + h.superblock.offsetWidth + h.offsetBytes))
          h.superblock.offsetWidth (rows * h.table.width)).takeWhile used).map decode ∧
      ∀ r, r ≤ rows → ∃ b', IndirectBlock.read image h address r = .ok b' ∧
        b'.children = b.children.take (min (r * h.table.width) b.children.length) := by
  have hlength : 5 + h.superblock.offsetWidth + h.offsetBytes
      + rows * h.table.width * h.superblock.offsetWidth = IndirectBlock.recordLength h rows :=
    (recordLength_eq hd.filters rows).symm
  rw [hlength]
  refine ⟨exists_readIndirect_iff hd, fun e he => ?_, fun b hb => ?_⟩
  · rw [readIndirect_eq hd, judge_eq_error_iff] at he
    exact ⟨address_of_refusal? address_of_indirectChecks he, kind_of_indirectChecks he⟩
  · have hread := hb
    rw [readIndirect_eq hd, judge_eq_ok_iff] at hread
    obtain ⟨-, rfl⟩ := hread
    refine ⟨rfl, fun r hr => ?_⟩
    obtain ⟨b', hb', hchildren⟩ := readIndirect_of_fewer hd hr hb
    rw [List.take_eq_take_min] at hchildren
    exact ⟨b', hb', hchildren⟩

/-- The header of a heap with checksums, as it is used with wide addresses. -/
def checksummed : Header :=
  { smallHeader 41 3 with
    superblock := wide, fields := { (smallHeader 41 3).fields with flags := 2 } }

theorem decoded_checksummed : Decoded checksummed :=
  ⟨.ofList (checksummed.fields.encode narrow), narrow, 0, .trace, rfl⟩

/-- Four slots of two bytes each, of which the third is not used. -/
def fourSlots : Image :=
  .ofList (BlockHeading.encode checksummed .indirect 0 ++ [51, 0, 255, 0, 255, 255, 7, 0])

/-- The first two slots are read, and one row has the first. -/
theorem fourSlots_read :
    Decoded checksummed ∧ ∃ b b', IndirectBlock.read fourSlots checksummed 0 4 = .ok b ∧
      b.children = [51, 255] ∧ IndirectBlock.read fourSlots checksummed 0 1 = .ok b' ∧
      b'.children = [51] := by
  obtain ⟨hiff, -, hof⟩ := indirectBlock_exact decoded_checksummed fourSlots 0 4
  obtain ⟨b, hb⟩ := hiff.mpr (by decide +kernel)
  obtain ⟨hentries, hfewer⟩ := hof b hb
  have hchildren : b.children = [51, 255] := hentries.trans (by decide +kernel)
  obtain ⟨b', hb', hchildren'⟩ := hfewer 1 (by decide)
  rw [hchildren] at hchildren'
  exact ⟨decoded_checksummed, b, b', hb, hchildren, hb', hchildren'⟩

/-! ### Direct blocks -/

/-- The checks of a direct block, in order. The header is read before the rest of the block is
looked at. -/
def directChecks (image : Image) (h : Header) (address size : Nat) : List Check :=
  let length := DirectBlock.headerLengthOf h
  ⟨length ≤ size, .malformed address (.blockBelowHeader size length)⟩
    :: ⟨address + length ≤ image.size, .input address length ⟨address, length, image.size⟩⟩
    :: (headingChecks image h .direct address
      ++ [⟨address + size ≤ image.size, .input address size ⟨address, size, image.size⟩⟩])

/-- What is seen of the direct block at an address. -/
def sightAt (image : Image) (h : Header) (address size : Nat) : Sight :=
  ⟨address, offsetAt image h address, DirectBlock.headerLengthOf h, bytesAt image address size⟩

theorem judges_directHeader (hw : 1 ≤ h.offsetBytes ∧ h.offsetBytes ≤ maxWidth)
    (hn : address + DirectBlock.headerLengthOf h ≤ image.size) :
    ∃ c', Judges (DirectBlock.reader h)
      (cursorAt image address (DirectBlock.headerLengthOf h) 0)
      (headingChecks image h .direct address) (offsetAt image h address) c' := by
  have hheading := judges_heading hw .direct hn (Nat.le_add_right ..)
  unfold DirectBlock.reader
  by_cases hsum : h.directBlocksChecksummed = true
  · have hroom : BlockHeading.length h + 4 ≤ DirectBlock.headerLengthOf h := by
      refine Nat.le_of_eq ?_
      unfold DirectBlock.headerLengthOf DirectBlock.checksumLength
      rw [if_pos hsum]
    simp only [if_pos hsum]
    exact ⟨_, hheading.bind ((judges_skip hn hroom).bind (judges_pure ..))⟩
  · simp only [if_neg hsum]
    exact ⟨_, hheading.bind (judges_pure ..)⟩

/-- **A direct block is read** exactly as its checks decide. -/
theorem readDirect_eq (hd : Decoded h) (image : Image) (address size : Nat) (t : Level) :
    ((DirectBlock.read image h address size).result t).map sight
      = judge (directChecks image h address size) (sightAt image h address size) := by
  unfold DirectBlock.read
  refine judge_cons (fun hsize => ?_) fun hsize => ?_
  · rw [if_pos (Nat.lt_of_not_le hsize)]
    rfl
  rw [if_neg (Nat.not_lt.mpr hsize)]
  simp only [Logged.result_bind, result_lift, map_bind, readRecord_eq]
  refine judge_bind (D := headingChecks image h .direct address ++ [_]) fun hrange => ?_
  have hn : address + DirectBlock.headerLengthOf h ≤ image.size := hrange _ (List.mem_cons_self ..)
  obtain ⟨_, hreader⟩ := judges_directHeader hd.offsetBytes hn
  rw [hreader.read]
  refine judge_bind fun _ => ?_
  unfold Image.viewRegion Image.region
  refine judge_cons (fun hwhole => ?_) fun hwhole => ?_
  · rw [dif_neg hwhole]
    rfl
  · rw [dif_pos hwhole]
    have hbytes : Image.Region.toList ⟨image, address, size, hwhole⟩ = bytesAt image address size :=
      Image.Region.toList_eq _
    unfold sightAt
    rw [← hbytes]
    rfl

theorem address_of_directChecks {size : Nat} :
    ∀ c ∈ directChecks image h address size, c.error.address = address := by
  simp only [directChecks, List.forall_mem_cons, List.forall_mem_append]
  exact ⟨rfl, rfl, address_of_headingChecks, rfl, fun _ hc => absurd hc List.not_mem_nil⟩

theorem kind_of_directChecks {size : Nat} {e : HeapError}
    (he : refusal? (directChecks image h address size) = some e) :
    e.kind =
      if ¬ DirectBlock.headerLengthOf h ≤ size then .malformed
      else if ¬ address + DirectBlock.headerLengthOf h ≤ image.size then .input
      else if ¬ bytesAt image address 4 = BlockKind.direct.signature then .signatureMismatch
      else if ¬ numberAt image (address + 4) 1 = 0 then .unsupportedVersion
      else if ¬ numberAt image (address + 5) h.superblock.offsetWidth = h.address then
        .corruptReference
      else .input :=
  kind_of_refusal? he fun he => kind_of_refusal? he fun he => kind_of_refusal? he fun he =>
    kind_of_refusal? he fun he => kind_of_refusal? he kind_of_last

theorem exists_readDirect_iff (hd : Decoded h) {size : Nat} :
    (∃ b, (DirectBlock.read image h address size).result t = .ok b) ↔
      DirectBlock.headerLengthOf h ≤ size ∧ address + size ≤ image.size ∧
        bytesAt image address 4 = BlockKind.direct.signature ∧
        numberAt image (address + 4) 1 = 0 ∧
        numberAt image (address + 5) h.superblock.offsetWidth = h.address := by
  rw [exists_ok_iff (readDirect_eq hd image address size t)]
  simp only [directChecks, headingChecks, signatureCheck, versionCheck, List.forall_mem_cons,
    List.cons_append, List.nil_append, List.not_mem_nil, false_implies, implies_true, and_true]
  -- the header is in the image if the whole block is
  constructor
  · rintro ⟨hsize, -, hsignature, hversion, howner, hwhole⟩
    exact ⟨hsize, hwhole, hsignature, hversion, howner⟩
  · rintro ⟨hsize, hwhole, hsignature, hversion, howner⟩
    exact ⟨hsize, by omega, hsignature, hversion, howner, hwhole⟩

theorem headerLengthOf_eq (h : Header) :
    DirectBlock.headerLengthOf h = 5 + h.superblock.offsetWidth + h.offsetBytes
      + if h.fields.flags.toNat / 2 % 2 = 1 then 4 else 0 := by
  have hflag : h.directBlocksChecksummed = true ↔ h.fields.flags.toNat / 2 % 2 = 1 := beq_iff_eq
  unfold DirectBlock.headerLengthOf DirectBlock.checksumLength BlockHeading.length
  simp only [hflag]

theorem payload_of_sight {b : DirectBlock} {size : Nat}
    (hs : sightAt image h address size = sight b)
    (hsize : DirectBlock.headerLengthOf h ≤ size) :
    b.payload.toList = b.data.toList.drop (DirectBlock.headerLengthOf h) ∧
      bytesAt image address (DirectBlock.headerLengthOf h) ++ b.payload.toList
        = bytesAt image address size := by
  have hlength : DirectBlock.headerLengthOf h = b.headerLength := congrArg Sight.headerLength hs
  have hbytes : bytesAt image address size = b.data.toList := congrArg Sight.bytes hs
  have hpayload : b.payload.toList = b.data.toList.drop (DirectBlock.headerLengthOf h) := by
    rw [hlength]
    exact Image.Region.toList_drop ..
  have hheader : bytesAt image address (DirectBlock.headerLengthOf h)
      = (bytesAt image address size).take (DirectBlock.headerLengthOf h) := by
    unfold bytesAt
    rw [List.take_take, Nat.min_eq_left hsize]
  refine ⟨hpayload, ?_⟩
  rw [hpayload, ← hbytes, hheader, List.take_append_drop]

/-- **Direct blocks are parsed exactly.** A direct block is read with some size if and only if the
size is at least that of its header, all its bytes lie in the image, and it begins with the
signature, the version zero and the address of the heap. Its bytes are then those of the image, the
header is followed by the payload, and the heap offset is the number after the owner. If it is not
read, the error is at its address, and the first condition that does not hold tells the kind; a size
that is too small is refused whatever the image is. -/
theorem directBlock_exact (hd : Decoded h) (image : Image) (address size : Nat) (t : Level) :
    DirectBlock.headerLengthOf h = 5 + h.superblock.offsetWidth + h.offsetBytes
      + (if h.fields.flags.toNat / 2 % 2 = 1 then 4 else 0) ∧
    ((∃ b, (DirectBlock.read image h address size).result t = .ok b) ↔
      DirectBlock.headerLengthOf h ≤ size ∧ address + size ≤ image.size ∧
        bytesAt image address 4 = [0x46, 0x48, 0x44, 0x42] ∧
        numberAt image (address + 4) 1 = 0 ∧
        numberAt image (address + 5) h.superblock.offsetWidth = h.address) ∧
    (∀ b, (DirectBlock.read image h address size).result t = .ok b →
      b.address = address ∧ b.data.toList = bytesAt image address size ∧
      b.offset
        = numberAt image (address + (5 + h.superblock.offsetWidth)) h.offsetBytes ∧
      b.payload.toList = b.data.toList.drop (DirectBlock.headerLengthOf h) ∧
      bytesAt image address (DirectBlock.headerLengthOf h) ++ b.payload.toList
        = bytesAt image address size) ∧
    (∀ e, (DirectBlock.read image h address size).result t = .error e →
      e.address = address ∧
      e.kind =
        if ¬ DirectBlock.headerLengthOf h ≤ size then .malformed
        else if ¬ address + DirectBlock.headerLengthOf h ≤ image.size then .input
        else if ¬ bytesAt image address 4 = [0x46, 0x48, 0x44, 0x42] then .signatureMismatch
        else if ¬ numberAt image (address + 4) 1 = 0 then .unsupportedVersion
        else if ¬ numberAt image (address + 5) h.superblock.offsetWidth = h.address then
          .corruptReference
        else .input) ∧
    (size < DirectBlock.headerLengthOf h → ∀ other t',
      (DirectBlock.read other h address size).result t'
        = .error (.malformed address (.blockBelowHeader size (DirectBlock.headerLengthOf h)))) := by
  refine ⟨headerLengthOf_eq h, exists_readDirect_iff hd, fun b hb => ?_, fun e he => ?_,
    fun hsize other t' => ?_⟩
  · obtain ⟨hall, hsight⟩ := conditions_of_ok (readDirect_eq hd image address size t) hb
    have hsize : DirectBlock.headerLengthOf h ≤ size := hall _ (List.mem_cons_self ..)
    exact ⟨(congrArg Sight.address hsight).symm, (congrArg Sight.bytes hsight).symm,
      (congrArg Sight.offset hsight).symm, payload_of_sight hsight hsize⟩
  · have hrefused := refusal?_of_error (readDirect_eq hd image address size t) he
    exact ⟨address_of_refusal? address_of_directChecks hrefused, kind_of_directChecks hrefused⟩
  · unfold DirectBlock.read
    rw [if_pos hsize]
    rfl

/-- A direct block with a checksum after its heading and two bytes of payload. -/
def checkedBlock : Image := .ofList (DirectBlock.encode checksummed 8 [9, 9, 9, 9] [1, 2])

/-- The payload starts after the checksum, and no block is smaller than its header. -/
theorem checkedBlock_read :
    Decoded checksummed ∧
      ∃ b, (DirectBlock.read checkedBlock checksummed 0 14).result .trace = .ok b ∧
      b.offset = 8 ∧ b.payload.toList = [1, 2] ∧
      ∀ image t, (DirectBlock.read image checksummed 0 11).result t
        = .error (.malformed 0 (.blockBelowHeader 11 12)) := by
  obtain ⟨-, hiff, hof, -⟩ := directBlock_exact decoded_checksummed checkedBlock 0 14 .trace
  obtain ⟨-, -, -, -, hsmall⟩ := directBlock_exact decoded_checksummed checkedBlock 0 11 .trace
  obtain ⟨b, hb⟩ := hiff.mpr (by decide +kernel)
  obtain ⟨-, hdata, hoffset, hpayload, -⟩ := hof b hb
  rw [hdata] at hpayload
  exact ⟨decoded_checksummed, b, hb, hoffset.trans (by decide +kernel),
    hpayload.trans (by decide +kernel), hsmall (by decide)⟩

end DoublingHeap.Proofs.ExactBlocks
