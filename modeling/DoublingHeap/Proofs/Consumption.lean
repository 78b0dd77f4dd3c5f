import DoublingHeap.Proofs.Frame
import DoublingHeap.Proofs.Termination

/-! # Records are as long as they have to be

The length of a record is computed before it is read. Readers never want more: a reader that stays
*within* a number of bytes (`Within`) does not run out of a record with so many, and all widths that
it asks for are possible. This holds of headers (`within_fields`), direct blocks
(`within_directHeader`) and indirect blocks (`within_indirect`) with the lengths that are computed
for them, whatever the flags, the filters and the address of the heap are.

So no heap fails to be loaded because a record is truncated or an integer too wide
(`not_cursorFault_of_load`). -/

namespace DoublingHeap.Proofs.Consumption

open DoublingHeap.Bytes.LittleEndian DoublingHeap.Walk
open DoublingHeap.Proofs.Reading DoublingHeap.Proofs.Blocks DoublingHeap.Proofs.Headers
open DoublingHeap.Proofs.Children DoublingHeap.Proofs.Faults DoublingHeap.Proofs.Steps

attribute [local instance (high)] instPowNat

variable {image : Image} {s : Superblock} {h : Header} {address : Nat} {t : Level} {α β : Type}

/-! ### Running out of a record -/

/-- A record has ended, or a width is not possible. -/
inductive CursorFault : HeapError → Prop where
  | truncated (address needed position remaining : Nat) :
      CursorFault (.malformed address (.truncated needed position remaining))
  | integerWidth (address width : Nat) : CursorFault (.malformed address (.integerWidth width))

/-- The reader takes no more than `n` bytes, and where there are so many, it does not run out of
them. -/
structure Within (r : Reader α) (n : Nat) : Prop where
  taken : ∀ c a c', r.step c = (.ok a, c') → c.remaining ≤ c'.remaining + n
  enough : ∀ c e c', n ≤ c.remaining → r.step c = (.error e, c') → ¬ CursorFault e

theorem Within.mono {r : Reader α} {m n : Nat} (hr : Within r m) (hle : m ≤ n) : Within r n := by
  refine ⟨fun c a c' hstep => ?_, fun c e c' hn hstep => hr.enough c e c' (by omega) hstep⟩
  have htaken := hr.taken c a c' hstep
  omega

theorem within_pure (a : α) : Within (pure a : Reader α) 0 := by
  refine ⟨fun c a' c' hstep => ?_, fun c e c' _ hstep => ?_⟩ <;> rw [Reader.step_pure] at hstep <;>
    cases hstep
  exact Nat.le_refl _

theorem Within.bind {r : Reader α} {f : α → Reader β} {m n : Nat} (hr : Within r m)
    (hf : ∀ a, Within (f a) n) : Within (r >>= f) (m + n) := by
  refine ⟨fun c b c'' hstep => ?_, fun c e c'' hle hstep => ?_⟩
  · obtain ⟨a, c', hfirst, hrest⟩ := Reader.step_bind_eq_ok.mp hstep
    have h₁ := hr.taken c a c' hfirst
    have h₂ := (hf a).taken c' b c'' hrest
    omega
  · rcases step_bind_eq_error.mp hstep with hfirst | ⟨a, c', hfirst, hrest⟩
    · exact hr.enough c e c'' (by omega) hfirst
    · have h₁ := hr.taken c a c' hfirst
      exact (hf a).enough c' e c'' (by omega) hrest

theorem within_refuse {error : Nat → HeapError} (herror : ∀ a, ¬ CursorFault (error a)) :
    Within (Reader.refuse error : Reader α) 0 := by
  refine ⟨fun c a c' hstep => ?_, fun c e c' _ hstep => ?_⟩ <;> rw [step_refuse] at hstep <;>
    cases hstep
  exact herror _

theorem within_take (n : Nat) : Within (Reader.take n) n := by
  refine ⟨fun c bytes c' hstep => ?_, fun c e c' hle hstep => ?_⟩
  · obtain ⟨hlen, hp⟩ := step_take_iff.mp hstep
    unfold Cursor.remaining
    rw [hp.rest, List.length_append]
    omega
  · rw [Reader.step_take, if_pos hle] at hstep
    cases hstep

theorem within_skip (n : Nat) : Within (Reader.skip n) n :=
  (within_take n).bind fun _ => within_pure _

theorem within_byte : Within Reader.byte 1 := (within_take 1).bind fun _ => within_pure _

theorem within_fixed (w : Nat) : Within (Reader.fixed w) w :=
  (within_take w).bind fun _ => within_pure _

theorem within_uint {w : Nat} (hw : 1 ≤ w ∧ w ≤ maxWidth) : Within (Reader.uint w) w := by
  unfold Reader.uint
  rw [if_neg (by omega)]
  exact within_fixed w

theorem within_signature (expected : List UInt8) : Within (Reader.signature expected) 4 := by
  refine (within_take 4).bind (n := 0) fun found => ?_
  split
  · exact within_refuse fun _ => nofun
  · exact within_pure ()

theorem within_version (subject : Structure) : Within (Reader.version subject) 1 := by
  refine within_byte.bind (n := 0) fun v => ?_
  split
  · exact within_refuse fun _ => nofun
  · exact within_pure ()

theorem Within.collect {r : Reader (Option α)} {k : Nat} (hr : Within r k) (n : Nat)
    (found : List α) : Within (Reader.collect r n found) (n * k) := by
  induction n generalizing found with
  | zero =>
    rw [Nat.zero_mul]
    exact within_pure _
  | succ n ih =>
    rw [Nat.succ_mul, Nat.add_comm (n * k)]
    refine hr.bind fun a? => ?_
    cases a? with
    | none => exact (within_pure _).mono (Nat.zero_le _)
    | some a => exact ih (a :: found)

theorem Within.of_read {r : Reader α} {n : Nat} (hr : Within r n) {record : List UInt8}
    (hlen : n ≤ record.length) {e : HeapError} (hread : r.read address record = .error e) :
    ¬ CursorFault e := by
  obtain ⟨c', hstep⟩ := read_eq_error_iff.mp hread
  exact hr.enough (Cursor.atStart address record) e c' hlen hstep

/-! ### The records of a heap -/

theorem within_fields (s : Superblock) :
    Within (Header.Fields.reader s) (Header.encodedLength s) := by
  have offset := within_uint (offsetWidth_possible s)
  have length : Within (Reader.uint s.lengthWidth) s.lengthWidth :=
    within_uint ⟨s.lengthWidth_pos, s.lengthWidth_le⟩
  unfold Header.Fields.reader
  -- one step for each field, in stored order
  refine Within.mono ((within_signature _).bind fun _ => (within_version _).bind fun _ =>
    (within_fixed 2).bind fun _ => (within_fixed 2).bind fun _ => within_byte.bind fun _ =>
    (within_fixed 4).bind fun _ => length.bind fun _ => offset.bind fun _ => length.bind fun _ =>
    offset.bind fun _ => length.bind fun _ => length.bind fun _ => length.bind fun _ =>
    length.bind fun _ => length.bind fun _ => length.bind fun _ => length.bind fun _ =>
    length.bind fun _ => (within_fixed 2).bind fun _ => length.bind fun _ => length.bind fun _ =>
    (within_fixed 2).bind fun _ => (within_fixed 2).bind fun _ => offset.bind fun _ =>
    (within_fixed 2).bind fun _ => within_pure _) ?_
  unfold Header.encodedLength
  omega

section Blocks

variable (hw : 1 ≤ h.offsetBytes ∧ h.offsetBytes ≤ maxWidth)
include hw

theorem within_heading (kind : BlockKind) :
    Within (BlockHeading.reader h kind) (BlockHeading.length h) := by
  unfold BlockHeading.reader
  refine Within.mono ((within_signature _).bind fun _ => (within_version _).bind fun _ =>
    (within_uint (offsetWidth_possible h.superblock)).bind (n := h.offsetBytes) fun owner => ?_) ?_
  · split
    · refine Within.mono ((within_refuse fun _ => ?_).bind fun _ => within_uint hw) ?_
      · nofun
      · omega
    · exact within_uint hw
  · unfold BlockHeading.length
    omega

theorem within_directHeader :
    Within (DirectBlock.reader h) (DirectBlock.headerLengthOf h) := by
  unfold DirectBlock.reader DirectBlock.headerLengthOf DirectBlock.checksumLength
  refine (within_heading hw .direct).bind fun offset => ?_
  split
  · exact (within_skip 4).bind fun _ => within_pure _
  · exact within_pure _

theorem within_indirect (rows : Nat) :
    Within (IndirectBlock.reader h rows) (IndirectBlock.recordLength h rows) := by
  have slot : Within (IndirectBlock.slotReader h) (slotLength h) := by
    unfold IndirectBlock.slotReader slotLength IndirectBlock.filterEntryLength
    refine (within_uint (offsetWidth_possible h.superblock)).bind fun child => ?_
    split
    · exact (within_pure _).mono (Nat.zero_le _)
    split
    · exact ((within_skip _).bind fun _ => within_pure _).mono (Nat.le_refl _)
    · exact within_pure _
  exact (within_heading hw .indirect).bind fun _ =>
    (slot.collect _ _).bind fun _ => within_pure _

end Blocks

/-! ### Errors of reading -/

theorem not_cursorFault_of_readRecord {length : Nat} {e : HeapError}
    (hr : image.readRecord address length = .error e) : ¬ CursorFault e := by
  obtain ⟨source, rfl⟩ := fault_of_readRecord hr
  nofun

theorem length_of_readRecord {length : Nat} {record : List UInt8}
    (hr : image.readRecord address length = .ok record) : length ≤ record.length :=
  Nat.le_of_eq (readRecord_eq_ok_iff.mp hr).2.symm

theorem not_cursorFault_of_ofFields {f : Header.Fields} {e : HeapError}
    (hof : Header.ofFields s address f = .error e) : ¬ CursorFault e := by
  unfold Header.ofFields at hof
  by_cases hfilters : f.filtersLength > 0
  · rw [if_pos hfilters] at hof
    cases hof
    nofun
  rw [if_neg hfilters] at hof
  rcases bind_eq_error_iff.mp hof with htable | ⟨table, -, hof⟩
  · obtain ⟨error, -, rfl⟩ := mapError_eq_error_iff.mp htable
    nofun
  · split at hof
    · cases hof
      nofun
    · cases hof

theorem not_cursorFault_of_readHeader {e : HeapError}
    (hread : (Header.read image s address).result t = .error e) : ¬ CursorFault e := by
  unfold Header.read at hread
  rcases result_bind_eq_error.mp hread with hrec | ⟨record, hrec, hread⟩
  · exact not_cursorFault_of_readRecord hrec
  rcases result_bind_eq_error.mp hread with hfields | ⟨fields, -, hread⟩
  · exact (within_fields s).of_read (length_of_readRecord hrec) hfields
  rcases result_bind_eq_error.mp hread with hof | ⟨header, -, hread⟩
  · exact not_cursorFault_of_ofFields hof
  · rcases result_bind_eq_error.mp hread with hemit | ⟨_, -, hpure⟩
    · cases hemit
    · cases hpure

theorem not_cursorFault_of_readDirect (hw : 1 ≤ h.offsetBytes ∧ h.offsetBytes ≤ maxWidth)
    {size : Nat} {e : HeapError}
    (hread : (DirectBlock.read image h address size).result t = .error e) : ¬ CursorFault e := by
  unfold DirectBlock.read at hread
  split at hread
  · cases hread
    nofun
  rcases result_bind_eq_error.mp hread with hrec | ⟨record, hrec, hread⟩
  · exact not_cursorFault_of_readRecord hrec
  rcases result_bind_eq_error.mp hread with hreader | ⟨offset, -, hread⟩
  · exact (within_directHeader hw).of_read (length_of_readRecord hrec) hreader
  rcases result_bind_eq_error.mp hread with hview | ⟨data, -, hread⟩
  · obtain ⟨source, rfl⟩ := fault_of_viewRegion hview
    nofun
  · rcases result_bind_eq_error.mp hread with hemit | ⟨_, -, hpure⟩
    · cases hemit
    · cases hpure

theorem not_cursorFault_of_readIndirect (hw : 1 ≤ h.offsetBytes ∧ h.offsetBytes ≤ maxWidth)
    {rows : Nat} {e : HeapError} (hread : IndirectBlock.read image h address rows = .error e) :
    ¬ CursorFault e := by
  unfold IndirectBlock.read at hread
  split at hread
  · cases hread
    nofun
  rcases bind_eq_error_iff.mp hread with hrec | ⟨record, hrec, hread⟩
  · exact not_cursorFault_of_readRecord hrec
  rcases bind_eq_error_iff.mp hread with hreader | ⟨_, -, hpure⟩
  · exact (within_indirect hw rows).of_read (length_of_readRecord hrec) hreader
  · cases hpure

theorem not_cursorFault_of_fails (hw : 1 ≤ h.offsetBytes ∧ h.offsetBytes ≤ maxWidth) {p : Point}
    {e : HeapError} (hf : Fails image h t p e) : ¬ CursorFault e := by
  cases hf with
  | visit hread => exact not_cursorFault_of_readIndirect hw hread
  | direct _ _ hread => exact not_cursorFault_of_readDirect hw hread
  | taken _ _ _ _ => nofun
  | tooSmall _ _ _ => nofun

theorem offsetBytes_of_read (hread : (Header.read image s address).result t = .ok h) :
    1 ≤ h.offsetBytes ∧ h.offsetBytes ≤ maxWidth := by
  obtain ⟨_, -, -, -, hof⟩ := readHeader_eq_ok_iff.mp hread
  exact offsetBytes_possible hof

/-- **Loading** never runs out of a record. -/
theorem not_cursorFault_of_load {options : Heap.Options} {e : HeapError}
    (hload : (Heap.load image s address options).result t = .error e) :
    ∃ source, e = .opening address source ∧ ¬ CursorFault source := by
  obtain ⟨source, rfl, hheader | ⟨header, hheader, hfirst⟩⟩ := load_eq_error_iff.mp hload
  · exact ⟨source, rfl, not_cursorFault_of_readHeader hheader⟩
  · have hw := offsetBytes_of_read hheader
    refine ⟨source, rfl, ?_⟩
    cases hfirst with
    | directRoot _ _ hread => exact not_cursorFault_of_readDirect hw hread
    | walk _ _ hf => exact not_cursorFault_of_fails hw hf

/-! ### The lengths are exact -/

theorem position_of_fields {f : Header.Fields} {c c' : Cursor}
    (hstep : (Header.Fields.reader s).step c = (.ok f, c')) :
    c'.position = c.position + Header.encodedLength s := by
  have hposition := (step_fields_iff.mp hstep).2.position
  rwa [Header.length_encode] at hposition

theorem position_of_directHeader {offset : Nat} {c c' : Cursor}
    (hstep : (DirectBlock.reader h).step c = (.ok offset, c')) :
    c'.position = c.position + DirectBlock.headerLengthOf h := by
  obtain ⟨-, checksum, hlen, hp⟩ := step_directHeader_iff.mp hstep
  have hposition := hp.position
  rwa [List.length_append, BlockHeading.length_encode, hlen] at hposition

/-- **An indirect block** is no longer than its record. -/
theorem position_of_indirectBlock {rows offset : Nat} {children : List Nat} {c c' : Cursor}
    (hstep : (IndirectBlock.reader h rows).step c = (.ok (offset, children), c')) :
    c'.position ≤ c.position + IndirectBlock.recordLength h rows := by
  have hposition := Frame.position_of_indirect (b := ⟨0, offset, rows, children⟩) rfl hstep
  have hslots : min (children.length + 1) (IndirectBlock.slots h rows) * slotLength h
      ≤ IndirectBlock.slots h rows * slotLength h := Nat.mul_le_mul_right _ (Nat.min_le_right _ _)
  have hlength : IndirectBlock.recordLength h rows
      = BlockHeading.length h + IndirectBlock.slots h rows * slotLength h := rfl
  simp only [Frame.usedLength] at hposition
  omega

end DoublingHeap.Proofs.Consumption
