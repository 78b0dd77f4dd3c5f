import DoublingHeap.Proofs.Traps
import DoublingHeap.Proofs.Classification

/-! # Decoding is safe

The walk over the blocks of a heap, loading, and resolving are written for a machine that may trap
(`load?`, `resolve?`), on top of what reads blocks. The machine gives the results of the library, so
nothing traps (`load?_gives`, `resolve?_gives`).

The walk of the machine is a loop that traps at a visit by which it comes no nearer to its end. That
it gives what the walk of the library gives is shown along the weight that every visit lowers. In a
heap that has been loaded, blocks are parts of the image, so that places in them are words; an
offset and a length may have a sum that is no word, which is no trap but a reference that leads
nowhere.

`decoding_is_safe` puts this together with the lengths of records. -/

namespace DoublingHeap.Proofs.Safety

open DoublingHeap.Walk DoublingHeap.Bytes DoublingHeap.Bytes.LittleEndian
open DoublingHeap.Proofs.Reading DoublingHeap.Proofs.Blocks DoublingHeap.Proofs.Headers
open DoublingHeap.Proofs.Index DoublingHeap.Proofs.Visits DoublingHeap.Proofs.Descent
open DoublingHeap.Proofs.Resolution DoublingHeap.Proofs.Classification
open DoublingHeap.Proofs.Consumption DoublingHeap.Proofs.Machine DoublingHeap.Proofs.TableWords
open DoublingHeap.Proofs.Traps

attribute [local instance (high)] instPowNat

variable {image : Image} {s : Superblock} {h : Header} {address : Nat} {options : Heap.Options}
  {heap : Heap} {t : Level}

/-! ### The walk -/

/-- Takes in the child in one slot. -/
def enter? (image : Image) (h : Header) (slot child : Nat) (w : Walk) : Checked Walk := do
  match ← sizeClass? h.table.width h.table.startingSize h.table.maxDirectSize slot with
  | .direct size =>
    let block ← readDirect? image h child size
    match w.index.insert block with
    | .ok index => return ⟨w.pending, index⟩
    | .error holder => throw (.malformed child (.offsetTaken block.offset holder.address))
  | .indirect =>
    let row ← div? slot h.table.width
    match ← childRows? h.table.width h.table.startingSize row with
    | some rows => return ⟨⟨child, rows⟩ :: w.pending, w.index⟩
    | none => throw (.malformed child (.rowTooSmall row))

/-- Takes in the children in the slots from `slot` on, in order. -/
def enterAll? (image : Image) (h : Header) : Nat → List Nat → Walk → Checked Walk
  | _, [], w => return w
  | slot, child :: rest, w => do
    let w ← enter? image h slot child w
    let next ← add? slot 1
    enterAll? image h next rest w

/-- Reads the indirect block of a task and takes in its children. -/
def visit? (image : Image) (h : Header) (task : Task) (w : Walk) : Checked Walk := do
  let block ← readIndirect? image h task.address task.rows
  enterAll? image h 0 block.children w

/-- Visits until nothing waits. It is a trap if a visit does not lower the weight of what waits, so
a walk that would never end is one. -/
def run? (image : Image) (h : Header) (w : Walk) : Checked BlockIndex :=
  match w.pending with
  | [] => return w.index
  | task :: rest => do
    let next ← visit? image h task ⟨rest, w.index⟩
    if _ : weight h next.pending < weight h w.pending then run? image h next
    else (none : Option BlockIndex)
termination_by weight h w.pending

/-- The direct blocks of a heap. -/
def directBlocks? (image : Image) (h : Header) : Checked BlockIndex := do
  let undefined ← undefinedAddress? h.superblock
  if h.fields.rootAddress = undefined then
    return .empty
  else if h.fields.rootRows = 0 then
    let block ← readDirect? image h h.fields.rootAddress h.table.startingSize
    return .singleton block
  else run? image h ⟨[⟨h.fields.rootAddress, h.fields.rootRows⟩], .empty⟩

/-- The heap whose header is at an address. -/
def load? (image : Image) (s : Superblock) (address : Nat) (options : Heap.Options) :
    Checked Heap := do
  let header ← (readHeader? image s address).adapt (.opening address)
  let index ← (directBlocks? image header).adapt (.opening address)
  return ⟨header, options, index⟩

section Walk

variable (hsize : image.size < 2 ^ 64) (hw : 1 ≤ h.offsetBytes ∧ h.offsetBytes ≤ maxWidth)
include hsize hw

theorem enter?_gives (slot child : Nat) (w : Walk) :
    Gives (enter? image h slot child w) ((enter image h slot child w).result t) := by
  unfold enter? enter
  refine gives_lift_bind (sizeClass?_eq h.table slot) ?_
  cases h.table.blockSize slot with
  | direct size =>
    refine Gives.bindLogged (readDirect?_gives hsize hw child size) fun block _ => ?_
    cases w.index.insert block with
    | ok index => exact gives_pure _
    | error holder => exact gives_throw _
  | indirect =>
    refine gives_lift_bind (div?_eq_some (Nat.ne_of_gt h.table.width_pos)) ?_
    refine gives_lift_bind (childRows?_eq h.table _) ?_
    show Gives _ (Logged.result (match h.table.childRows (h.table.rowOf slot) with
      | some rows => _
      | none => _) t)
    unfold DoublingTable.rowOf
    cases h.table.childRows (slot / h.table.width) with
    | some rows => exact gives_pure _
    | none => exact gives_throw _

theorem enterAll?_gives {children : List Nat} {slot : Nat} {w : Walk}
    (hslot : slot + children.length < 2 ^ 64) :
    Gives (enterAll? image h slot children w) ((enterAll image h slot children w).result t) := by
  induction children generalizing slot w with
  | nil => exact gives_pure w
  | cons child rest ih =>
    rw [List.length_cons] at hslot
    refine Gives.bindLogged (enter?_gives hsize hw slot child w) fun w _ => ?_
    exact gives_lift_bind (add?_eq_some (by omega)) (ih (by omega))

theorem visit?_gives (task : Task) (w : Walk) :
    Gives (visit? image h task w) ((visit image h task w).result t) := by
  unfold visit? visit
  have hblock := readIndirect?_gives hsize hw task.address task.rows
  refine Gives.bindLogged hblock fun block hread => ?_
  obtain ⟨-, hrows, hlength⟩ := IndirectBlock.of_read_eq_ok hread
  have hslots := slots_lt hrows
  exact enterAll?_gives hsize hw (by omega)

/-- **A walk** does not trap, and it ends. -/
theorem run?_gives (w : Walk) : Gives (run? image h w) ((run image h w).result t) := by
  -- by induction on the weight of what waits: every visit lowers it
  induction hn : weight h w.pending using Nat.strongRecOn generalizing w with
  | ind n ih =>
    subst hn
    rcases w with ⟨pending, index⟩
    rw [run?]
    cases pending with
    | nil =>
      rw [run_nil]
      exact gives_pure index
    | cons task rest =>
      rw [run_cons]
      refine Gives.bindLogged (visit?_gives hsize hw task ⟨rest, index⟩) fun next hv => ?_
      have hlt := weight_visit_lt hv
      rw [dif_pos hlt]
      exact ih _ hlt next rfl

theorem directBlocks?_gives :
    Gives (directBlocks? image h) ((directBlocks image h).result t) := by
  unfold directBlocks? directBlocks Header.root? Superblock.isUndefined
  refine gives_lift_bind (undefinedAddress?_eq _) ?_
  by_cases hroot : h.fields.rootAddress = h.superblock.undefinedAddress
  · rw [if_pos hroot, if_pos (beq_iff_eq.mpr hroot)]
    exact gives_pure _
  rw [if_neg hroot, if_neg (mt beq_iff_eq.mp hroot)]
  simp only
  split
  · exact Gives.bindLogged (readDirect?_gives hsize hw _ _) fun _ _ => gives_pure _
  · exact run?_gives hsize hw _

end Walk

theorem load?_gives (hsize : image.size < 2 ^ 64) (s : Superblock) (address : Nat)
    (options : Heap.Options) :
    Gives (load? image s address options) ((Heap.load image s address options).result t) := by
  unfold load? Heap.load
  refine Gives.bindLogged ((readHeader?_gives hsize).adapt _) fun header hheader => ?_
  have hw := offsetBytes_of_read (mapError_eq_ok_iff.mp hheader)
  exact Gives.bindLogged ((directBlocks?_gives hsize hw).adapt _) fun index _ => gives_pure _

/-! ### Identifiers -/

/-- What a step reads, if it does not fail. -/
def attempt {α : Type} (m : Scan α) : Scan (Option α) :=
  fun w => (m.step w).map fun (x, w') => (.ok x.toOption, w')

/-- Scans a heap offset and a length; the length is read even if there was no offset. -/
def placeScan (layout : Identifier.Layout) : Scan (Option (Nat × Nat)) := do
  let offset ← attempt (.uint layout.offsetBytes)
  let length ← attempt (.uint layout.lengthBytes)
  match offset, length with
  | some offset, some length => return some (offset, length)
  | _, _ => return none

/-- Scans what follows the first byte of an identifier, all of whose bytes are given. -/
def bodyScan (raw : List UInt8) (layout : Identifier.Layout) (address : Nat) (flags : UInt8) :
    Scan Identifier := do
  let version ← Scan.checked (field? flags 6 2)
  if version ≠ 0 then .refuse fun _ => .version address .identifier version
  else
    match ← Scan.checked (field? flags 4 2) with
    | 0 =>
      match ← placeScan layout with
      | some (offset, length) => return .managed offset length
      | none =>
        .refuse fun _ => .identifier address
          (.tooShort raw.length layout.offsetBytes layout.lengthBytes)
    | 1 => return .huge
    | 2 => return .tiny
    | _ => return .reserved (← Scan.checked (slice? raw 1 raw.length))

/-- Scans the identifier that a byte string spells, all of whose bytes are given. -/
def identifierScan (raw : List UInt8) (layout : Identifier.Layout) (address : Nat) :
    Scan Identifier := do
  match ← attempt .byte with
  | none => .refuse fun _ => .identifier address .empty
  | some flags => bodyScan raw layout address flags

/-- The identifier that a byte string spells, in the heap at `address`. -/
def parse? (raw : List UInt8) (layout : Identifier.Layout) (address : Nat) : Checked Identifier :=
  if raw.length ≠ layout.idLength then
    throw (.identifier address (.wrongLength layout.idLength raw.length))
  else scan (identifierScan raw layout address) address raw

theorem step_attempt {α : Type} {m : Scan α} {r : Reader α} (hm : Runs m r) {w : Window}
    {c : Cursor} (hs : Shows w c) :
    ∃ w', (attempt m).step w = some (.ok (r.step c).1.toOption, w') ∧ Shows w' (r.step c).2 := by
  obtain ⟨w', hstep, hs'⟩ := hm w c hs
  refine ⟨w', ?_, hs'⟩
  show (m.step w).map _ = _
  rw [hstep]
  rfl

section Numbers

variable {n : Nat} (hn : 1 ≤ n ∧ n ≤ maxWidth) {w : Window} {c : Cursor} (hs : Shows w c)
include hn hs

theorem attempt_uint_of_le (hle : n ≤ c.remaining) :
    ∃ w', (attempt (.uint n)).step w = some (.ok (some (decode (c.rest.take n))), w') ∧
      Shows w' ⟨c.address, c.position + n, c.rest.drop n⟩ := by
  have hstep : (Reader.uint n).step c
      = (.ok (decode (c.rest.take n)), ⟨c.address, c.position + n, c.rest.drop n⟩) := by
    unfold Reader.uint Reader.fixed
    rw [if_neg (by omega), Reader.step_bind, Reader.step_take, if_pos hle]
    rfl
  have hattempt := step_attempt (runs_uint n) hs
  rwa [hstep] at hattempt

theorem attempt_uint_of_lt (hlt : c.remaining < n) :
    ∃ w', (attempt (.uint n)).step w = some (.ok none, w') ∧ Shows w' c := by
  have hstep : (Reader.uint n).step c
      = (.error (.malformed c.address (.truncated n c.position c.remaining)), c) := by
    unfold Reader.uint Reader.fixed
    rw [if_neg (by omega), Reader.step_bind, Reader.step_take, if_neg (by omega)]
  have hattempt := step_attempt (runs_uint n) hs
  rwa [hstep] at hattempt

end Numbers

theorem step_place {layout : Identifier.Layout} (hw : Possible layout) {w : Window} {c : Cursor}
    (hs : Shows w c) :
    ∃ w', (placeScan layout).step w = some (.ok
      (if layout.offsetBytes + layout.lengthBytes ≤ c.remaining then
        some (offsetIn layout c.rest, lengthIn layout c.rest) else none), w') := by
  unfold placeScan
  by_cases hfirst : layout.offsetBytes ≤ c.remaining
  · obtain ⟨w₁, hoffset, hs₁⟩ := attempt_uint_of_le hw.offsetBytes hs hfirst
    have hleft : Cursor.remaining
        ⟨c.address, c.position + layout.offsetBytes, c.rest.drop layout.offsetBytes⟩
        = c.remaining - layout.offsetBytes := List.length_drop ..
    rw [Scan.step_bind_of_ok hoffset]
    by_cases hsecond : layout.lengthBytes ≤ c.remaining - layout.offsetBytes
    · rw [if_pos (by omega)]
      rw [← hleft] at hsecond
      obtain ⟨w₂, hlength, -⟩ := attempt_uint_of_le hw.lengthBytes hs₁ hsecond
      exact ⟨w₂, Scan.step_bind_of_ok hlength⟩
    · rw [if_neg (by omega)]
      rw [← hleft] at hsecond
      obtain ⟨w₂, hlength, -⟩ := attempt_uint_of_lt hw.lengthBytes hs₁ (Nat.lt_of_not_le hsecond)
      exact ⟨w₂, Scan.step_bind_of_ok hlength⟩
  · obtain ⟨w₁, hoffset, hs₁⟩ := attempt_uint_of_lt hw.offsetBytes hs (Nat.lt_of_not_le hfirst)
    obtain ⟨w₂, hlength, -⟩ := step_attempt (runs_uint layout.lengthBytes) hs₁
    rw [if_neg (by omega), Scan.step_bind_of_ok hoffset]
    exact ⟨w₂, Scan.step_bind_of_ok hlength⟩

section Parsing

variable {layout : Identifier.Layout} (hw : Possible layout)
include hw

theorem step_body {flags : UInt8} {rest : List UInt8}
    (hlength : (flags :: rest).length = layout.idLength) {w : Window}
    (hs : Shows w ⟨address, 1, rest⟩) :
    ((bodyScan (flags :: rest) layout address flags).step w).map Prod.fst
      = some (Identifier.parse (flags :: rest) layout address) := by
  obtain ⟨w', hplace⟩ := step_place hw hs
  have hversion : field? flags 6 2 = some (Identifier.versionOf flags) := rfl
  have hmode : field? flags 4 2 = some (Identifier.modeOf flags) := rfl
  have hpayload : slice? (flags :: rest) 1 (flags :: rest).length = some rest := by
    rw [slice?_eq_some (by simp) (Nat.le_refl _), List.take_length, List.drop_one, List.tail_cons]
  have hremaining : (Cursor.mk address 1 rest).remaining = rest.length := rfl
  unfold bodyScan Identifier.parse
  rw [if_neg (not_not_intro hlength), Scan.checked_bind hversion]
  simp only
  split
  · rfl
  rw [Scan.checked_bind hmode]
  generalize Identifier.modeOf flags = mode
  rcases mode with _ | _ | _ | mode
  · simp only
    rw [Scan.step_bind_of_ok hplace, hremaining]
    by_cases hroom : layout.offsetBytes + layout.lengthBytes ≤ rest.length
    · rw [if_pos hroom, read_place hw hroom]
      rfl
    · obtain ⟨e, he⟩ : ∃ e, (Identifier.placeReader layout).read address rest = .error e :=
        read_place_of_short (Nat.lt_of_not_le hroom)
      rw [if_neg hroom, he]
      rfl
  · rfl
  · rfl
  · simp only
    rw [Scan.checked_bind hpayload]
    rfl

/-- **Parsing** does not trap. Identifiers are no longer than a word, and an identifier that has a
first byte has an end after it. -/
theorem parse?_gives (hid : layout.idLength < 2 ^ 64) (raw : List UInt8) (address : Nat) :
    Gives (parse? raw layout address) (Identifier.parse raw layout address) := by
  unfold parse?
  split
  · rename_i hlength
    rw [parse_of_length_ne hlength]
    exact gives_throw _
  rename_i hlength
  have hs : Shows ⟨address, raw, 0⟩ (Cursor.atStart address raw) :=
    ⟨rfl, rfl, rfl, Nat.zero_le _, by show raw.length < 2 ^ 64; omega⟩
  obtain ⟨w, hbyte, hs'⟩ := step_attempt runs_byte hs
  show Scan.read _ _ _ = _
  unfold Scan.read identifierScan
  rw [Scan.step_bind_of_ok hbyte]
  cases raw with
  | nil =>
    rw [parse_nil (Decidable.not_not.mp hlength).symm]
    rfl
  | cons flags rest => exact step_body hw (Decidable.not_not.mp hlength) hs'

end Parsing

/-! ### Objects -/

/-- Whether a heap offset lies in the block. -/
def contains? (b : DirectBlock) (offset : Nat) : Option Bool :=
  if b.offset ≤ offset then do
    let start ← sub? offset b.offset
    return start < b.size
  else return false

/-- The `length` bytes at a heap offset, if they lie in the block. -/
def objectIn? (b : DirectBlock) (offset length : Nat) : Option (Option (List UInt8)) := do
  if ← contains? b offset then
    let start ← sub? offset b.offset
    -- an end that is no word is no trap here
    match add? start length with
    | none => return none
    | some stop =>
      if stop ≤ b.data.length then return some (← slice? b.data.toList start stop)
      else return none
  else return none

/-- The bytes of a managed object. -/
def managedObject? (heap : Heap) (offset length : Nat) : Checked (List UInt8) :=
  match heap.floorBlock? offset with
  | none => throw (.reference heap.address (.uncovered offset))
  | some block => do
    match ← objectIn? block offset length with
    | none =>
      throw (.reference heap.address (.outsideBlock offset length block.size block.offset))
    | some bytes => return bytes

/-- The bytes that an identifier names. -/
def resolve? (heap : Heap) (id : List UInt8) : Checked (List UInt8) := do
  match ← parse? id heap.layout heap.address with
  | .managed offset length => managedObject? heap offset length
  | .huge => throw (.feature heap.address .hugeObjects)
  | .tiny => throw (.feature heap.address .tinyObjects)
  | .reserved payload =>
    if heap.options.legacyInlineIds ∧ id.length < Heap.inlineLimit then return payload
    else throw (.identifier heap.address .unassignedMode)

theorem contains?_eq (b : DirectBlock) (offset : Nat) :
    contains? b offset = some (b.contains offset) := by
  unfold contains?
  split
  · rename_i hle
    rw [sub?_eq_some hle]
    have hiff : offset - b.offset < b.size ↔ offset < b.offset + b.size := by omega
    simp only [Option.bind_eq_bind, Option.bind_some, Option.pure_def, DirectBlock.contains, hle,
      hiff, decide_true, Bool.true_and]
  · rename_i hlt
    simp only [Option.pure_def, DirectBlock.contains, hlt, decide_false, Bool.false_and]

theorem objectIn?_eq {b : DirectBlock} (hb : b.size < 2 ^ 64) (offset length : Nat) :
    objectIn? b offset length = some (b.slice offset length) := by
  unfold objectIn? DirectBlock.slice
  rw [contains?_eq]
  simp only [Option.bind_eq_bind, Option.bind_some, Option.pure_def]
  by_cases hcontains : b.contains offset = true
  case neg => rw [if_neg hcontains, if_neg hcontains]
  rw [if_pos hcontains, if_pos hcontains]
  rw [sub?_eq_some (DirectBlock.contains_iff.mp hcontains).1, Option.bind_some]
  have hsize : b.data.length < 2 ^ 64 := hb
  by_cases hin : offset - b.offset + length ≤ b.data.length
  · have hstop : offset - b.offset + length ≤ b.data.toList.length := by
      rwa [Image.Region.length_toList]
    rw [add?_eq_some (by omega), dif_pos hin]
    simp only [if_pos hin]
    rw [slice?_eq_some (Nat.le_add_right ..) hstop, List.drop_take, Nat.add_sub_cancel_left,
      Image.Region.toList_slice]
    rfl
  · rw [dif_neg hin]
    by_cases hword : offset - b.offset + length < 2 ^ 64
    · rw [add?_eq_some hword]
      exact if_neg hin
    · have hend : add? (offset - b.offset) length = none := if_neg hword
      rw [hend]

theorem managedObject?_gives (hblocks : ∀ b ∈ heap.blocks, b.size < 2 ^ 64) (offset length : Nat) :
    Gives (managedObject? heap offset length) (heap.managedObject offset length) := by
  unfold managedObject? Heap.managedObject
  cases hfloor : heap.floorBlock? offset with
  | none => exact gives_throw _
  | some block =>
    have hmem : block ∈ heap.blocks := (floor?_eq_some_iff.mp hfloor).mem
    refine gives_lift_bind (objectIn?_eq (hblocks block hmem) offset length) ?_
    simp only
    cases block.slice offset length with
    | none => exact gives_throw _
    | some bytes => exact gives_pure bytes

/-- **Resolving** does not trap in a heap that has been loaded. -/
theorem resolve?_gives (hsize : image.size < 2 ^ 64)
    (hload : (Heap.load image s address options).result t = .ok heap) (id : List UInt8)
    (u : Level) : Gives (resolve? heap id) ((heap.resolve id).result u) := by
  have hid : heap.layout.idLength < 2 ^ 64 := by
    have hfits := fits_of_read (load_eq_ok_iff.mp hload).1
    have hlt : heap.header.fields.idLength < 256 ^ 2 :=
      hfits (2, heap.header.fields.idLength) (by simp [Header.Fields.layout])
    show heap.header.fields.idLength < 2 ^ 64
    omega
  have hblocks : ∀ b ∈ heap.blocks, b.size < 2 ^ 64 := by
    intro b hb
    obtain ⟨-, -, hin, -⟩ := indexed_is_held hload hb
    omega
  rw [resolve_eq]
  unfold resolve?
  refine (parse?_gives (possible_of_load hload) hid id heap.address).bind fun i _ => ?_
  cases i with
  | managed offset length => exact managedObject?_gives hblocks offset length
  | huge => exact gives_throw _
  | tiny => exact gives_throw _
  | reserved payload =>
    simp only [answer]
    split
    · exact gives_pure payload
    · exact gives_throw _

/-! ### Safety -/

/-- The lengths of records of blocks are words, and they are right: a direct block's header fills
its record, an indirect block stays in its own, and no block of any image is refused because a
record has ended or a width is not possible. -/
structure Exact (h : Header) : Prop where
  words : ∀ rows, rows ≤ h.table.maxRows →
    rows * h.table.width < 2 ^ 64 ∧ IndirectBlock.recordLength h rows < 2 ^ 64
  direct : ∀ c offset c', (DirectBlock.reader h).step c = (.ok offset, c') →
    c'.position = c.position + DirectBlock.headerLengthOf h
  indirect : ∀ rows c offset children c',
    (IndirectBlock.reader h rows).step c = (.ok (offset, children), c') →
      c'.position ≤ c.position + IndirectBlock.recordLength h rows
  readDirect : ∀ image address size t e,
    (DirectBlock.read image h address size).result t = .error e → ¬ CursorFault e
  readIndirect : ∀ image address rows e,
    IndirectBlock.read image h address rows = .error e → ¬ CursorFault e

theorem exact_of_offsetBytes (hw : 1 ≤ h.offsetBytes ∧ h.offsetBytes ≤ maxWidth) : Exact h where
  words _ hrows := ⟨Nat.lt_trans (slots_lt hrows) (by decide),
    Nat.lt_trans (recordLength_lt hw hrows) (by decide)⟩
  direct _ _ _ hstep := position_of_directHeader hstep
  indirect _ _ _ _ _ hstep := position_of_indirectBlock hstep
  readDirect _ _ _ _ _ hread := not_cursorFault_of_readDirect hw hread
  readIndirect _ _ _ _ hread := not_cursorFault_of_readIndirect hw hread

/-- **Decoding is safe** in every image whose size is a word. On a machine where a sum, a product, a
difference, a quotient, a part of a buffer or a number of more than eight bytes may trap, heaps are
loaded and identifiers are resolved with the same results, so nothing traps and everything ends.
Nothing fails because a record has ended or a width is not possible. The header fills its record;
records of blocks are as long as they have to be, and are so still when the address of the heap, its
flags and the length of its filters are any other. -/
theorem decoding_is_safe (hsize : image.size < 2 ^ 64) (s : Superblock) (address : Nat)
    (options : Heap.Options) (t : Level) :
    Gives (load? image s address options) ((Heap.load image s address options).result t) ∧
    (∀ heap, (Heap.load image s address options).result t = .ok heap → ∀ id u,
      Gives (resolve? heap id) ((heap.resolve id).result u)) ∧
    (∀ e, (Heap.load image s address options).result t = .error e →
      ∃ source, e = .opening address source ∧ ¬ CursorFault source) ∧
    (∀ c f c', (Header.Fields.reader s).step c = (.ok f, c') →
      c'.position = c.position + Header.encodedLength s) ∧
    ∀ h, (Header.read image s address).result t = .ok h → ∀ owner flags filtersLength,
      Exact { h with address := owner, fields := { h.fields with flags, filtersLength } } := by
  refine ⟨load?_gives hsize s address options, ?_, ?_, ?_, ?_⟩
  · intro heap hload id u
    exact resolve?_gives hsize hload id u
  · intro e hload
    exact not_cursorFault_of_load hload
  · intro c f c' hstep
    exact position_of_fields hstep
  · intro h hread owner flags filtersLength
    have hw := offsetBytes_of_read hread
    exact exact_of_offsetBytes hw

/-- Two blocks that overlap are indexed without a trap, and an object that starts in both is
found. -/
theorem overlapping_is_safe :
    overlapping.size < 2 ^ 64 ∧
      ∃ heap, (load? overlapping narrow 0 {}).run = some (.ok heap) ∧
        (resolve? heap [0, 7, 5]).run = some (.ok [66, 0, 0, 4, 1]) := by
  have hsize : overlapping.size < 2 ^ 64 := by decide +kernel
  obtain ⟨heap, hload, hbytes⟩ := overlapping_resolves
  obtain ⟨hloads, hresolves, -⟩ := decoding_is_safe hsize narrow 0 {} .trace
  have hobject := hresolves heap hload [0, 7, 5] .trace
  rw [hload] at hloads
  rw [hbytes] at hobject
  exact ⟨hsize, heap, hloads, hobject⟩

end DoublingHeap.Proofs.Safety
