import DoublingHeap.Proofs.Descent
import DoublingHeap.Proofs.Headers
import DoublingHeap.Proofs.Writing

/-! # Resolving managed objects

A managed object is looked for in one block, the floor of its offset, and found if all of it lies
there (`managedObject_eq_ok_iff`); nothing else can go wrong than that it does not
(`reference_of_managedObject`). Since every indexed block has been read from the image
(`indexed_is_held`), the bytes that a caller sees are those in the image at the place of the object
in its block. The identifier that is written for a managed object is read as that object, whatever
it is filled up with (`parse_encodeManaged`). -/

namespace DoublingHeap.Proofs.Resolution

open DoublingHeap.Bytes.LittleEndian DoublingHeap.Proofs.Reading
open DoublingHeap.Proofs.Blocks DoublingHeap.Proofs.Index DoublingHeap.Proofs.Visits
open DoublingHeap.Proofs.Headers DoublingHeap.Proofs.Descent DoublingHeap.Proofs.Writing

attribute [local instance (high)] instPowNat

variable {image : Image} {s : Superblock} {address : Nat} {options : Heap.Options} {heap : Heap}
  {t : Level}

/-- The object of `length` bytes at a heap offset lies in the block `b`, and no other block could
hold it. -/
structure Covers (blocks : List DirectBlock) (offset length : Nat) (b : DirectBlock) : Prop where
  floor : IsFloor blocks offset b
  starts : offset < b.offset + b.size
  ends : offset + length ≤ b.offset + b.size

/-! ### The search -/

/-- **A managed object is found** in the block that covers it. -/
theorem managedObject_eq_ok_iff {offset length : Nat} {bytes : List UInt8} :
    heap.managedObject offset length = .ok bytes ↔
      ∃ b, Covers heap.blocks offset length b ∧
        bytes = (b.data.toList.drop (offset - b.offset)).take length := by
  have hiff : heap.managedObject offset length = .ok bytes ↔
      ∃ b, heap.index.floor? offset = some b ∧ b.slice offset length = some bytes := by
    unfold Heap.managedObject Heap.floorBlock?
    cases heap.index.floor? offset with
    | none => simp
    | some b => cases hs : b.slice offset length <;> simp [hs]
  simp only [hiff, floor?_eq_some_iff, DirectBlock.slice_eq_some_iff, DirectBlock.contains_iff]
  constructor
  · rintro ⟨b, hfloor, ⟨-, hstart⟩, hend, hbytes⟩
    exact ⟨b, ⟨hfloor, hstart, hend⟩, hbytes⟩
  · rintro ⟨b, ⟨hfloor, hstart, hend⟩, hbytes⟩
    exact ⟨b, hfloor, ⟨hfloor.le, hstart⟩, hend, hbytes⟩

/-- **Among separate blocks** every object inside a block is found there. -/
theorem managedObject_of_separate (hs : Separate heap.blocks) {b : DirectBlock}
    (hb : b ∈ heap.blocks) {k n : Nat} (hk : k < b.size) (hkn : k + n ≤ b.size) :
    heap.managedObject (b.offset + k) n = .ok ((b.data.toList.drop k).take n) := by
  have hfloor : IsFloor heap.blocks (b.offset + k) b :=
    isFloor_of_separate hs hb (Nat.le_add_right ..) (by omega)
  refine managedObject_eq_ok_iff.mpr ⟨b, ⟨hfloor, by omega, by omega⟩, ?_⟩
  rw [Nat.add_sub_cancel_left]

/-- **A managed object that is not found** is a reference that leads nowhere. -/
theorem reference_of_managedObject {offset length : Nat} {e : HeapError}
    (he : heap.managedObject offset length = .error e) :
    ∃ fault, e = .reference heap.address fault := by
  unfold Heap.managedObject at he
  split at he
  · cases he
    exact ⟨_, rfl⟩
  · split at he
    · cases he
      exact ⟨_, rfl⟩
    · cases he

theorem resolve_managed {id : List UInt8} {offset length : Nat}
    (hid : Identifier.parse id heap.layout heap.address = .ok (.managed offset length)) :
    (heap.resolve id).result t = heap.managedObject offset length := by
  unfold Heap.resolve
  rw [hid]
  rfl

/-! ### Written identifiers -/

/-- An identifier of the layout has room for this offset and this length. -/
structure Nameable (layout : Identifier.Layout) (offset length : Nat) : Prop where
  offsetBytes : 1 ≤ layout.offsetBytes ∧ layout.offsetBytes ≤ maxWidth
  lengthBytes : 1 ≤ layout.lengthBytes ∧ layout.lengthBytes ≤ maxWidth
  offset : offset < 256 ^ layout.offsetBytes
  length : length < 256 ^ layout.lengthBytes

theorem readsBack_place {layout : Identifier.Layout} {offset length : Nat}
    (hn : Nameable layout offset length) :
    ReadsBack (Identifier.placeReader layout)
      (encode layout.offsetBytes offset ++ encode layout.lengthBytes length) (offset, length) := by
  unfold Identifier.placeReader
  refine (readsBack_uint hn.offsetBytes hn.offset).bind ?_
  rw [← List.append_nil (encode layout.lengthBytes length)]
  refine (readsBack_uint hn.lengthBytes hn.length).bind ?_
  exact readsBack_pure _

theorem parse_encodeManaged {layout : Identifier.Layout} (address : Nat) {offset length : Nat}
    (padding : List UInt8) (hn : Nameable layout offset length)
    (hlen : 1 + layout.offsetBytes + layout.lengthBytes + padding.length = layout.idLength) :
    Identifier.parse (Identifier.encodeManaged layout offset length padding) layout address
      = .ok (.managed offset length) := by
  have hid : (Identifier.encodeManaged layout offset length padding).length = layout.idLength := by
    unfold Identifier.encodeManaged
    rw [List.length_cons, List.length_append, List.length_append, length_encode, length_encode]
    omega
  have hplace := (readsBack_place hn).read address padding
  have hversion : Identifier.versionOf 0 = 0 := by decide
  have hmode : Identifier.modeOf 0 = 0 := by decide
  unfold Identifier.parse
  rw [if_neg (Decidable.not_not.mpr hid)]
  unfold Identifier.encodeManaged
  simp only [hversion, hmode, hplace, ne_eq, not_true_eq_false, if_false]

/-! ### Indexed blocks and the image -/

/-- **Every indexed block stands in the image**: its heading at its address, and all its bytes. -/
theorem indexed_is_held (hload : (Heap.load image s address options).result t = .ok heap)
    {b : DirectBlock} (hb : b ∈ heap.blocks) :
    Encodable heap.header b.offset ∧
      Holds image b.address (BlockHeading.encode heap.header .direct b.offset) ∧
      b.address + b.size ≤ image.size ∧
      ∀ k n, k + n ≤ b.size → Holds image (b.address + k) ((b.data.toList.drop k).take n) := by
  obtain ⟨-, -, hwalk⟩ := load_eq_ok_iff.mp hload
  obtain ⟨size, hread⟩ := directBlocks_read hwalk b hb
  obtain ⟨-, he, hheading, within, heq⟩ := readDirect_iff.mp hread
  have hdata : b.data = ⟨image, b.address, size, within⟩ := congrArg DirectBlock.data heq
  unfold DirectBlock.size
  rw [hdata]
  refine ⟨he, hheading, within, fun k n hkn => ?_⟩
  have hrange : b.address + k + n ≤ image.size := by
    simp only at hkn
    omega
  have hbytes : ((image.toList.drop b.address).take size |>.drop k).take n
      = (image.toList.drop (b.address + k)).take n := by
    rw [List.drop_take, List.drop_drop, List.take_take]
    congr 1
    simp only at hkn
    omega
  rw [Image.Region.toList_eq, hbytes]
  exact holds_range hrange

/-- **Resolution is sound against the image.** A managed object is resolved exactly if the floor of
its offset covers it. The bytes are then those of the image at the place of the object in that
block, where the image holds a direct block of this heap with that offset; and every failure is a
corrupt reference in this heap. -/
theorem resolve_managed_sound {id : List UInt8} {offset length : Nat} {u : Level}
    (hload : (Heap.load image s address options).result t = .ok heap)
    (hid : Identifier.parse id heap.layout heap.address = .ok (.managed offset length)) :
    ((∃ bytes, (heap.resolve id).result u = .ok bytes) ↔
      ∃ b, IsFloor heap.blocks offset b ∧ offset < b.offset + b.size ∧
        offset + length ≤ b.offset + b.size) ∧
    (∀ bytes b, (heap.resolve id).result u = .ok bytes → IsFloor heap.blocks offset b →
      bytes.length = length ∧ Holds image (b.address + (offset - b.offset)) bytes ∧
        offset - b.offset + length ≤ b.size ∧ b.address + b.size ≤ image.size ∧
        address < 256 ^ s.offsetWidth ∧ b.offset < 256 ^ heap.header.offsetBytes ∧
        Holds image b.address ([0x46, 0x48, 0x44, 0x42] ++ [0] ++ encode s.offsetWidth address
          ++ encode heap.header.offsetBytes b.offset)) ∧
    ∀ e, (heap.resolve id).result u = .error e →
      e.kind = .corruptReference ∧ ∃ fault, e = .reference address fault := by
  obtain ⟨hheader, -, -⟩ := load_eq_ok_iff.mp hload
  obtain ⟨haddr, hsuper⟩ := address_of_read hheader
  rw [resolve_managed hid]
  refine ⟨⟨?_, ?_⟩, ?_, ?_⟩
  · rintro ⟨bytes, hr⟩
    obtain ⟨b, ⟨hfloor, hstart, hend⟩, -⟩ := managedObject_eq_ok_iff.mp hr
    exact ⟨b, hfloor, hstart, hend⟩
  · rintro ⟨b, hfloor, hstart, hend⟩
    exact ⟨_, managedObject_eq_ok_iff.mpr ⟨b, ⟨hfloor, hstart, hend⟩, rfl⟩⟩
  · intro bytes b hr hfloor
    obtain ⟨b', ⟨hfloor', -, hend⟩, hbytes⟩ := managedObject_eq_ok_iff.mp hr
    cases hfloor.unique heap.index.ascending hfloor'
    obtain ⟨henc, hheading, hin, hpart⟩ := indexed_is_held hload hfloor.mem
    have hle := hfloor.le
    have hplace : offset - b.offset + length ≤ b.size := by omega
    have hheld := hpart _ _ hplace
    rw [← hbytes] at hheld
    have hlen : bytes.length = length := by
      rw [hbytes, List.length_take, List.length_drop, Image.Region.length_toList]
      exact Nat.min_eq_left (by unfold DirectBlock.size at hplace; omega)
    have howner := henc.owner
    unfold BlockHeading.encode at hheading
    rw [haddr, hsuper] at howner hheading
    exact ⟨hlen, hheld, hplace, hin, howner, henc.offset, hheading⟩
  · intro e hr
    obtain ⟨fault, rfl⟩ := reference_of_managedObject hr
    unfold Heap.address
    rw [haddr]
    exact ⟨rfl, fault, rfl⟩

/-- A heap with two direct blocks that overlap in heap address space. The one in the first slot
starts four bytes after the other. -/
def overlapping : Image :=
  written [⟨0, (smallHeader 41 2).fields.encode narrow⟩,
    ⟨41, IndirectBlock.encode (smallHeader 41 2) ⟨41, 0, 2, [50, 58]⟩⟩,
    ⟨50, DirectBlock.encode (smallHeader 41 2) 4 [] [1]⟩,
    ⟨58, DirectBlock.encode (smallHeader 41 2) 0 [] [2]⟩]

theorem overlapping_resolves :
    ∃ heap, (Heap.load overlapping narrow 0 {}).result .trace = .ok heap ∧
      (heap.resolve [0, 7, 5]).result .trace = .ok [66, 0, 0, 4, 1] := by
  have hrun : ((Heap.load overlapping narrow 0 {} >>= fun heap =>
      heap.resolve [0, 7, 5]).result .trace).toOption = some [66, 0, 0, 4, 1] := by decide +kernel
  exact Logged.result_bind_eq_ok.mp (eq_ok_of_toOption hrun)

/-- An object that starts where two blocks overlap is in the one that starts last. -/
theorem resolve_in_overlapping :
    ∃ heap b, (Heap.load overlapping narrow 0 {}).result .trace = .ok heap ∧
      Identifier.parse [0, 7, 5] heap.layout heap.address = .ok (.managed 7 5) ∧
      IsFloor heap.blocks 7 b ∧
      (heap.resolve [0, 7, 5]).result .trace = .ok [66, 0, 0, 4, 1] ∧
      Holds overlapping (b.address + (7 - b.offset)) [66, 0, 0, 4, 1] := by
  obtain ⟨heap, hload, hr⟩ := overlapping_resolves
  have hread : (Header.read overlapping narrow 0).result .trace = .ok (smallHeader 41 2) := rfl
  have hheader : heap.header = smallHeader 41 2 :=
    Except.ok.inj ((load_eq_ok_iff.mp hload).1.symm.trans hread)
  have hid : Identifier.parse [0, 7, 5] heap.layout heap.address = .ok (.managed 7 5) := by
    unfold Heap.layout Heap.address
    rw [hheader]
    rfl
  obtain ⟨hiff, hsound, -⟩ := resolve_managed_sound (u := .trace) hload hid
  obtain ⟨b, hfloor, -, -⟩ := hiff.mp ⟨_, hr⟩
  exact ⟨heap, b, hload, hid, hfloor, hr, (hsound _ b hr hfloor).2.1⟩

end DoublingHeap.Proofs.Resolution
