import Mathlib.Data.List.Pairwise
import DoublingHeap.Proofs.Overlap

/-! # Looking in one block and looking in all

A managed object is looked for in one block only, the floor of its offset. One may also look for it
in every block (`scan`). Where no offset lies in two blocks, both find the same
(`managedObject_eq_ok_iff_slice`, `scan_eq_some_iff`): blocks that have been read are not empty
(`size_pos_of_load`), so apart as sets of offsets means that each ends before the next one begins
(`separate_of_apart`), and then the floor of an offset is the one block that it lies in.

* `Inside`: the block has the offset of an object and all offsets up to the end of the object.
* `Apart`: no offset lies in two blocks. -/

namespace DoublingHeap.Proofs.Search

open DoublingHeap.Proofs.Blocks DoublingHeap.Proofs.Index DoublingHeap.Proofs.Visits
open DoublingHeap.Proofs.Headers DoublingHeap.Proofs.Resolution DoublingHeap.Proofs.Overlap
open DoublingHeap.Proofs.Descent

variable {image : Image} {s : Superblock} {address : Nat} {options : Heap.Options} {heap : Heap}
  {t : Level} {blocks : List DirectBlock} {b c : DirectBlock} {offset length : Nat}

/-- The object at an offset, looked for in every block. -/
def scan (blocks : List DirectBlock) (offset length : Nat) : Option (List UInt8) :=
  blocks.findSome? fun b => b.slice offset length

/-- The offset of an object lies in the block, and so does every offset up to its end. -/
structure Inside (b : DirectBlock) (offset length : Nat) : Prop where
  start : b.contains offset = true
  whole : ∀ x, offset ≤ x → x < offset + length → b.contains x = true

/-- **No offset lies in two blocks.** -/
def Apart (blocks : List DirectBlock) : Prop :=
  blocks.Pairwise fun b c => ∀ x, ¬ (b.contains x = true ∧ c.contains x = true)

/-! ### One block -/

theorem inside_iff : Inside b offset length ↔
    b.contains offset = true ∧ offset + length ≤ b.offset + b.size := by
  constructor
  · rintro ⟨hstart, hwhole⟩
    refine ⟨hstart, ?_⟩
    have hin := DirectBlock.contains_iff.mp hstart
    rcases Nat.eq_zero_or_pos length with rfl | hpos
    · omega
    · have hlast := DirectBlock.contains_iff.mp (hwhole (offset + length - 1) (by omega) (by omega))
      omega
  · rintro ⟨hstart, hend⟩
    have hin := DirectBlock.contains_iff.mp hstart
    exact ⟨hstart, fun x hle hlt => DirectBlock.contains_iff.mpr (by omega)⟩

theorem exists_slice_iff :
    (∃ bytes, b.slice offset length = some bytes) ↔ Inside b offset length := by
  rw [inside_iff]
  constructor
  · rintro ⟨bytes, hslice⟩
    obtain ⟨hstart, hend, -⟩ := DirectBlock.slice_eq_some_iff.mp hslice
    exact ⟨hstart, hend⟩
  · rintro ⟨hstart, hend⟩
    exact ⟨_, DirectBlock.slice_eq_some_iff.mpr ⟨hstart, hend, rfl⟩⟩

/-! ### Sets of blocks -/

theorem eq_of_contains (hd : Apart blocks) (hb : b ∈ blocks) (hc : c ∈ blocks)
    (hinb : b.contains offset = true) (hinc : c.contains offset = true) : b = c := by
  by_contra hne
  have hsymm : Std.Symm fun b c : DirectBlock =>
      ∀ x, ¬ (b.contains x = true ∧ c.contains x = true) :=
    ⟨fun _ _ hbc x hx => hbc x hx.symm⟩
  exact List.Pairwise.forall hd hb hc hne offset ⟨hinb, hinc⟩

/-- **Blocks that are apart**, none of them empty, end before the next one begins. -/
theorem separate_of_apart (ha : Ascending blocks) (hpos : ∀ b ∈ blocks, 0 < b.size)
    (hd : Apart blocks) : Separate blocks := by
  refine (ha.and hd).imp_of_mem fun {b c} _ hc hbc => ?_
  obtain ⟨hlt, hbc⟩ := hbc
  have hcpos := hpos c hc
  have hinc : c.contains c.offset = true := DirectBlock.contains_iff.mpr (by omega)
  by_contra hover
  have hinb : b.contains c.offset = true := DirectBlock.contains_iff.mpr (by omega)
  exact hbc c.offset ⟨hinb, hinc⟩

theorem scan_eq_some_iff (hd : Apart blocks) {bytes : List UInt8} :
    scan blocks offset length = some bytes ↔ ∃ b ∈ blocks, b.slice offset length = some bytes := by
  unfold scan
  constructor
  · exact List.exists_of_findSome?_eq_some
  · rintro ⟨b, hb, hslice⟩
    cases hfound : blocks.findSome? fun b => b.slice offset length with
    | none =>
      have hnone := List.findSome?_eq_none_iff.mp hfound b hb
      rw [hslice] at hnone
      cases hnone
    | some bytes' =>
      obtain ⟨c, hc, hslice'⟩ := List.exists_of_findSome?_eq_some hfound
      have hinb := (DirectBlock.slice_eq_some_iff.mp hslice).1
      have hinc := (DirectBlock.slice_eq_some_iff.mp hslice').1
      cases eq_of_contains hd hb hc hinb hinc
      rw [← hslice', hslice]

/-! ### Loaded heaps -/

theorem size_pos_of_load (hload : (Heap.load image s address options).result t = .ok heap) :
    ∀ b ∈ heap.blocks, 0 < b.size := by
  intro b hb
  obtain ⟨-, -, hwalk⟩ := load_eq_ok_iff.mp hload
  obtain ⟨size, hread⟩ := directBlocks_read hwalk b hb
  exact size_pos_of_readDirect hread

theorem separate_of_load (hload : (Heap.load image s address options).result t = .ok heap)
    (hd : Apart heap.blocks) : Separate heap.blocks :=
  separate_of_apart heap.index.ascending (size_pos_of_load hload) hd

/-- **Among separate blocks** the floor of an offset is the block that it lies in, so an object is
found exactly if some block has a slice of it. -/
theorem managedObject_eq_ok_iff_slice (hs : Separate heap.blocks) {bytes : List UInt8} :
    heap.managedObject offset length = .ok bytes ↔
      ∃ b ∈ heap.blocks, b.slice offset length = some bytes := by
  rw [managedObject_eq_ok_iff]
  constructor
  · rintro ⟨b, ⟨hfloor, hstart, hend⟩, hbytes⟩
    have hin : b.contains offset = true := DirectBlock.contains_iff.mpr ⟨hfloor.le, hstart⟩
    exact ⟨b, hfloor.mem, DirectBlock.slice_eq_some_iff.mpr ⟨hin, hend, hbytes⟩⟩
  · rintro ⟨b, hb, hslice⟩
    obtain ⟨hin, hend, hbytes⟩ := DirectBlock.slice_eq_some_iff.mp hslice
    obtain ⟨hle, hlt⟩ := DirectBlock.contains_iff.mp hin
    exact ⟨b, ⟨isFloor_of_separate hs hb hle hlt, hlt, hend⟩, hbytes⟩

/-- **An object that leaves its block** is refused, whatever comes after the block. -/
theorem managedObject_of_leaves (hs : Separate heap.blocks) (hb : b ∈ heap.blocks)
    (hin : b.contains offset = true) (hend : b.offset + b.size < offset + length) :
    heap.managedObject offset length
      = .error (.reference heap.address (.outsideBlock offset length b.size b.offset)) := by
  obtain ⟨hle, hlt⟩ := DirectBlock.contains_iff.mp hin
  have hfloor : heap.floorBlock? offset = some b :=
    floor?_eq_some_iff.mpr (isFloor_of_separate hs hb hle hlt)
  have hslice : b.slice offset length = none := by
    cases hslice : b.slice offset length with
    | none => rfl
    | some bytes =>
      have := (DirectBlock.slice_eq_some_iff.mp hslice).2.1
      omega
  unfold Heap.managedObject
  rw [hfloor]
  simp only [hslice]

/-- **Looking in the floor of an offset finds what looking everywhere finds.** In a loaded heap
where no offset lies in two blocks, an identifier of a managed object is answered as follows. The
answer is what a scan of all blocks finds. There is one exactly if some block has the object inside;
this block is the only one that the offset lies in, and the answer is its slice. An empty object is
found exactly if its offset lies in some block. An object that goes on past the end of the block
that it starts in is refused, also if another block begins there. -/
theorem floor_search_eq_scan (hload : (Heap.load image s address options).result t = .ok heap)
    (hapart : Apart heap.blocks) (offset length : Nat) :
    (∀ id u, Identifier.parse id heap.layout heap.address = .ok (.managed offset length) →
      (heap.resolve id).result u = heap.managedObject offset length) ∧
    (∀ bytes, heap.managedObject offset length = .ok bytes ↔
      scan heap.blocks offset length = some bytes) ∧
    ((∃ bytes, heap.managedObject offset length = .ok bytes) ↔
      ∃ b ∈ heap.blocks, Inside b offset length) ∧
    (∀ b ∈ heap.blocks, Inside b offset length →
      (∀ c ∈ heap.blocks, c.contains offset = true → c = b) ∧
      ∃ bytes, b.slice offset length = some bytes ∧
        bytes = (b.data.toList.drop (offset - b.offset)).take length ∧ bytes.length = length ∧
        heap.managedObject offset length = .ok bytes) ∧
    ((∃ bytes, heap.managedObject offset 0 = .ok bytes) ↔
      ∃ b ∈ heap.blocks, b.contains offset = true) ∧
    ∀ b ∈ heap.blocks, b.contains offset = true → b.offset + b.size < offset + length →
      heap.managedObject offset length
        = .error (.reference address (.outsideBlock offset length b.size b.offset)) := by
  have hs := separate_of_load hload hapart
  have hfound : ∀ n, (∃ bytes, heap.managedObject offset n = .ok bytes) ↔
      ∃ b ∈ heap.blocks, Inside b offset n := by
    intro n
    simp only [managedObject_eq_ok_iff_slice hs, ← exists_slice_iff]
    constructor
    · rintro ⟨bytes, b, hb, hslice⟩
      exact ⟨b, hb, bytes, hslice⟩
    · rintro ⟨b, hb, bytes, hslice⟩
      exact ⟨bytes, b, hb, hslice⟩
  refine ⟨fun id u hid => resolve_managed hid, fun bytes => ?_, hfound length, ?_, ?_, ?_⟩
  · rw [managedObject_eq_ok_iff_slice hs, scan_eq_some_iff hapart]
  · intro b hb hinside
    obtain ⟨bytes, hslice⟩ := exists_slice_iff.mpr hinside
    obtain ⟨-, hend, hbytes⟩ := DirectBlock.slice_eq_some_iff.mp hslice
    have hle := (DirectBlock.contains_iff.mp hinside.start).1
    have hlen : bytes.length = length := by
      rw [hbytes, List.length_take, List.length_drop, Image.Region.length_toList]
      unfold DirectBlock.size at hend
      omega
    exact ⟨fun c hc hinc => eq_of_contains hapart hc hb hinc hinside.start, bytes, hslice,
      hbytes, hlen, (managedObject_eq_ok_iff_slice hs).mpr ⟨b, hb, hslice⟩⟩
  · rw [hfound 0]
    constructor
    · rintro ⟨b, hb, hinside⟩
      exact ⟨b, hb, hinside.start⟩
    · rintro ⟨b, hb, hin⟩
      exact ⟨b, hb, hin, fun x hle hlt => absurd hlt (by omega)⟩
  · intro b hb hin hend
    have haddress : heap.address = address := (address_of_read (load_eq_ok_iff.mp hload).1).1
    rw [managedObject_of_leaves hs hb hin hend, haddress]

/-- Of two blocks next to each other, an object in the second is found, and one that starts in the
first and ends in the second is not. -/
theorem adjacent_search :
    ∃ heap, (Heap.load adjacent narrow 0 {}).result .trace = .ok heap ∧ Apart heap.blocks ∧
      (∃ b ∈ heap.blocks, Inside b 9 3) ∧
      (∃ bytes, (heap.resolve [0, 9, 3]).result .trace = .ok bytes) ∧
      scan heap.blocks 6 4 = none ∧
      (heap.resolve [0, 6, 4]).result .trace = .error (.reference 0 (.outsideBlock 6 4 8 0)) := by
  have hfound : (((Heap.load adjacent narrow 0 {}).result .trace).toOption.map fun heap =>
      heap.blocks.map fun b => (b.offset, b.size)) = some [(0, 8), (8, 8)] := by decide +kernel
  obtain ⟨heap, hload, hranges⟩ := Option.map_eq_some_iff.mp hfound
  obtain ⟨b, rest, hblocks, hb, hrest⟩ := List.map_eq_cons_iff.mp hranges
  obtain ⟨c, _, rfl, hc, hnil⟩ := List.map_eq_cons_iff.mp hrest
  rw [List.map_eq_nil_iff.mp hnil] at hblocks
  obtain ⟨hb, hbsize⟩ := Prod.mk.inj hb
  obtain ⟨hc, hcsize⟩ := Prod.mk.inj hc
  have hload := eq_ok_of_toOption hload
  have hapart : Apart heap.blocks := by
    rw [hblocks]
    refine List.pairwise_pair.mpr fun x hx => ?_
    have hinb := DirectBlock.contains_iff.mp hx.1
    have hinc := DirectBlock.contains_iff.mp hx.2
    omega
  have hid : ∀ offset length : UInt8,
      Identifier.parse [0, offset, length] heap.layout heap.address
        = .ok (.managed offset.toNat length.toNat) := by
    intro offset length
    unfold Heap.layout Heap.address
    rw [header_of_adjacent hload]
    rfl
  have hinside : Inside c 9 3 := inside_iff.mpr ⟨DirectBlock.contains_iff.mpr (by omega), by omega⟩
  have hleaves : b.contains 6 = true := DirectBlock.contains_iff.mpr (by omega)
  have hmem : ∀ d, d = b ∨ d = c → d ∈ heap.blocks := by
    intro d hd
    rw [hblocks]
    simpa using hd
  obtain ⟨hanswer, -, hfound, -⟩ := floor_search_eq_scan hload hapart 9 3
  obtain ⟨hanswer', hscan, -, -, -, hrefused⟩ := floor_search_eq_scan hload hapart 6 4
  have herror := hrefused b (hmem b (.inl rfl)) hleaves (by omega)
  rw [hbsize, hb] at herror
  refine ⟨heap, hload, hapart, ⟨c, hmem c (.inr rfl), hinside⟩, ?_, ?_, ?_⟩
  · rw [hanswer _ _ (hid 9 3)]
    exact hfound.mpr ⟨c, hmem c (.inr rfl), hinside⟩
  · rw [Option.eq_none_iff_forall_ne_some]
    intro bytes hsome
    rw [← hscan, herror] at hsome
    cases hsome
  · rw [hanswer' _ _ (hid 6 4), herror]

end DoublingHeap.Proofs.Search
