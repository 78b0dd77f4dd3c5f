import DoublingHeap.Proofs.Resolution
import DoublingHeap.Proofs.Sights
import DoublingHeap.Proofs.Trees

/-! # Reading undoes writing

An image that holds the blocks of a tree is read as this tree: the descent from an indirect block
finds the direct blocks below it, in order (`gather_written`), so the whole heap is loaded with the
direct blocks of the tree (`load_held`), and every object inside one of them is resolved. An image
to which a tree is written holds its blocks, wherever they are put, as long as no two of them
overlap. -/

namespace DoublingHeap.Proofs.RoundTrip

open DoublingHeap.Bytes.LittleEndian
open DoublingHeap.Proofs.Blocks DoublingHeap.Proofs.Index DoublingHeap.Proofs.Visits
open DoublingHeap.Proofs.Descent DoublingHeap.Proofs.Headers DoublingHeap.Proofs.Resolution
open DoublingHeap.Proofs.Sights
open DoublingHeap.Proofs.Trees DoublingHeap.Proofs.Tiling DoublingHeap.Proofs.Writing

attribute [local instance (high)] instPowNat

variable {image : Image} {h : Header} {t : Level}

/-! ### Blocks that are held -/

/-- The heap of the header can be written: it has no filters, and headings have room for its
address and for offsets. -/
structure Writable (h : Header) : Prop where
  filters : h.hasFilters = false
  width : 1 ≤ h.offsetBytes ∧ h.offsetBytes ≤ maxWidth
  owner : h.address < 256 ^ h.superblock.offsetWidth

/-- The address of a block is not the undefined one, and its address and offset fit their fields. -/
structure Addressable (h : Header) (p : Placed) : Prop where
  address : p.piece.address < h.superblock.undefinedAddress
  offset : p.offset < 256 ^ h.offsetBytes

instance (h : Header) (p : Placed) : Decidable (Addressable h p) :=
  decidable_of_iff
    (p.piece.address < h.superblock.undefinedAddress ∧ p.offset < 256 ^ h.offsetBytes)
    ⟨fun hp => ⟨hp.1, hp.2⟩, fun hp => ⟨hp.1, hp.2⟩⟩

/-- The image holds these blocks, and they can be addressed. -/
def HoldsAll (image : Image) (h : Header) (blocks : List Placed) : Prop :=
  ∀ p ∈ blocks, Addressable h p ∧ Holds image p.piece.address p.piece.bytes

/-- What will be seen of a direct block. -/
def sightOf (h : Header) (p : Placed) : Sight :=
  ⟨p.piece.address, p.offset, DirectBlock.headerLengthOf h, p.piece.bytes⟩

theorem Writable.encodable (hw : Writable h) {p : Placed} (hp : Addressable h p) :
    Encodable h p.offset :=
  ⟨hw.width, hw.owner, hp.offset⟩

theorem readDirect_held {address offset : Nat} {checksum payload : List UInt8}
    (he : Encodable h offset) (hsum : checksum.length = DirectBlock.checksumLength h)
    (hh : Holds image address (DirectBlock.encode h offset checksum payload)) :
    ∃ b, (DirectBlock.read image h address
        (DirectBlock.headerLengthOf h + payload.length)).result t = .ok b ∧
      sight b = ⟨address, offset, DirectBlock.headerLengthOf h,
        DirectBlock.encode h offset checksum payload⟩ := by
  have hlen := length_encodeDirect offset payload hsum
  have hheading : Holds image address (BlockHeading.encode h .direct offset) := by
    unfold DirectBlock.encode at hh
    rw [List.append_assoc] at hh
    exact (holds_append_iff.mp hh).1
  have within : address + (DirectBlock.headerLengthOf h + payload.length) ≤ image.size := by
    rw [← hlen]
    exact hh.1
  refine ⟨⟨address, offset, DirectBlock.headerLengthOf h, ⟨image, address, _, within⟩⟩,
    readDirect_iff.mpr ⟨Nat.le_add_right .., he, hheading, within, rfl⟩, ?_⟩
  have hbytes := hh.2
  rw [hlen] at hbytes
  unfold sight
  simp only [Image.Region.toList_eq, hbytes]

theorem exists_placed {slots : Slots} {base slot address : Nat}
    (ha : address ∈ slots.addresses) :
    ∃ p ∈ slots.placed h base slot, p.piece.address = address := by
  induction slots generalizing slot with
  | done => cases ha
  | direct a checksum payload rest ih =>
    rcases List.mem_cons.mp ha with rfl | ha
    · exact ⟨_, List.mem_cons_self .., rfl⟩
    · obtain ⟨p, hp, heq⟩ := ih ha
      exact ⟨p, List.mem_cons_of_mem _ hp, heq⟩
  | indirect a below rest _ ih =>
    rcases List.mem_cons.mp ha with rfl | ha
    · exact ⟨_, List.mem_cons_self .., rfl⟩
    · obtain ⟨p, hp, heq⟩ := ih ha
      exact ⟨p, List.mem_cons_of_mem _ (List.mem_append_right _ hp), heq⟩

theorem readIndirect_held (hw : Writable h) {address offset rows : Nat} {slots : Slots}
    {base : Nat} (hrows : rows ≤ h.table.maxRows)
    (hlen : slots.addresses.length ≤ rows * h.table.width)
    (hp : Addressable h ⟨.indirect, offset, address,
      encodeIndirect h ⟨address, offset, rows, slots.addresses⟩⟩)
    (hh : Holds image address (encodeIndirect h ⟨address, offset, rows, slots.addresses⟩))
    (hslots : HoldsAll image h (slots.placed h base 0)) :
    IndirectBlock.read image h address rows
      = .ok ⟨address, offset, rows, slots.addresses⟩ := by
  have hchildren : ∀ child ∈ slots.addresses, child < h.superblock.undefinedAddress := by
    intro child hchild
    obtain ⟨p, hp, rfl⟩ := exists_placed hchild
    exact (hslots p hp).1.address
  exact readIndirect_of_holds (b := ⟨address, offset, rows, slots.addresses⟩) hw.filters hrows
    (hw.encodable hp) hlen hchildren (holds_append_iff.mp hh).1

/-! ### Descent through held blocks -/

/-- **Descent undoes writing.** From the slots of an indirect block that is held, descent finds the
direct blocks in and below them, in order. -/
theorem gather_written (hw : Writable h) {slots : Slots} {base slot rows : Nat}
    (hf : slots.Fits h slot) (hrows : rows ≤ h.table.maxRows)
    (hheld : HoldsAll image h (slots.placed h base slot))
    (hle : slot + slots.addresses.length ≤ rows * h.table.width) :
    ∃ blocks, (gather image h rows slot slots.addresses hle).result t = .ok blocks ∧
      blocks.map sight = (directs (slots.placed h base slot)).map (sightOf h) := by
  -- by induction on the slots, for all blocks that they may be in
  induction slots generalizing base slot rows with
  | done => exact ⟨[], congrArg (·.result t) (gather_nil hle), rfl⟩
  | direct address checksum payload rest ih =>
    obtain ⟨hsum, hsize, hrest⟩ := hf
    have hle' : slot + 1 + rest.addresses.length ≤ rows * h.table.width := rest_le hle
    obtain ⟨hp, hh⟩ := hheld _ (List.mem_cons_self ..)
    obtain ⟨b, hread, hsight⟩ := readDirect_held (t := t) (hw.encodable hp) hsum hh
    obtain ⟨blocks, hgather, hmap⟩ :=
      ih hrest hrows (fun p hp => hheld p (List.mem_cons_of_mem _ hp)) hle'
    refine ⟨b :: blocks, ?_, ?_⟩
    · show (gather image h rows slot (address :: rest.addresses) hle).result t = _
      simp only [gather_direct hsize hle hle', Logged.result_bind_eq_ok]
      exact ⟨b, hread, blocks, hgather, rfl⟩
    · rw [Slots.placed, directs_direct rfl, List.map_cons, List.map_cons, hmap, hsight]
      rfl
  | indirect address below rest ihb ihr =>
    obtain ⟨hsize, hk, hlen, hbelow, hrest⟩ := hf
    have hle' : slot + 1 + rest.addresses.length ≤ rows * h.table.width := rest_le hle
    have hslot : slot < rows * h.table.width := by omega
    have hfewer := DoublingTable.childRows_lt hk (DoublingTable.two_le_rowOf hsize)
      (rowOf_lt hslot)
    have hroom : rowsIn h.table slot ≤ h.table.maxRows := by omega
    obtain ⟨hp, hh⟩ := hheld _ (List.mem_cons_self ..)
    have hheldBelow : HoldsAll image h (below.placed h (base + slotOffset h.table slot) 0) :=
      fun p hp => hheld p (List.mem_cons_of_mem _ (List.mem_append_left _ hp))
    have hheldRest : HoldsAll image h (rest.placed h base (slot + 1)) :=
      fun p hp => hheld p (List.mem_cons_of_mem _ (List.mem_append_right _ hp))
    have hread := readIndirect_held hw hroom hlen hp hh hheldBelow
    have hleBelow : 0 + below.addresses.length ≤ rowsIn h.table slot * h.table.width := by
      rw [Nat.zero_add]
      exact hlen
    obtain ⟨found, hfound, hmapBelow⟩ := ihb hbelow hroom hheldBelow hleBelow
    obtain ⟨blocks, hgather, hmap⟩ := ihr hrest hrows hheldRest hle'
    have hdescend : (descend image h address (rowsIn h.table slot)).result t = .ok found :=
      descend_eq_ok_iff.mpr ⟨_, hleBelow, hread, hfound⟩
    refine ⟨found ++ blocks, ?_, ?_⟩
    · show (gather image h rows slot (address :: rest.addresses) hle).result t = _
      simp only [gather_indirect hsize hle hle', hk, Logged.result_bind_eq_ok]
      exact ⟨found, hdescend, blocks, hgather, rfl⟩
    · rw [Slots.placed, directs_indirect rfl, directs_append, List.map_append, List.map_append,
        hmapBelow, hmap]

/-- **The blocks of a tree that is held** are found, in order. -/
theorem blocksOf_written (hw : Writable h) {tree : Tree} (hf : tree.Fits h)
    (hheld : HoldsAll image h (tree.placed h)) :
    ∃ blocks, (blocksOf image h).result t = .ok blocks ∧
      blocks.map sight = (directs (tree.placed h)).map (sightOf h) := by
  unfold blocksOf Header.root?
  cases tree with
  | empty =>
    have hroot : h.fields.rootAddress = h.superblock.undefinedAddress := hf
    rw [hroot, isUndefined_undefinedAddress]
    exact ⟨[], rfl, rfl⟩
  | direct address checksum payload =>
    obtain ⟨hroot, hrows, hsum, hsize⟩ := hf
    obtain ⟨hp, hh⟩ := hheld _ (List.mem_cons_self ..)
    obtain ⟨b, hread, hsight⟩ := readDirect_held (t := t) (hw.encodable hp) hsum hh
    rw [hroot, isUndefined_eq_false hp.address, hrows, hsize]
    refine ⟨[b], ?_, ?_⟩
    · simp only [Bool.false_eq_true, if_false, if_true, Logged.result_bind_eq_ok]
      exact ⟨b, hread, rfl⟩
    · rw [List.map_cons, hsight]
      rfl
  | indirect address rows slots =>
    obtain ⟨hroot, hrows, ⟨hpos, hroom⟩, hlen, hslots⟩ := hf
    obtain ⟨hp, hh⟩ := hheld _ (List.mem_cons_self ..)
    have hheldSlots : HoldsAll image h (slots.placed h 0 0) :=
      fun p hp => hheld p (List.mem_cons_of_mem _ hp)
    have hread := readIndirect_held hw hroom hlen hp hh hheldSlots
    have hle : 0 + slots.addresses.length ≤ rows * h.table.width := by
      rw [Nat.zero_add]
      exact hlen
    obtain ⟨blocks, hgather, hmap⟩ := gather_written hw hslots hroom hheldSlots hle (t := t)
    rw [hroot, isUndefined_eq_false hp.address, hrows]
    simp only [Bool.false_eq_true, if_false, Nat.ne_of_gt hpos]
    refine ⟨blocks, descend_eq_ok_iff.mpr ⟨_, hle, hread, hgather⟩, ?_⟩
    rw [Tree.placed, directs_indirect rfl]
    exact hmap

/-! ### Whole heaps -/

theorem separate_of_sights {tree : Tree} (hf : tree.Fits h) {blocks : List DirectBlock}
    (hmap : blocks.map sight = (directs (tree.placed h)).map (sightOf h)) :
    Separate blocks ∧ Ascending blocks := by
  obtain ⟨hi, ho⟩ := tree.ordered hf
  obtain ⟨hall, hpair⟩ := ho.pairwise
  have hplaced : ((directs (tree.placed h)).map (sightOf h)).Pairwise
      fun v w => v.offset + v.bytes.length ≤ w.offset := List.pairwise_map.mpr hpair
  rw [← hmap, List.pairwise_map] at hplaced
  have hseparate : Separate blocks := by
    refine hplaced.imp fun {b c} hbc => ?_
    simp only [sight, Image.Region.length_toList] at hbc
    exact hbc
  refine ⟨hseparate, hseparate.imp_of_mem fun {b c} hb _ hbc => ?_⟩
  -- a block that looks like a placed one is not empty either
  have hsight : sight b ∈ (directs (tree.placed h)).map (sightOf h) := by
    rw [← hmap]
    exact List.mem_map_of_mem hb
  obtain ⟨p, hp, hpb⟩ := List.mem_map.mp hsight
  have hlt := (hall p hp).2
  have hsize : p.piece.bytes.length = b.size := by
    have hbytes : p.piece.bytes = b.data.toList := congrArg Sight.bytes hpb
    rw [hbytes, Image.Region.length_toList]
    rfl
  unfold Placed.stop at hlt
  omega

theorem load_held {s : Superblock} (options : Heap.Options) {tree : Tree}
    (hof : Header.ofFields s h.address h.fields = .ok h) (hfit : Fits s h.fields)
    (howner : h.address < 256 ^ s.offsetWidth) (hf : tree.Fits h)
    (hheader : Holds image h.address (h.fields.encode s))
    (hheld : HoldsAll image h (tree.placed h)) :
    ∃ heap, (Heap.load image s h.address options).result t = .ok heap ∧ heap.header = h ∧
      heap.blocks.map sight = (directs (tree.placed h)).map (sightOf h) ∧
      Separate heap.blocks := by
  have heq := (ofFields_eq_ok_iff.mp hof).2.2.2
  have hsuper : h.superblock = s := congrArg Header.superblock heq
  have hw : Writable h := by
    refine ⟨?_, offsetBytes_possible hof, by rw [hsuper]; exact howner⟩
    unfold Header.hasFilters
    rw [(ofFields_eq_ok_iff.mp hof).1]
    rfl
  obtain ⟨blocks, hblocks, hmap⟩ := blocksOf_written hw hf hheld (t := t)
  obtain ⟨hseparate, hascending⟩ := separate_of_sights hf hmap
  have hindex : (Walk.directBlocks image h).result t = .ok ⟨blocks, hascending⟩ :=
    directBlocks_eq_ok_iff.mpr
      ⟨blocks, hblocks, .of_ascending hascending, List.Perm.refl _⟩
  have hread := readHeader_of_holds (t := t) hof hfit hheader
  exact ⟨⟨h, options, ⟨blocks, hascending⟩⟩, load_eq_ok_iff.mpr ⟨hread, rfl, hindex⟩, rfl, hmap,
    hseparate⟩

/-- **Reading undoes writing.** A header that can be read, whose fields fit, and any tree that it
describes are written in pieces that do not overlap, at addresses and offsets that fit. The heap is
then loaded from the image. It has the header; its direct blocks are those of the tree, each at its
address and at the offset of its place in the table, with its bytes; and every identifier that is
written for an object inside a direct block is resolved to the bytes of that object. -/
theorem load_written {s : Superblock} {address : Nat} {f : Header.Fields} (tree : Tree)
    (options : Heap.Options) {u : Level} (hof : Header.ofFields s address f = .ok h)
    (hfit : Fits s f) (hids : 1 + h.offsetBytes + h.lengthBytes ≤ f.idLength)
    (howner : address < 256 ^ s.offsetWidth) (htree : tree.Fits h)
    (hplaced : ∀ p ∈ tree.placed h, Addressable h p)
    (hapart : (tree.pieces h).Pairwise Apart) :
    ∃ heap, (Heap.load (written (tree.pieces h)) s address options).result t = .ok heap ∧
      heap.header = h ∧
      (heap.blocks.map fun b => (b.address, b.offset, b.data.toList))
        = (directs (tree.placed h)).map (fun p => (p.piece.address, p.offset, p.piece.bytes)) ∧
      ∀ p ∈ directs (tree.placed h), ∀ k n, k < p.piece.bytes.length →
        k + n ≤ p.piece.bytes.length → p.offset + k < 256 ^ h.offsetBytes →
        n < 256 ^ h.lengthBytes → ∀ padding : List UInt8,
        padding.length = f.idLength - (1 + h.offsetBytes + h.lengthBytes) →
        (heap.resolve (Identifier.encodeManaged heap.layout (p.offset + k) n padding)).result u
          = .ok ((p.piece.bytes.drop k).take n) := by
  obtain ⟨-, -, -, heq⟩ := ofFields_eq_ok_iff.mp hof
  have haddress : h.address = address := congrArg Header.address heq
  have hsuper : h.superblock = s := congrArg Header.superblock heq
  have hfields : h.fields = f := congrArg Header.fields heq
  have hlengthBytes : h.lengthBytes = f.lengthBytes := congrArg Header.lengthBytes heq
  subst haddress hsuper hfields
  have hheld : HoldsAll (written (tree.pieces h)) h (tree.placed h) := fun p hp =>
    ⟨hplaced p hp, holds_written hapart
      (List.mem_cons_of_mem _ (List.mem_map_of_mem (f := Placed.piece) hp))⟩
  have hheader := (holds_append_iff.mp
    (holds_written hapart (List.mem_cons_self (a := Piece.mk h.address _)))).1
  obtain ⟨heap, hload, hh, hmap, hseparate⟩ :=
    load_held (t := t) options hof hfit howner htree hheader hheld
  refine ⟨heap, hload, hh, ?_, ?_⟩
  · have hpairs := congrArg (List.map fun v : Sight => (v.address, v.offset, v.bytes)) hmap
    rw [List.map_map, List.map_map] at hpairs
    exact hpairs
  · intro p hp k n hk hkn hoffset hlength padding hpadding
    have hsight : sightOf h p ∈ heap.blocks.map sight := by
      rw [hmap]
      exact List.mem_map_of_mem hp
    obtain ⟨b, hb, hbp⟩ := List.mem_map.mp hsight
    have hbytes : b.data.toList = p.piece.bytes := congrArg Sight.bytes hbp
    have hboffset : b.offset = p.offset := congrArg Sight.offset hbp
    have hsize : b.size = p.piece.bytes.length := by
      rw [← hbytes, Image.Region.length_toList]
      rfl
    have hnameable : Nameable heap.layout (p.offset + k) n := by
      unfold Heap.layout
      rw [hh]
      exact ⟨offsetBytes_possible hof, by rw [hlengthBytes]; exact lengthBytes_possible hfit,
        hoffset, hlength⟩
    have hparse := parse_encodeManaged heap.address padding hnameable
      (by unfold Heap.layout; rw [hh]; simp only; omega)
    rw [resolve_managed hparse, ← hboffset, ← hbytes]
    exact managedObject_of_separate hseparate hb (by omega) (by omega)

/-- A heap whose root has two direct blocks and an indirect block with two more below it. The blocks
are not written in the order of their offsets. -/
def nestedTree : Tree :=
  .indirect 90 3 (.direct 41 [] [1] (.direct 82 [] [2] (.indirect 49
    (.direct 74 [] [3] (.direct 62 [] [4] .done)) .done)))

/-- In a heap that is written as four direct blocks, the byte in the last one is resolved. -/
theorem resolve_in_nestedTree :
    nestedTree.Fits (smallHeader 90 3) ∧
      (nestedTree.pieces (smallHeader 90 3)).Pairwise Apart ∧
      ∃ heap, (Heap.load (written (nestedTree.pieces (smallHeader 90 3))) narrow 0 {}).result
          .trace = .ok heap ∧
        heap.blocks.map (fun b => (b.address, b.offset))
          = [(41, 0), (82, 8), (74, 16), (62, 24)] ∧
        (heap.resolve [0, 31, 1]).result .trace = .ok [4] := by
  have hof : Header.ofFields narrow 0 (smallHeader 90 3).fields = .ok (smallHeader 90 3) := rfl
  have htree : nestedTree.Fits (smallHeader 90 3) := by decide +kernel
  have hapart : (nestedTree.pieces (smallHeader 90 3)).Pairwise Apart := by decide +kernel
  obtain ⟨heap, hload, hheader, hblocks, hobjects⟩ :=
    load_written (t := .trace) (u := .trace) nestedTree {} hof (by decide) (by decide) (by decide)
      htree (by decide +kernel) hapart
  have hpairs := congrArg (List.map fun v : Nat × Nat × List UInt8 => (v.1, v.2.1)) hblocks
  rw [List.map_map, List.map_map] at hpairs
  have hlast := hobjects ⟨.direct, 24, 62, DirectBlock.encode (smallHeader 90 3) 24 [] [4]⟩
    (by decide +kernel) 7 1 (by decide +kernel) (by decide +kernel) (by decide) (by decide) [] rfl
  unfold Heap.layout at hlast
  rw [hheader] at hlast
  exact ⟨htree, hapart, heap, hload, hpairs.trans (by decide +kernel), hlast⟩

end DoublingHeap.Proofs.RoundTrip
