import DoublingHeap.Proofs.Resolution
import DoublingHeap.Proofs.Steps
import DoublingHeap.Proofs.Tiling

/-! # Blocks that overlap, and blocks that do not

The offset of a direct block is what stands in the block, its size is that of its slot, and loading
compares offsets only with each other. So blocks of a loaded heap may overlap in heap address space
(`overlapping_blocks`), and then the later one hides a part of the earlier one
(`separate_iff_floors`).

They do not overlap if every block is at the offset of its place in the table (`At`). Slots tile
address space, so what is at one place ends before what is at another begins (`At.apart`). -/

namespace DoublingHeap.Proofs.Overlap

open DoublingHeap.Walk
open DoublingHeap.Proofs.Blocks DoublingHeap.Proofs.Index DoublingHeap.Proofs.Visits
open DoublingHeap.Proofs.Descent DoublingHeap.Proofs.Resolution DoublingHeap.Proofs.Steps
open DoublingHeap.Proofs.Tiling DoublingHeap.Proofs.Writing

variable {image : Image} {s : Superblock} {h : Header} {t : Level}

/-- One block ends before the other begins. -/
def RangesDisjoint (b c : DirectBlock) : Prop :=
  b.offset + b.size ≤ c.offset ∨ c.offset + c.size ≤ b.offset

/-! ### What is hidden -/

/-- In the order of their offsets, blocks are separate if no two of them overlap. -/
theorem separate_iff_disjoint {blocks : List DirectBlock} (ha : Ascending blocks) :
    Separate blocks ↔ blocks.Pairwise RangesDisjoint := by
  constructor
  · exact fun hs => hs.imp .inl
  · intro hd
    refine (ha.and hd).imp fun {b c} hbc => ?_
    obtain ⟨hlt, hle | hle⟩ := hbc
    · exact hle
    · omega

/-- **Blocks are separate** exactly if none of them is hidden: every offset inside a block has that
block for its floor. -/
theorem separate_iff_floors {blocks : List DirectBlock} (ha : Ascending blocks) :
    Separate blocks ↔ ∀ b ∈ blocks, ∀ offset, b.contains offset = true →
      IsFloor blocks offset b := by
  constructor
  · intro hs b hb offset hin
    obtain ⟨hle, hlt⟩ := DirectBlock.contains_iff.mp hin
    exact isFloor_of_separate hs hb hle hlt
  · intro hfloor
    refine ha.imp_of_mem fun {b c} hb hc hlt => ?_
    rcases Nat.lt_or_ge c.offset (b.offset + b.size) with hin | hge
    · -- the offset of `c` is inside `b`, and its floor is `c`
      have hbc := hfloor b hb c.offset (DirectBlock.contains_iff.mpr ⟨Nat.le_of_lt hlt, hin⟩)
      have := hbc.greatest c hc (Nat.le_refl _)
      omega
    · exact hge

/-! ### Places in the table -/

/-- Below the indirect block of `rows` rows that is at an address of the file and at the heap offset
`base`, there is a place for a direct block: it has this heap offset and this size, and the address
of the block stands in its slot. -/
inductive At (image : Image) (h : Header) :
    (base address rows offset child size : Nat) → Prop where
  | direct {base address rows slot child size : Nat} {block : IndirectBlock}
      (hread : IndirectBlock.read image h address rows = .ok block)
      (hchild : block.children[slot]? = some child)
      (hsize : h.table.blockSize slot = .direct size) :
      At image h base address rows (base + slotOffset h.table slot) child size
  | indirect {base address rows slot below k offset child size : Nat} {block : IndirectBlock}
      (hread : IndirectBlock.read image h address rows = .ok block)
      (hchild : block.children[slot]? = some below)
      (hsize : h.table.blockSize slot = .indirect)
      (hrows : h.table.childRows (h.table.rowOf slot) = some k)
      (hbelow : At image h (base + slotOffset h.table slot) below k offset child size) :
      At image h base address rows offset child size

theorem slotOffset_succ_le {address rows slot child : Nat} {block : IndirectBlock}
    (hread : IndirectBlock.read image h address rows = .ok block)
    (hchild : block.children[slot]? = some child) :
    slotOffset h.table slot + slotSize h.table slot
      ≤ slotOffset h.table (rows * h.table.width) := by
  have hlt : slot < block.children.length := (List.getElem?_eq_some_iff.mp hchild).1
  have hlen := (IndirectBlock.of_read_eq_ok hread).2.2
  exact slotOffset_mono (Nat.le_trans hlt hlen)

theorem At.within {base address rows offset child size : Nat}
    (hat : At image h base address rows offset child size) :
    base ≤ offset ∧ offset + size ≤ base + slotOffset h.table (rows * h.table.width) := by
  induction hat with
  | @direct base address rows slot child size block hread hchild hsize =>
    have hend := slotOffset_succ_le hread hchild
    rw [slotSize_of_direct hsize] at hend
    omega
  | @indirect base address rows slot below k offset child size block hread hchild hsize hrows _
      ih =>
    have hend := slotOffset_succ_le hread hchild
    rw [slotSize_of_indirect hsize hrows] at ih
    omega

/-- The place is in a slot, or below the indirect block in that slot. -/
structure InSlot (h : Header) (base slot offset size : Nat) : Prop where
  lower : base + slotOffset h.table slot ≤ offset
  upper : offset + size ≤ base + slotOffset h.table slot + slotSize h.table slot

theorem inSlot_of_direct (base : Nat) {slot size : Nat}
    (hsize : h.table.blockSize slot = .direct size) :
    InSlot h base slot (base + slotOffset h.table slot) size := by
  refine ⟨Nat.le_refl _, Nat.le_of_eq ?_⟩
  rw [slotSize_of_direct hsize]

theorem At.inSlot {base slot below k offset child size : Nat}
    (hsize : h.table.blockSize slot = .indirect)
    (hrows : h.table.childRows (h.table.rowOf slot) = some k)
    (hat : At image h (base + slotOffset h.table slot) below k offset child size) :
    InSlot h base slot offset size := by
  obtain ⟨hlower, hupper⟩ := hat.within
  rw [slotSize_of_indirect hsize hrows] at hupper
  exact ⟨hlower, hupper⟩

theorem InSlot.lt {base i j offset offset' size size' : Nat} (hij : i < j)
    (hi : InSlot h base i offset size) (hj : InSlot h base j offset' size') :
    offset + size ≤ offset' := by
  have hnext : slotOffset h.table i + slotSize h.table i ≤ slotOffset h.table j :=
    slotOffset_mono (t := h.table) hij
  have hupper := hi.upper
  have hlower := hj.lower
  omega

theorem InSlot.apart {base i j offset offset' size size' : Nat}
    (hi : InSlot h base i offset size) (hj : InSlot h base j offset' size') :
    i = j ∨ offset + size ≤ offset' ∨ offset' + size' ≤ offset := by
  rcases Nat.lt_trichotomy i j with hij | hij | hij
  · exact .inr (.inl (hi.lt hij hj))
  · exact .inl hij
  · exact .inr (.inr (hj.lt hij hi))

/-- **Places do not overlap**, unless they are one. -/
theorem At.apart {base address rows offset child size offset' child' size' : Nat}
    (hat : At image h base address rows offset child size)
    (hat' : At image h base address rows offset' child' size') :
    offset = offset' ∨ offset + size ≤ offset' ∨ offset' + size' ≤ offset := by
  induction hat generalizing offset' child' size' with
  | @direct base address rows slot child size block hread hchild hsize =>
    have hin := inSlot_of_direct base hsize
    cases hat' with
    | @direct _ _ _ slot' _ _ _ _ _ hsize' =>
      rcases hin.apart (inSlot_of_direct base hsize') with rfl | hapart
      · exact .inl rfl
      · exact .inr hapart
    | @indirect _ _ _ slot' _ _ _ _ _ _ _ _ hsize' hrows' hbelow' =>
      rcases hin.apart (hbelow'.inSlot hsize' hrows') with rfl | hapart
      · rw [hsize] at hsize'
        cases hsize'
      · exact .inr hapart
  | @indirect base address rows slot below k offset child size block hread hchild hsize hrows hbelow
      ih =>
    have hin := hbelow.inSlot hsize hrows
    cases hat' with
    | @direct _ _ _ slot' _ _ _ _ _ hsize' =>
      rcases hin.apart (inSlot_of_direct base hsize') with rfl | hapart
      · rw [hsize] at hsize'
        cases hsize'
      · exact .inr hapart
    | @indirect _ _ _ slot' _ _ _ _ _ _ hread' hchild' hsize' hrows' hbelow' =>
      rcases hin.apart (hbelow'.inSlot hsize' hrows') with rfl | hapart
      · -- both are below one and the same block
        rw [hread] at hread'
        cases hread'
        rw [hchild] at hchild'
        cases hchild'
        rw [hrows] at hrows'
        cases hrows'
        exact ih hbelow'
      · exact .inr hapart

/-! ### Heaps -/

/-- Every block of the index is at a place of the table below the root, at the offset of this place
and with its size. A heap without indirect root has no table. -/
def InPlace (image : Image) (h : Header) (index : BlockIndex) : Prop :=
  ∀ root, IndirectRoot h root → ∀ b ∈ index.blocks,
    At image h 0 root h.fields.rootRows b.offset b.address b.size

theorem length_le_one (hroot : ¬ ∃ root, IndirectRoot h root) {index : BlockIndex}
    (hr : (directBlocks image h).result t = .ok index) : index.blocks.length ≤ 1 := by
  unfold directBlocks at hr
  cases haddress : h.root? with
  | none =>
    rw [haddress] at hr
    cases hr
    exact Nat.zero_le 1
  | some root =>
    have hrows : h.fields.rootRows = 0 := by
      rcases Nat.eq_zero_or_pos h.fields.rootRows with hzero | hpos
      · exact hzero
      · exact absurd ⟨root, haddress, hpos⟩ hroot
    simp only [haddress, hrows, if_true, Logged.result_bind_eq_ok] at hr
    obtain ⟨block, -, hpure⟩ := hr
    cases hpure
    exact Nat.le_refl 1

/-- **Blocks in place do not overlap.** -/
theorem separate_of_inPlace {index : BlockIndex}
    (hr : (directBlocks image h).result t = .ok index) (hplace : InPlace image h index) :
    Separate index.blocks := by
  by_cases hroot : ∃ root, IndirectRoot h root
  · obtain ⟨root, hroot⟩ := hroot
    refine index.ascending.imp_of_mem fun {b c} hb hc hlt => ?_
    rcases (hplace root hroot b hb).apart (hplace root hroot c hc) with heq | hle | hle
    · omega
    · exact hle
    · omega
  · have hlen := length_le_one hroot hr
    match hblocks : index.blocks with
    | [] => exact List.Pairwise.nil
    | [b] => exact List.pairwise_singleton ..
    | _ :: _ :: _ =>
      rw [hblocks] at hlen
      simp at hlen

/-- **Where blocks of a loaded heap overlap, and where not.** Their offsets are different, in
ascending order, and nothing else is required of them. So blocks do not overlap exactly if the floor
of every offset inside a block is that block; and this is so if every block is at the offset of its
place in the table. Then no offset lies in two blocks, and none is looked for in the wrong one. -/
theorem disjoint_of_inPlace {address : Nat} {options : Heap.Options} {heap : Heap}
    (hload : (Heap.load image s address options).result t = .ok heap) :
    (heap.blocks.Pairwise fun b c => b.offset < c.offset) ∧
    (heap.blocks.Pairwise RangesDisjoint ↔ ∀ b ∈ heap.blocks, ∀ offset, b.contains offset = true →
      heap.floorBlock? offset = some b) ∧
    (InPlace image heap.header heap.index →
      heap.blocks.Pairwise RangesDisjoint ∧
      (∀ offset, ∀ b ∈ heap.blocks, ∀ c ∈ heap.blocks,
        b.contains offset = true → c.contains offset = true → b = c) ∧
      ∀ b ∈ heap.blocks, ∀ offset, b.contains offset = true →
        heap.floorBlock? offset = some b) := by
  obtain ⟨-, -, hwalk⟩ := load_eq_ok_iff.mp hload
  have hascending : Ascending heap.blocks := heap.index.ascending
  have hfloors : heap.blocks.Pairwise RangesDisjoint ↔ ∀ b ∈ heap.blocks, ∀ offset,
      b.contains offset = true → heap.floorBlock? offset = some b := by
    rw [← separate_iff_disjoint hascending, separate_iff_floors hascending]
    simp only [Heap.floorBlock?, floor?_eq_some_iff]
    exact Iff.rfl
  refine ⟨hascending, hfloors, fun hplace => ?_⟩
  have hdisjoint := (separate_iff_disjoint hascending).mp (separate_of_inPlace hwalk hplace)
  have hfloor := hfloors.mp hdisjoint
  refine ⟨hdisjoint, fun offset b hb c hc hinb hinc => ?_, hfloor⟩
  have hsame := (hfloor b hb offset hinb).symm.trans (hfloor c hc offset hinc)
  exact Option.some.inj hsame

/-- **Blocks may overlap.** This heap is loaded, and an offset lies in two of its blocks; the later
one is the floor of the offset, so the earlier one is hidden there. -/
theorem overlapping_blocks :
    ∃ heap, (Heap.load overlapping narrow 0 {}).result .trace = .ok heap ∧
      ¬ heap.blocks.Pairwise RangesDisjoint ∧
      ∃ b ∈ heap.blocks, ∃ c ∈ heap.blocks, b.offset ≠ c.offset ∧ b.contains 7 = true ∧
        c.contains 7 = true ∧ heap.floorBlock? 7 = some c := by
  have hfound : (((Heap.load overlapping narrow 0 {}).result .trace).toOption.map fun heap =>
      heap.blocks.map fun b => (b.offset, b.size)) = some [(0, 8), (4, 8)] := by decide +kernel
  obtain ⟨heap, hload, hranges⟩ := Option.map_eq_some_iff.mp hfound
  obtain ⟨b, rest, hblocks, hb, hrest⟩ := List.map_eq_cons_iff.mp hranges
  obtain ⟨c, _, rfl, hc, hnil⟩ := List.map_eq_cons_iff.mp hrest
  rw [List.map_eq_nil_iff.mp hnil] at hblocks
  obtain ⟨hb, hbsize⟩ := Prod.mk.inj hb
  obtain ⟨hc, hcsize⟩ := Prod.mk.inj hc
  have hinb : b.contains 7 = true := DirectBlock.contains_iff.mpr (by omega)
  have hinc : c.contains 7 = true := DirectBlock.contains_iff.mpr (by omega)
  have hfloor : IsFloor heap.blocks 7 c := by
    rw [hblocks]
    refine ⟨by simp, by omega, fun d hd _ => ?_⟩
    rcases List.mem_cons.mp hd with rfl | hd
    · omega
    · exact Nat.le_of_eq (congrArg _ (List.mem_singleton.mp hd))
  refine ⟨heap, eq_ok_of_toOption hload, fun hdisjoint => ?_, b, by simp [hblocks], c,
    by simp [hblocks], by omega, hinb, hinc, floor?_eq_some_iff.mpr hfloor⟩
  rw [hblocks] at hdisjoint
  have hbc := (List.pairwise_cons.mp hdisjoint).1 c (List.mem_cons_self ..)
  unfold RangesDisjoint at hbc
  omega

/-- A heap with two direct blocks, each at the offset of its slot. -/
def adjacent : Image :=
  written [⟨0, (smallHeader 41 2).fields.encode narrow⟩,
    ⟨41, IndirectBlock.encode (smallHeader 41 2) ⟨41, 0, 2, [50, 58]⟩⟩,
    ⟨50, DirectBlock.encode (smallHeader 41 2) 0 [] [1]⟩,
    ⟨58, DirectBlock.encode (smallHeader 41 2) 8 [] [2]⟩]

theorem header_of_adjacent {heap : Heap}
    (hload : (Heap.load adjacent narrow 0 {}).result t = .ok heap) :
    heap.header = smallHeader 41 2 := by
  have hread : (Header.read adjacent narrow 0).result t = .ok (smallHeader 41 2) := rfl
  exact Except.ok.inj ((load_eq_ok_iff.mp hload).1.symm.trans hread)

/-- Two blocks in place are next to each other, and each offset is found in one of them. -/
theorem adjacent_blocks_disjoint :
    ∃ heap b, (Heap.load adjacent narrow 0 {}).result .trace = .ok heap ∧
      InPlace adjacent heap.header heap.index ∧ heap.blocks.Pairwise RangesDisjoint ∧
      b.address = 58 ∧ heap.floorBlock? 9 = some b := by
  have hread : IndirectBlock.read adjacent (smallHeader 41 2) 41 2 = .ok ⟨41, 0, 2, [50, 58]⟩ :=
    eq_ok_of_toOption (by decide +kernel)
  have hfound : (((directBlocks adjacent (smallHeader 41 2)).result .trace).toOption.map
      fun index => index.blocks.map fun b => (b.offset, b.address, b.size))
        = some [(0, 50, 8), (8, 58, 8)] := by decide +kernel
  obtain ⟨index, hwalk, hblocks⟩ := Option.map_eq_some_iff.mp hfound
  obtain ⟨b, rest, hindex, hb, hrest⟩ := List.map_eq_cons_iff.mp hblocks
  obtain ⟨c, _, rfl, hc, hnil⟩ := List.map_eq_cons_iff.mp hrest
  rw [List.map_eq_nil_iff.mp hnil] at hindex
  simp only [Prod.mk.injEq] at hb hc
  obtain ⟨hb, hbaddress, hbsize⟩ := hb
  obtain ⟨hc, hcaddress, hcsize⟩ := hc
  have hplace : InPlace adjacent (smallHeader 41 2) index := by
    rintro root ⟨haddress, -⟩ d hd
    cases haddress
    rw [hindex] at hd
    rcases List.mem_cons.mp hd with rfl | hd
    · have hat : At adjacent (smallHeader 41 2) 0 41 2
          (0 + slotOffset (smallHeader 41 2).table 0) 50 8 := .direct hread rfl rfl
      rw [hb, hbaddress, hbsize]
      exact hat
    · have hat : At adjacent (smallHeader 41 2) 0 41 2
          (0 + slotOffset (smallHeader 41 2).table 1) 58 8 := .direct hread rfl rfl
      rw [List.mem_singleton.mp hd, hc, hcaddress, hcsize]
      exact hat
  have hload : (Heap.load adjacent narrow 0 {}).result .trace = .ok ⟨smallHeader 41 2, {}, index⟩ :=
    load_eq_ok_iff.mpr ⟨rfl, rfl, eq_ok_of_toOption hwalk⟩
  obtain ⟨-, -, hdisjoint⟩ := disjoint_of_inPlace hload
  obtain ⟨hpairwise, -, hfloor⟩ := hdisjoint hplace
  have hmem : c ∈ index.blocks := by
    rw [hindex]
    exact List.mem_cons_of_mem _ (List.mem_cons_self ..)
  have hin : c.contains 9 = true := DirectBlock.contains_iff.mpr (by omega)
  exact ⟨_, c, hload, hplace, hpairwise, hcaddress, hfloor c hmem 9 hin⟩

end DoublingHeap.Proofs.Overlap
