import DoublingHeap.Proofs.Resolution
import DoublingHeap.Proofs.Sights
import DoublingHeap.Proofs.Steps

/-! # Which bytes matter

Loading a heap looks at its header, at the headings of the blocks, and at the slots of the indirect
blocks up to the first that is not used. An image of the same size with the same bytes there
(`SameStructure`) has the same heap, up to the bytes of objects: a reader that succeeds depends on
the bytes that it passes and on no other, so each record is read alike (`readIndirect_of_same`,
`readDirect_of_same`), and the walks go through the same points (`mirror_of_step`,
`mirror_of_reached`).

Blocks of the two heaps are compared by their `outline`, which does not show their bytes. -/

namespace DoublingHeap.Proofs.Frame

open DoublingHeap.Bytes.LittleEndian DoublingHeap.Walk
open DoublingHeap.Proofs.Reading DoublingHeap.Proofs.Blocks DoublingHeap.Proofs.Children
open DoublingHeap.Proofs.Index DoublingHeap.Proofs.Visits DoublingHeap.Proofs.Headers
open DoublingHeap.Proofs.Descent DoublingHeap.Proofs.Resolution DoublingHeap.Proofs.Sights
open DoublingHeap.Proofs.Steps DoublingHeap.Proofs.Writing

attribute [local instance (high)] instPowNat

variable {I J : Image} {s : Superblock} {h : Header} {t : Level}

/-! ### Ranges with the same bytes -/

/-- The images have the same bytes in the range of a length at an address. -/
def SameBytes (I J : Image) (address length : Nat) : Prop :=
  ∀ i < length, I.toList[address + i]? = J.toList[address + i]?

instance (I J : Image) (address length : Nat) : Decidable (SameBytes I J address length) := by
  unfold SameBytes; infer_instance

theorem SameBytes.take_eq {address length n : Nat} (hsame : SameBytes I J address length)
    (hn : n ≤ length) : (I.toList.drop address).take n = (J.toList.drop address).take n := by
  refine List.ext_getElem? fun i => ?_
  rw [List.getElem?_take, List.getElem?_take, List.getElem?_drop, List.getElem?_drop]
  split
  · exact hsame i (by omega)
  · rfl

theorem SameBytes.holds {address length : Nat} {bytes : List UInt8}
    (hsame : SameBytes I J address length) (hsize : J.size = I.size)
    (hlen : bytes.length ≤ length) (hh : Holds I address bytes) : Holds J address bytes := by
  obtain ⟨hle, heq⟩ := hh
  exact ⟨by omega, (hsame.take_eq hlen).symm.trans heq⟩

theorem read_of_holds {α : Type} {r : Reader α} {a : α} {bytes : List UInt8} {address n : Nat}
    (hr : ReadsBack r bytes a) (hh : Holds J address bytes) (hn : bytes.length ≤ n) :
    r.read address ((J.toList.drop address).take n) = .ok a := by
  have hprefix : bytes <+: (J.toList.drop address).take n := by
    rw [← hh.2]
    exact List.take_prefix_take_left hn
  obtain ⟨rest, hrest⟩ := hprefix
  rw [← hrest]
  exact hr.read address rest

/-! ### Records -/

theorem readHeader_of_same {address : Nat} (hsize : J.size = I.size)
    (hsame : SameBytes I J address (Header.encodedLength s))
    (hread : (Header.read I s address).result t = .ok h) :
    (Header.read J s address).result t = .ok h := by
  obtain ⟨record, hheld, hlen, hfields, hof⟩ := readHeader_eq_ok_iff.mp hread
  exact readHeader_eq_ok_iff.mpr
    ⟨record, hsame.holds hsize (Nat.le_of_eq hlen) hheld, hlen, hfields, hof⟩

theorem local_heading (h : Header) (kind : BlockKind) : Local (BlockHeading.reader h kind) := by
  unfold BlockHeading.reader
  refine (local_signature _).bind fun _ => (local_version _).bind fun _ =>
    (local_uint _).bind fun owner => ?_
  split
  · exact (local_refuse _).bind fun _ => local_uint _
  · exact local_uint _

theorem local_slot (h : Header) : Local (IndirectBlock.slotReader h) := by
  unfold IndirectBlock.slotReader
  refine (local_uint _).bind fun child => ?_
  split
  · exact local_pure none
  split
  · exact (local_skip _).bind fun _ => local_pure _
  · exact local_pure _

theorem local_indirect (h : Header) (rows : Nat) : Local (IndirectBlock.reader h rows) :=
  (local_heading h .indirect).bind fun _ =>
    ((local_slot h).collect _ _).bind fun _ => local_pure _

theorem position_of_collect {n : Nat} {found children : List Nat} {c c' : Cursor}
    (hr : (Reader.collect (IndirectBlock.slotReader h) n found).step c = (.ok children, c')) :
    found.length ≤ children.length ∧
      c'.position ≤ c.position + min (children.length + 1 - found.length) n * slotLength h := by
  induction n generalizing found c with
  | zero =>
    rw [Reader.collect, Reader.step_pure] at hr
    cases hr
    simp
  | succ n ih =>
    rw [Reader.collect] at hr
    obtain ⟨child?, c₁, hslot, hr⟩ := Reader.step_bind_eq_ok.mp hr
    obtain ⟨child, -, ⟨-, rfl, hp⟩ | ⟨-, rfl, filler, hfiller, hp⟩⟩ := step_slot hslot
    · rw [Reader.step_pure] at hr
      cases hr
      have hposition := hp.position
      rw [length_encode] at hposition
      have hone : min (found.reverse.length + 1 - found.length) (n + 1) = 1 := by
        rw [List.length_reverse]
        omega
      rw [hone, Nat.one_mul, List.length_reverse]
      unfold slotLength
      omega
    · obtain ⟨hlen, hle⟩ := ih hr
      have hposition := hp.position
      rw [List.length_append, length_encode, hfiller] at hposition
      rw [List.length_cons] at hlen hle
      have hmore : min (children.length + 1 - found.length) (n + 1)
          = min (children.length + 1 - (found.length + 1)) n + 1 := by omega
      have hslotLength : slotLength h
          = h.superblock.offsetWidth + IndirectBlock.filterEntryLength h := rfl
      rw [hmore, Nat.succ_mul]
      omega

/-- The bytes of an indirect block that are looked at: its heading, the slots of its children, and
the first slot that is not used. -/
def usedLength (h : Header) (b : IndirectBlock) : Nat :=
  BlockHeading.length h + min (b.children.length + 1) (IndirectBlock.slots h b.rows) * slotLength h

theorem position_of_indirect {rows : Nat} {b : IndirectBlock} {c c' : Cursor}
    (hrows : b.rows = rows)
    (hr : (IndirectBlock.reader h rows).step c = (.ok (b.offset, b.children), c')) :
    c'.position ≤ c.position + usedLength h b := by
  unfold IndirectBlock.reader at hr
  obtain ⟨offset, c₁, hheading, hr⟩ := Reader.step_bind_eq_ok.mp hr
  obtain ⟨children, c₂, hcollect, hr⟩ := Reader.step_bind_eq_ok.mp hr
  rw [Reader.step_pure] at hr
  cases hr
  have hposition := (step_heading_iff.mp hheading).2.position
  rw [BlockHeading.length_encode] at hposition
  have hle := (position_of_collect hcollect).2
  rw [List.length_nil, Nat.sub_zero, ← hrows] at hle
  unfold usedLength
  omega

theorem readIndirect_of_same {address rows : Nat} {b : IndirectBlock} (hsize : J.size = I.size)
    (hread : IndirectBlock.read I h address rows = .ok b)
    (hsame : SameBytes I J address (usedLength h b)) :
    IndirectBlock.read J h address rows = .ok b := by
  have hrows := (IndirectBlock.of_read_eq_ok hread).1
  unfold IndirectBlock.read at hread ⊢
  split at hread
  · cases hread
  rename_i hroom
  obtain ⟨record, hrec, hread⟩ := bind_eq_ok_iff.mp hread
  obtain ⟨⟨offset, children⟩, hreader, hread⟩ := bind_eq_ok_iff.mp hread
  cases hread
  obtain ⟨hheld, hlen⟩ := readRecord_eq_ok_iff.mp hrec
  obtain ⟨c', hstep⟩ := read_eq_ok_iff.mp hreader
  obtain ⟨bytes, hp, hback⟩ := local_indirect h rows _ _ _ hstep
  -- the reader has passed these bytes, which are in both images
  have hused : bytes.length ≤ usedLength h ⟨address, offset, rows, children⟩ := by
    have hle := position_of_indirect (b := ⟨address, offset, rows, children⟩) rfl hstep
    have hposition := hp.position
    omega
  have hfront := hp.eq_append
  rw [hfront] at hheld
  have hheld' := hsame.holds hsize hused (holds_append_iff.mp hheld).1
  have hfits : bytes.length ≤ IndirectBlock.recordLength h rows := by
    rw [← hlen, hfront, List.length_append]
    exact Nat.le_add_right ..
  have hrange : address + IndirectBlock.recordLength h rows ≤ J.size := by
    rw [hsize, ← hlen]
    exact (readRecord_eq_ok_iff.mp hrec).1.1
  rw [if_neg hroom]
  refine bind_eq_ok_iff.mpr
    ⟨_, readRecord_eq_ok_iff.mpr ⟨holds_range hrange, length_range hrange⟩, ?_⟩
  exact bind_eq_ok_iff.mpr ⟨_, read_of_holds hback hheld' hfits, rfl⟩

/-- What is seen of a direct block apart from its bytes. -/
structure Outline where
  address : Nat
  offset : Nat
  headerLength : Nat
  size : Nat
deriving DecidableEq, Repr

/-- What is seen of a direct block apart from its bytes. -/
def outline (b : DirectBlock) : Outline := ⟨b.address, b.offset, b.headerLength, b.size⟩

/-- **A direct block** is read alike, whatever bytes are in it. -/
theorem readDirect_of_same {address size : Nat} {b : DirectBlock} (hsize : J.size = I.size)
    (hread : (DirectBlock.read I h address size).result t = .ok b)
    (hsame : SameBytes I J b.address (BlockHeading.length h)) :
    ∃ b', (DirectBlock.read J h address size).result t = .ok b' ∧ outline b = outline b' := by
  obtain ⟨hle, hfits, hheld, within, heq⟩ := readDirect_iff.mp hread
  have haddress : b.address = address := congrArg DirectBlock.address heq
  rw [haddress] at hsame
  have hlen := Nat.le_of_eq (BlockHeading.length_encode h .direct b.offset)
  have hheld' := hsame.holds hsize hlen hheld
  have within' : address + size ≤ J.size := by omega
  refine ⟨⟨address, b.offset, DirectBlock.headerLengthOf h, ⟨J, address, size, within'⟩⟩,
    readDirect_iff.mpr ⟨hle, hfits, hheld', within', rfl⟩, ?_⟩
  rw [heq]
  rfl

/-! ### Walks -/

/-- The tasks that a walk visits: the root, and those in the indirect slots of the blocks that are
visited. -/
inductive Visited (I : Image) (h : Header) : Task → Prop where
  | root {root : Nat} (hroot : IndirectRoot h root) : Visited I h ⟨root, h.fields.rootRows⟩
  | child {task : Task} {block : IndirectBlock} {slot child rows : Nat} (hv : Visited I h task)
      (hread : IndirectBlock.read I h task.address task.rows = .ok block)
      (hchild : block.children[slot]? = some child)
      (hsize : h.table.blockSize slot = .indirect)
      (hrows : h.table.childRows (h.table.rowOf slot) = some rows) :
      Visited I h ⟨child, rows⟩

theorem visited_of_reached {root : Nat} (hroot : IndirectRoot h root) {p : Point}
    (hp : Reached I h t root p) :
    (∀ task ∈ p.walk.pending, Visited I h task) ∧
      ∀ b ∈ p.blocks, Visited I h ⟨b.address, b.rows⟩ := by
  induction hp with
  | start =>
    refine ⟨fun task htask => ?_, fun _ hb => absurd hb List.not_mem_nil⟩
    rw [List.mem_singleton.mp htask]
    exact .root hroot
  | @step p q hp hs ih =>
    obtain ⟨hpending, hblocks⟩ := ih
    cases hs with
    | @visit visited task rest index block hread =>
      refine ⟨fun x hx => hpending x (List.mem_cons_of_mem _ hx), fun b hb => ?_⟩
      rcases List.mem_cons.mp hb with rfl | hb
      · rw [(children_of_read hread).1, (IndirectBlock.of_read_eq_ok hread).1]
        exact hpending task (List.mem_cons_self ..)
      · exact hblocks b hb
    | direct _ _ _ _ => exact ⟨hpending, hblocks⟩
    | leave _ => exact ⟨hpending, hblocks⟩
    | @indirect visited block slot child rows w hchild hsize hrows =>
      refine ⟨fun task htask => ?_, hblocks⟩
      have hmem : block ∈ (Point.inside visited block slot w).blocks := List.mem_cons_self ..
      rcases List.mem_cons.mp htask with rfl | htask
      · exact .child (hblocks block hmem) (hp.read block hmem) hchild hsize hrows
      · exact hpending task htask

/-- Two walks have the same tasks left, and the blocks that they found have the same outlines. -/
structure Alike (w w' : Walk) : Prop where
  pending : w.pending = w'.pending
  index : w.index.blocks.map outline = w'.index.blocks.map outline

/-- Two points are at the same place of walks that are alike. -/
inductive Mirrors : Point → Point → Prop where
  | between {visited : List IndirectBlock} {w w' : Walk} (hw : Alike w w') :
      Mirrors (.between visited w) (.between visited w')
  | inside {visited : List IndirectBlock} {block : IndirectBlock} {slot : Nat} {w w' : Walk}
      (hw : Alike w w') : Mirrors (.inside visited block slot w) (.inside visited block slot w')

/-- The bytes that matter for the indirect blocks of a heap are in both images. -/
def SameSlots (I J : Image) (h : Header) : Prop :=
  ∀ task b, Visited I h task → IndirectBlock.read I h task.address task.rows = .ok b →
    SameBytes I J b.address (usedLength h b)

/-- The headings of these direct blocks are in both images. -/
def SameHeadings (I J : Image) (h : Header) (blocks : List DirectBlock) : Prop :=
  ∀ b ∈ blocks, SameBytes I J b.address (BlockHeading.length h)

/-- **A step** of one walk is a step of the other, as far as the image is the same. -/
theorem mirror_of_step {p p' q : Point} (hsize : J.size = I.size) (hslots : SameSlots I J h)
    (hpending : ∀ task ∈ p.walk.pending, Visited I h task)
    (hheadings : SameHeadings I J h q.walk.index.blocks) (hm : Mirrors p p')
    (hs : Step I h t p q) : ∃ q', Step J h t p' q' ∧ Mirrors q q' := by
  cases hs with
  | @visit visited task rest index block hread =>
    cases hm with
    | @between _ _ w' hw =>
      obtain ⟨pending', index'⟩ := w'
      obtain ⟨hp, hindex⟩ := hw
      simp only at hp hindex
      subst hp
      have hsame := hslots task block (hpending task (List.mem_cons_self ..)) hread
      rw [(children_of_read hread).1] at hsame
      exact ⟨_, .visit (readIndirect_of_same hsize hread hsame), .inside ⟨rfl, hindex⟩⟩
  | @direct visited block slot child size w b index hchild hdirect hread hfree =>
    cases hm with
    | @inside _ _ _ _ w' hw =>
      have hb : b ∈ index.blocks :=
        (insert_eq_ok_iff_perm.mp hfree).2.mem_iff.mpr (List.mem_cons_self ..)
      obtain ⟨b', hread', hview⟩ := readDirect_of_same hsize hread (hheadings b hb)
      obtain ⟨index', hfree', hindex⟩ :=
        insert_view Outline.offset (fun _ => rfl) hview hw.index hfree
      exact ⟨_, .direct hchild hdirect hread' hfree', .inside ⟨hw.pending, hindex⟩⟩
  | indirect hchild hindirect hrows =>
    cases hm with
    | inside hw =>
      refine ⟨_, .indirect hchild hindirect hrows, .inside ⟨?_, hw.index⟩⟩
      rw [hw.pending]
  | leave hchild =>
    cases hm with
    | inside hw => exact ⟨_, .leave hchild, .between hw⟩

theorem indexed_of_step {p q : Point} (hs : Step I h t p q) :
    ∀ b ∈ p.walk.index.blocks, b ∈ q.walk.index.blocks := by
  cases hs with
  | visit _ => exact fun _ hb => hb
  | direct _ _ _ hfree =>
    exact fun _ hb => (insert_eq_ok_iff_perm.mp hfree).2.mem_iff.mpr (List.mem_cons_of_mem _ hb)
  | indirect _ _ _ => exact fun _ hb => hb
  | leave _ => exact fun _ hb => hb

theorem mirror_of_reached {root : Nat} (hroot : IndirectRoot h root) (hsize : J.size = I.size)
    (hslots : SameSlots I J h) {p : Point} (hp : Reached I h t root p)
    (hheadings : SameHeadings I J h p.walk.index.blocks) :
    ∃ p', Reached J h t root p' ∧ Mirrors p p' := by
  induction hp with
  | start => exact ⟨_, .start, .between ⟨rfl, rfl⟩⟩
  | @step p q hp hs ih =>
    obtain ⟨p', hp', hm⟩ := ih fun b hb => hheadings b (indexed_of_step hs b hb)
    obtain ⟨q', hs', hm'⟩ := mirror_of_step hsize hslots (visited_of_reached hroot hp).1
      hheadings hm hs
    exact ⟨q', hp'.step hs', hm'⟩

theorem directBlocks_of_same {index : BlockIndex} (hsize : J.size = I.size)
    (hslots : SameSlots I J h) (hheadings : SameHeadings I J h index.blocks)
    (hr : (directBlocks I h).result t = .ok index) :
    ∃ index', (directBlocks J h).result t = .ok index' ∧
      index.blocks.map outline = index'.blocks.map outline := by
  cases haddress : h.root? with
  | none =>
    unfold directBlocks at hr ⊢
    rw [haddress] at hr ⊢
    cases hr
    exact ⟨_, rfl, rfl⟩
  | some root =>
    rcases Nat.eq_zero_or_pos h.fields.rootRows with hrows | hpos
    · unfold directBlocks at hr ⊢
      simp only [haddress, hrows, if_true, Logged.result_bind_eq_ok] at hr ⊢
      obtain ⟨b, hread, hpure⟩ := hr
      cases hpure
      obtain ⟨b', hread', hview⟩ :=
        readDirect_of_same hsize hread (hheadings b (List.mem_singleton.mpr rfl))
      refine ⟨_, ⟨b', hread', rfl⟩, ?_⟩
      unfold BlockIndex.singleton
      rw [List.map_singleton, List.map_singleton, hview]
    · have hroot : IndirectRoot h root := ⟨haddress, hpos⟩
      obtain ⟨visited, hend⟩ := (directBlocks_eq_ok_iff_reached hroot).mp hr
      obtain ⟨_, hend', hm⟩ := mirror_of_reached hroot hsize hslots hend hheadings
      cases hm with
      | @between _ _ w' hw =>
        obtain ⟨pending', index'⟩ := w'
        obtain ⟨hp, hindex⟩ := hw
        simp only at hp hindex
        subst hp
        exact ⟨index', (directBlocks_eq_ok_iff_reached hroot).mpr ⟨visited, hend'⟩, hindex⟩

/-! ### Objects -/

theorem slice_eq_none {b : DirectBlock} {offset length : Nat}
    (hout : ¬ (b.offset ≤ offset ∧ offset < b.offset + b.size ∧
      offset + length ≤ b.offset + b.size)) : b.slice offset length = none := by
  cases hslice : b.slice offset length with
  | none => rfl
  | some bytes =>
    obtain ⟨hin, hend, -⟩ := DirectBlock.slice_eq_some_iff.mp hslice
    obtain ⟨hle, hlt⟩ := DirectBlock.contains_iff.mp hin
    exact absurd ⟨hle, hlt, hend⟩ hout

/-- **An object** is found in both heaps, in blocks with the same outline, or it is in neither for
the same reason. -/
theorem managedObject_of_outlines {heap heap' : Heap} (hheader : heap'.header = heap.header)
    (hindex : heap.blocks.map outline = heap'.blocks.map outline) (offset length : Nat) :
    (∃ e, heap.managedObject offset length = .error e ∧
        heap'.managedObject offset length = .error e) ∨
      ∃ b b' bytes bytes', outline b = outline b' ∧ Covers heap.blocks offset length b ∧
        Covers heap'.blocks offset length b' ∧ heap.managedObject offset length = .ok bytes ∧
        heap'.managedObject offset length = .ok bytes' := by
  have haddress : heap'.address = heap.address := congrArg Header.address hheader
  have hfloor := floor?_view Outline.offset (fun _ => rfl) hindex offset
  cases hb : heap.index.floor? offset with
  | none =>
    rw [hb, Option.map_none, eq_comm, Option.map_eq_none_iff] at hfloor
    refine .inl ⟨.reference heap.address (.uncovered offset), ?_, ?_⟩
    · simp only [Heap.managedObject, Heap.floorBlock?, hb]
    · simp only [Heap.managedObject, Heap.floorBlock?, hfloor, haddress]
  | some b =>
    rw [hb, Option.map_some, eq_comm, Option.map_eq_some_iff] at hfloor
    obtain ⟨b', hb', hview⟩ := hfloor
    have hoffset : b'.offset = b.offset := congrArg Outline.offset hview
    have hsize : b'.size = b.size := congrArg Outline.size hview
    by_cases hin : b.offset ≤ offset ∧ offset < b.offset + b.size ∧
        offset + length ≤ b.offset + b.size
    · obtain ⟨-, hlt, hend⟩ := hin
      have hc : Covers heap.blocks offset length b := ⟨floor?_eq_some_iff.mp hb, hlt, hend⟩
      have hc' : Covers heap'.blocks offset length b' :=
        ⟨floor?_eq_some_iff.mp hb', by omega, by omega⟩
      exact .inr ⟨b, b', _, _, hview.symm, hc, hc', managedObject_eq_ok_iff.mpr ⟨b, hc, rfl⟩,
        managedObject_eq_ok_iff.mpr ⟨b', hc', rfl⟩⟩
    · have hin' : ¬ (b'.offset ≤ offset ∧ offset < b'.offset + b'.size ∧
          offset + length ≤ b'.offset + b'.size) := by
        rw [hoffset, hsize]
        exact hin
      refine .inl
        ⟨.reference heap.address (.outsideBlock offset length b.size b.offset), ?_, ?_⟩
      · simp only [Heap.managedObject, Heap.floorBlock?, hb, slice_eq_none hin]
      · simp only [Heap.managedObject, Heap.floorBlock?, hb', slice_eq_none hin', haddress, hsize,
          hoffset]

/-- **The bytes of an object** are those of the image at its place in its block. -/
theorem bytes_of_object {address : Nat} {options : Heap.Options} {heap : Heap}
    (hload : (Heap.load I s address options).result t = .ok heap) {offset length : Nat}
    {b : DirectBlock} {bytes : List UInt8} (hc : Covers heap.blocks offset length b)
    (hobject : heap.managedObject offset length = .ok bytes) :
    bytes = (I.toList.drop (b.address + (offset - b.offset))).take length := by
  obtain ⟨b', hc', hbytes⟩ := managedObject_eq_ok_iff.mp hobject
  cases hc.floor.unique heap.index.ascending hc'.floor
  obtain ⟨-, -, -, hpart⟩ := indexed_is_held hload hc.floor.mem
  have hle := hc.floor.le
  have hends := hc.ends
  have hplace : offset - b.offset + length ≤ b.size := by omega
  have hheld := (hpart _ _ hplace).2
  have hlen : bytes.length = length := by
    rw [hbytes, List.length_take, List.length_drop, Image.Region.length_toList]
    exact Nat.min_eq_left (by unfold DirectBlock.size at hplace; omega)
  rw [← hbytes, hlen] at hheld
  exact hheld.symm

/-! ### Heaps -/

/-- All bytes that matter for a heap are in both images: those of its header, those of the headings
and of the used slots of its indirect blocks, and those of the headings of its direct blocks. -/
structure SameStructure (I J : Image) (address : Nat) (heap : Heap) : Prop where
  size : J.size = I.size
  header : SameBytes I J address (Header.encodedLength heap.header.superblock)
  slots : SameSlots I J heap.header
  headings : SameHeadings I J heap.header heap.blocks

theorem load_of_same {address : Nat} {options : Heap.Options} {heap : Heap}
    (hload : (Heap.load I s address options).result t = .ok heap)
    (hsame : SameStructure I J address heap) :
    ∃ heap', (Heap.load J s address options).result t = .ok heap' ∧
      heap'.header = heap.header ∧ heap'.options = heap.options ∧
      heap.blocks.map outline = heap'.blocks.map outline := by
  obtain ⟨hheader, hoptions, hwalk⟩ := load_eq_ok_iff.mp hload
  have hrecord := hsame.header
  rw [(address_of_read hheader).2] at hrecord
  obtain ⟨index', hwalk', hindex⟩ :=
    directBlocks_of_same hsame.size hsame.slots hsame.headings hwalk
  exact ⟨⟨heap.header, heap.options, index'⟩, load_eq_ok_iff.mpr
    ⟨readHeader_of_same hsame.size hrecord hheader, hoptions, hwalk'⟩, rfl, rfl, hindex⟩

/-- **Only the structure matters.** An image that has the bytes of a heap's structure has the heap:
the same header, and blocks of the same offsets and sizes at the same addresses. A managed object is
in both heaps or in neither, for the same reason; and if the images have the same bytes at its place
in its block, it is the same in both. -/
theorem load_of_sameStructure {address : Nat} {options : Heap.Options} {heap : Heap}
    (hload : (Heap.load I s address options).result t = .ok heap)
    (hsame : SameStructure I J address heap) :
    ∃ heap', (Heap.load J s address options).result t = .ok heap' ∧
      heap'.header = heap.header ∧ heap'.options = heap.options ∧
      (heap'.blocks.map fun b => (b.address, b.offset, b.size))
        = (heap.blocks.map fun b => (b.address, b.offset, b.size)) ∧
      ∀ id offset length u,
        Identifier.parse id heap.layout heap.address = .ok (.managed offset length) →
        (∃ e, (heap.resolve id).result u = .error e ∧ (heap'.resolve id).result u = .error e) ∨
        ∃ b bytes bytes', Covers heap.blocks offset length b ∧
          (heap.resolve id).result u = .ok bytes ∧ (heap'.resolve id).result u = .ok bytes' ∧
          (SameBytes I J (b.address + (offset - b.offset)) length → bytes' = bytes) := by
  obtain ⟨heap', hload', hheader, hoptions, hindex⟩ := load_of_same hload hsame
  refine ⟨heap', hload', hheader, hoptions, ?_, fun id offset length u hparse => ?_⟩
  · have hranges := congrArg (List.map fun v : Outline => (v.address, v.offset, v.size)) hindex
    rw [List.map_map, List.map_map] at hranges
    exact hranges.symm
  · have hparse' : Identifier.parse id heap'.layout heap'.address
        = .ok (.managed offset length) := by
      unfold Heap.layout Heap.address at hparse ⊢
      rw [hheader]
      exact hparse
    rw [resolve_managed hparse, resolve_managed hparse']
    rcases managedObject_of_outlines hheader hindex offset length with
      herror | ⟨b, b', bytes, bytes', hview, hc, hc', hobject, hobject'⟩
    · exact .inl herror
    · refine .inr ⟨b, bytes, bytes', hc, hobject, hobject', fun hrange => ?_⟩
      have haddress : b'.address = b.address := congrArg Outline.address hview.symm
      have hoffset : b'.offset = b.offset := congrArg Outline.offset hview.symm
      rw [bytes_of_object hload hc hobject, bytes_of_object hload' hc' hobject', haddress, hoffset]
      exact (hrange.take_eq (Nat.le_refl _)).symm

/-- A heap whose root has three slots, of which the first is used. -/
def sparse : Image :=
  written [⟨0, (smallHeader 41 3).fields.encode narrow⟩,
    ⟨41, IndirectBlock.encode (smallHeader 41 3) ⟨41, 0, 3, [51]⟩⟩,
    ⟨51, DirectBlock.encode (smallHeader 41 3) 0 [] [1]⟩]

/-- The same with other bytes in the last slot and in the payload. -/
def scribbled : Image := .ofList ((sparse.toList.set 50 7).set 58 9)

theorem read_sparse :
    IndirectBlock.read sparse (smallHeader 41 3) 41 3 = .ok ⟨41, 0, 3, [51]⟩ :=
  eq_ok_of_toOption (by decide +kernel)

theorem visited_sparse {task : Task} (hv : Visited sparse (smallHeader 41 3) task) :
    task = ⟨41, 3⟩ := by
  induction hv with
  | root hroot =>
    obtain ⟨haddress, -⟩ := hroot
    cases haddress
    rfl
  | @child task block slot child rows _ hread hchild hsize _ ih =>
    subst ih
    rw [read_sparse, Except.ok.injEq] at hread
    subst hread
    -- the only child is in a direct slot
    cases slot with
    | zero => cases hsize
    | succ slot => cases hchild

theorem sparse_blocks {heap : Heap}
    (hload : (Heap.load sparse narrow 0 {}).result .trace = .ok heap) :
    heap.header = smallHeader 41 3 ∧
      heap.blocks.map (fun b => (b.address, b.offset, b.size)) = [(51, 0, 8)] := by
  obtain ⟨hheader, -, hwalk⟩ := load_eq_ok_iff.mp hload
  have hread : (Header.read sparse narrow 0).result .trace = .ok (smallHeader 41 3) := rfl
  have hsmall : heap.header = smallHeader 41 3 := Except.ok.inj (hheader.symm.trans hread)
  have hblocks : (((directBlocks sparse (smallHeader 41 3)).result .trace).toOption.map fun index =>
      index.blocks.map fun b => (b.address, b.offset, b.size)) = some [(51, 0, 8)] := by
    decide +kernel
  rw [hsmall] at hwalk
  rw [hwalk] at hblocks
  exact ⟨hsmall, Option.some.inj hblocks⟩

theorem sparse_of_mem {heap : Heap}
    (hload : (Heap.load sparse narrow 0 {}).result .trace = .ok heap) {b : DirectBlock}
    (hb : b ∈ heap.blocks) : b.address = 51 ∧ b.offset = 0 := by
  have hmem := List.mem_map_of_mem (f := fun b => (b.address, b.offset, b.size)) hb
  rw [(sparse_blocks hload).2, List.mem_singleton] at hmem
  obtain ⟨haddress, hmem⟩ := Prod.mk.inj hmem
  exact ⟨haddress, (Prod.mk.inj hmem).1⟩

theorem sameStructure_scribbled {heap : Heap}
    (hload : (Heap.load sparse narrow 0 {}).result .trace = .ok heap) :
    SameStructure sparse scribbled 0 heap := by
  have hsmall := (sparse_blocks hload).1
  refine ⟨rfl, ?_, ?_, ?_⟩
  · rw [hsmall]
    decide +kernel
  · intro task b hv hb
    rw [hsmall] at hv hb ⊢
    obtain rfl := visited_sparse hv
    rw [read_sparse, Except.ok.injEq] at hb
    rw [← hb]
    decide +kernel
  · intro b hb
    rw [hsmall, (sparse_of_mem hload hb).1]
    decide +kernel

/-- Scribbling in an unused slot and in a payload changes the object in that payload only. -/
theorem scribbled_loaded :
    ∃ heap heap', (Heap.load sparse narrow 0 {}).result .trace = .ok heap ∧
      SameStructure sparse scribbled 0 heap ∧
      (Heap.load scribbled narrow 0 {}).result .trace = .ok heap' ∧
      (heap'.blocks.map fun b => (b.address, b.offset, b.size)) = [(51, 0, 8)] ∧
      (heap'.resolve [0, 0, 7]).result .trace = (heap.resolve [0, 0, 7]).result .trace ∧
      (heap'.resolve [0, 7, 1]).result .trace = .ok [9] ∧
      (heap.resolve [0, 7, 1]).result .trace = .ok [1] := by
  have hrun : ((Heap.load sparse narrow 0 {} >>= fun heap =>
      heap.resolve [0, 7, 1]).result .trace).toOption = some [1] := by decide +kernel
  have hrun' : ((Heap.load scribbled narrow 0 {} >>= fun heap =>
      heap.resolve [0, 7, 1]).result .trace).toOption = some [9] := by decide +kernel
  obtain ⟨heap, hload, hr⟩ := Logged.result_bind_eq_ok.mp (eq_ok_of_toOption hrun)
  obtain ⟨other, hother, hr'⟩ := Logged.result_bind_eq_ok.mp (eq_ok_of_toOption hrun')
  obtain ⟨hsmall, hranges⟩ := sparse_blocks hload
  have hsame := sameStructure_scribbled hload
  obtain ⟨heap', hload', -, -, hranges', hobjects⟩ := load_of_sameStructure hload hsame
  obtain rfl : heap' = other := Except.ok.inj (hload'.symm.trans hother)
  have hid : Identifier.parse [0, 0, 7] heap.layout heap.address = .ok (.managed 0 7) := by
    unfold Heap.layout Heap.address
    rw [hsmall]
    rfl
  refine ⟨heap, heap', hload, hsame, hload', hranges'.trans hranges, ?_, hr', hr⟩
  rcases hobjects _ 0 7 .trace hid with ⟨e, he, he'⟩ | ⟨b, bytes, bytes', hc, hb, hb', hrange⟩
  · rw [he, he']
  · rw [hb, hb', hrange ?_]
    obtain ⟨haddress, hoffset⟩ := sparse_of_mem hload hc.floor.mem
    rw [haddress, hoffset]
    decide +kernel

end DoublingHeap.Proofs.Frame
