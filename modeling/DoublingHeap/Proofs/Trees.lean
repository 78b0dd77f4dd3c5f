import DoublingHeap.Proofs.Tiling
import DoublingHeap.Proofs.Writing

/-! # Heaps before they are written

A `Tree` is a heap as its blocks hang together: for every block the file address that it is written
to, for direct blocks the bytes in them, and for indirect blocks what is in their slots (`Slots`).
Nothing else about a block is free. Where it is in heap address space follows from its slot, and so
do its bytes (`Slots.placed`).

The direct blocks of a tree come in the order of their offsets and do not overlap, since slots tile
address space and an indirect block fills its slot (`Slots.ordered`, `Tree.ordered`). -/

namespace DoublingHeap.Proofs.Trees

open DoublingHeap.Proofs.Tiling DoublingHeap.Proofs.Writing

variable {h : Header}

/-! ### Trees and the bytes of their blocks -/

/-- What is in the slots of an indirect block, from some slot on. -/
inductive Slots where
  /-- No more slots are used. -/
  | done
  /-- The slot has a direct block. -/
  | direct (address : Nat) (checksum payload : List UInt8) (rest : Slots)
  /-- The slot has an indirect block with these slots below it. -/
  | indirect (address : Nat) (below rest : Slots)

/-- The blocks of a heap. -/
inductive Tree where
  | empty
  /-- The root is a direct block. -/
  | direct (address : Nat) (checksum payload : List UInt8)
  /-- The root is an indirect block. -/
  | indirect (address rows : Nat) (slots : Slots)

/-- A block where it is: its kind, its offset in heap address space, and its bytes in the file. -/
structure Placed where
  kind : BlockKind
  offset : Nat
  piece : Piece
deriving DecidableEq, Repr

/-- The record of an indirect block and its checksum, which nothing looks at. -/
def encodeIndirect (h : Header) (b : IndirectBlock) : List UInt8 :=
  IndirectBlock.encode h b ++ List.replicate 4 0

/-- The rows of the indirect block in a slot. -/
def rowsIn (t : DoublingTable) (slot : Nat) : Nat := (t.childRows (t.rowOf slot)).getD 0

namespace Slots

/-- The addresses of the blocks in the slots. -/
def addresses : Slots → List Nat
  | done => []
  | direct address _ _ rest => address :: rest.addresses
  | indirect address _ rest => address :: rest.addresses

/-- All blocks in the slots from `slot` on of an indirect block at the offset `base`. -/
def placed (h : Header) (base slot : Nat) : Slots → List Placed
  | done => []
  | direct address checksum payload rest =>
    let offset := base + slotOffset h.table slot
    ⟨.direct, offset, address, DirectBlock.encode h offset checksum payload⟩
      :: rest.placed h base (slot + 1)
  | indirect address below rest =>
    let offset := base + slotOffset h.table slot
    ⟨.indirect, offset, address,
        encodeIndirect h ⟨address, offset, rowsIn h.table slot, below.addresses⟩⟩
      :: (below.placed h offset 0 ++ rest.placed h base (slot + 1))

/-- Every block has the size and the rows of its slot. -/
def Fits (h : Header) (slot : Nat) : Slots → Prop
  | done => True
  | direct _ checksum payload rest =>
    checksum.length = DirectBlock.checksumLength h ∧
      h.table.blockSize slot = .direct (DirectBlock.headerLengthOf h + payload.length) ∧
      rest.Fits h (slot + 1)
  | indirect _ below rest =>
    h.table.blockSize slot = .indirect ∧
      h.table.childRows (h.table.rowOf slot) = some (rowsIn h.table slot) ∧
      below.addresses.length ≤ rowsIn h.table slot * h.table.width ∧
      below.Fits h 0 ∧ rest.Fits h (slot + 1)

instance decidableFits (h : Header) : (slot : Nat) → (slots : Slots) → Decidable (slots.Fits h slot)
  | _, done => inferInstanceAs (Decidable True)
  | slot, direct _ _ _ rest =>
    have := decidableFits h (slot + 1) rest
    inferInstanceAs (Decidable (_ ∧ _ ∧ rest.Fits h (slot + 1)))
  | slot, indirect _ below rest =>
    have := decidableFits h 0 below
    have := decidableFits h (slot + 1) rest
    inferInstanceAs (Decidable (_ ∧ _ ∧ _ ∧ below.Fits h 0 ∧ rest.Fits h (slot + 1)))

end Slots

namespace Tree

/-- All blocks of the tree. The root is at offset zero. -/
def placed (h : Header) : Tree → List Placed
  | empty => []
  | direct address checksum payload =>
    [⟨.direct, 0, address, DirectBlock.encode h 0 checksum payload⟩]
  | indirect address rows slots =>
    ⟨.indirect, 0, address, encodeIndirect h ⟨address, 0, rows, slots.addresses⟩⟩
      :: slots.placed h 0 0

/-- The tree is one that the header describes. -/
def Fits (h : Header) : Tree → Prop
  | empty => h.fields.rootAddress = h.superblock.undefinedAddress
  | direct address checksum payload =>
    h.fields.rootAddress = address ∧ h.fields.rootRows = 0 ∧
      checksum.length = DirectBlock.checksumLength h ∧
      h.table.startingSize = DirectBlock.headerLengthOf h + payload.length
  | indirect address rows slots =>
    h.fields.rootAddress = address ∧ h.fields.rootRows = rows ∧
      (1 ≤ rows ∧ rows ≤ h.table.maxRows) ∧
      slots.addresses.length ≤ rows * h.table.width ∧ slots.Fits h 0

instance (h : Header) : (tree : Tree) → Decidable (tree.Fits h)
  | empty => inferInstanceAs (Decidable (_ = _))
  | direct .. => inferInstanceAs (Decidable (_ ∧ _ ∧ _ ∧ _))
  | indirect _ _ slots => inferInstanceAs (Decidable (_ ∧ _ ∧ _ ∧ _ ∧ slots.Fits h 0))

/-- Everything that is written for a heap: the header with its checksum, and all blocks. -/
def pieces (h : Header) (tree : Tree) : List Piece :=
  ⟨h.address, h.fields.encode h.superblock ++ List.replicate 4 0⟩
    :: (tree.placed h).map Placed.piece

end Tree

/-! ### Direct blocks in the order of their offsets -/

/-- The direct ones among blocks. -/
def directs (blocks : List Placed) : List Placed := blocks.filter (·.kind = .direct)

theorem directs_append (xs ys : List Placed) : directs (xs ++ ys) = directs xs ++ directs ys :=
  List.filter_append ..

theorem directs_direct {p : Placed} (hp : p.kind = .direct) (ps : List Placed) :
    directs (p :: ps) = p :: directs ps := by
  unfold directs
  rw [List.filter_cons_of_pos (by rw [hp]; rfl)]

theorem directs_indirect {p : Placed} (hp : p.kind = .indirect) (ps : List Placed) :
    directs (p :: ps) = directs ps := by
  unfold directs
  rw [List.filter_cons_of_neg (by rw [hp]; decide)]

/-- The end of a block in heap address space. -/
def Placed.stop (p : Placed) : Nat := p.offset + p.piece.bytes.length

/-- The blocks lie between two offsets, each after the one before, and none is empty. -/
def Ordered (lo hi : Nat) : List Placed → Prop
  | [] => lo ≤ hi
  | p :: ps => lo ≤ p.offset ∧ p.offset < p.stop ∧ Ordered p.stop hi ps

theorem Ordered.lower {lo lo' hi : Nat} {ps : List Placed} (ho : Ordered lo hi ps)
    (hle : lo' ≤ lo) : Ordered lo' hi ps := by
  cases ps with
  | nil => exact Nat.le_trans hle ho
  | cons p ps => exact ⟨Nat.le_trans hle ho.1, ho.2⟩

theorem Ordered.append {lo mid hi : Nat} {ps qs : List Placed} (hp : Ordered lo mid ps)
    (hq : Ordered mid hi qs) : Ordered lo hi (ps ++ qs) := by
  induction ps generalizing lo with
  | nil => exact hq.lower hp
  | cons p ps ih => exact ⟨hp.1, hp.2.1, ih hp.2.2⟩

theorem Ordered.upper {lo hi hi' : Nat} {ps : List Placed} (ho : Ordered lo hi ps)
    (hle : hi ≤ hi') : Ordered lo hi' ps := by
  have hnil : Ordered hi hi' [] := hle
  have happend := ho.append hnil
  rwa [List.append_nil] at happend

theorem Ordered.pairwise {lo hi : Nat} {ps : List Placed} (ho : Ordered lo hi ps) :
    (∀ p ∈ ps, lo ≤ p.offset ∧ p.offset < p.stop) ∧
      ps.Pairwise fun p q => p.stop ≤ q.offset := by
  induction ps generalizing lo with
  | nil => exact ⟨fun _ hp => absurd hp List.not_mem_nil, List.Pairwise.nil⟩
  | cons p ps ih =>
    obtain ⟨hlo, hstop, hrest⟩ := ho
    obtain ⟨hall, hpair⟩ := ih hrest
    refine ⟨fun q hq => ?_, List.pairwise_cons.mpr ⟨fun q hq => (hall q hq).1, hpair⟩⟩
    rcases List.mem_cons.mp hq with rfl | hq
    · exact ⟨hlo, hstop⟩
    · have := hall q hq
      omega

theorem length_encodeDirect (offset : Nat) {checksum : List UInt8} (payload : List UInt8)
    (hsum : checksum.length = DirectBlock.checksumLength h) :
    (DirectBlock.encode h offset checksum payload).length
      = DirectBlock.headerLengthOf h + payload.length := by
  unfold DirectBlock.encode DirectBlock.headerLengthOf
  rw [List.length_append, List.length_append, BlockHeading.length_encode, hsum]

theorem offset_lt_stop {offset address : Nat} {checksum payload : List UInt8}
    (hsum : checksum.length = DirectBlock.checksumLength h) :
    offset < (Placed.mk .direct offset
      ⟨address, DirectBlock.encode h offset checksum payload⟩).stop := by
  show offset < offset + (DirectBlock.encode h offset checksum payload).length
  rw [length_encodeDirect _ _ hsum]
  unfold DirectBlock.headerLengthOf BlockHeading.length
  omega

/-- **The direct blocks below an indirect block** are in order, from the slot where they begin to
the slot where they end. -/
theorem Slots.ordered {slots : Slots} (base : Nat) {slot : Nat} (hf : slots.Fits h slot) :
    Ordered (base + slotOffset h.table slot)
      (base + slotOffset h.table (slot + slots.addresses.length))
      (directs (slots.placed h base slot)) := by
  induction slots generalizing base slot with
  | done => exact Nat.le_refl _
  | direct address checksum payload rest ih =>
    obtain ⟨hsum, hsize, hrest⟩ := hf
    have hnext := ih base hrest
    have hstep : slotOffset h.table (slot + 1)
        = slotOffset h.table slot + (DirectBlock.headerLengthOf h + payload.length) := by
      rw [slotOffset, slotSize_of_direct hsize]
    rw [placed, directs_direct rfl, addresses, List.length_cons, Nat.add_comm rest.addresses.length,
      ← Nat.add_assoc]
    refine ⟨Nat.le_refl _, offset_lt_stop hsum, hnext.lower ?_⟩
    have hstop : base + slotOffset h.table slot
          + (DirectBlock.encode h (base + slotOffset h.table slot) checksum payload).length
        = base + slotOffset h.table (slot + 1) := by
      rw [length_encodeDirect _ _ hsum, hstep, Nat.add_assoc]
    exact Nat.le_of_eq hstop
  | indirect address below rest ihb ihr =>
    obtain ⟨hsize, hrows, hlen, hbelow, hrest⟩ := hf
    have hnext := ihr base hrest
    have hinside := ihb (base + slotOffset h.table slot) hbelow
    -- the rows below span no more than the slot
    have hfill := slotSize_of_indirect hsize hrows
    have hmono := slotOffset_mono (t := h.table) hlen
    rw [placed, directs_indirect rfl, directs_append, addresses, List.length_cons,
      Nat.add_comm rest.addresses.length, ← Nat.add_assoc]
    refine (hinside.upper ?_).append hnext
    rw [Nat.zero_add, slotOffset]
    omega

theorem Tree.ordered {tree : Tree} (hf : tree.Fits h) :
    ∃ hi, Ordered 0 hi (directs (tree.placed h)) := by
  cases tree with
  | empty => exact ⟨0, Nat.le_refl 0⟩
  | direct address checksum payload =>
    obtain ⟨-, -, hsum, -⟩ := hf
    exact ⟨_, Nat.le_refl 0, offset_lt_stop hsum, Nat.le_refl _⟩
  | indirect address rows slots =>
    obtain ⟨-, -, -, -, hslots⟩ := hf
    have ho := Slots.ordered 0 hslots
    rw [placed, directs_indirect rfl]
    exact ⟨_, ho.lower (Nat.zero_le _)⟩

end DoublingHeap.Proofs.Trees
