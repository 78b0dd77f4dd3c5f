import Mathlib.Data.List.Pairwise
import DoublingHeap.Proofs.Overlap
import DoublingHeap.Proofs.RoundTrip
import DoublingHeap.Proofs.Termination

/-! # Nested tables tile address space

An indirect block of some rows stands for a range of heap address space, which its slots divide up:
direct slots are ranges themselves, and an indirect slot is divided by the table in it. `spans`
lists the ranges of all direct slots in and below such a block, in slot order.

A list of ranges is a `Chain` if each range is related to the next one: `Tiles` if each starts where
the one before ends, `InOrder` if none starts before that. Where every indirect slot has room for a
table, the spans tile the whole range of the block, and in any case they are in order
(`chain_spans`). The place of a direct block in the table is one of them (`mem_spans_of_at`), so
blocks in place do not overlap. -/

namespace DoublingHeap.Proofs.Spans

open DoublingHeap.Walk
open DoublingHeap.Proofs.Blocks DoublingHeap.Proofs.Visits DoublingHeap.Proofs.Descent
open DoublingHeap.Proofs.Tiling DoublingHeap.Proofs.Steps DoublingHeap.Proofs.Overlap
open DoublingHeap.Proofs.Termination
open DoublingHeap.Proofs.Trees DoublingHeap.Proofs.Writing DoublingHeap.Proofs.RoundTrip

attribute [local instance (high)] instPowNat Zero.ofOfNat0

/-- A range of heap address space. -/
structure Span where
  start : Nat
  size : Nat
deriving DecidableEq, Repr

/-- The first offset after a range. -/
def Span.stop (s : Span) : Nat := s.start + s.size

/-! ### Chains of ranges -/

section Chain

variable {r : Nat → Nat → Prop} {lo mid hi : Nat} {xs ys : List Span}

/-- The ranges lead from one offset to another: the end of each is related to the start of the
next. -/
def Chain (r : Nat → Nat → Prop) (lo hi : Nat) : List Span → Prop
  | [] => r lo hi
  | s :: rest => r lo s.start ∧ Chain r s.stop hi rest

/-- The ranges fill the space between two offsets, each starting where the one before ends. -/
def Tiles (lo hi : Nat) (xs : List Span) : Prop := Chain (· = ·) lo hi xs

/-- The ranges lie between two offsets, none starting before the end of the one before. -/
def InOrder (lo hi : Nat) (xs : List Span) : Prop := Chain (· ≤ ·) lo hi xs

theorem Chain.append (htrans : ∀ {a b c}, r a b → r b c → r a c) (hx : Chain r lo mid xs)
    (hy : Chain r mid hi ys) : Chain r lo hi (xs ++ ys) := by
  induction xs generalizing lo with
  | nil =>
    have hlo : r lo mid := hx
    cases ys with
    | nil => exact htrans hlo hy
    | cons s rest => exact ⟨htrans hlo hy.1, hy.2⟩
  | cons s rest ih => exact ⟨hx.1, ih hx.2⟩

theorem Chain.flatMap (hrefl : ∀ a, r a a) (htrans : ∀ {a b c}, r a b → r b c → r a c)
    (f : Nat → Nat) : ∀ {n : Nat} {g : Fin n → List Span},
      (∀ i : Fin n, Chain r (f i) (f (i + 1)) (g i)) →
        Chain r (f 0) (f n) ((List.finRange n).flatMap g)
  | 0, _, _ => hrefl _
  | n + 1, g, hg => by
    rw [List.finRange_succ_last, List.flatMap_append, List.flatMap_map, List.flatMap_singleton]
    exact (Chain.flatMap hrefl htrans f fun i => hg i.castSucc).append htrans (hg (Fin.last n))

theorem Tiles.inOrder (ht : Tiles lo hi xs) : InOrder lo hi xs := by
  induction xs generalizing lo with
  | nil => exact Nat.le_of_eq ht
  | cons s rest ih => exact ⟨Nat.le_of_eq ht.1, ih ht.2⟩

theorem InOrder.le (ho : InOrder lo hi xs) : lo ≤ hi := by
  induction xs generalizing lo with
  | nil => exact ho
  | cons s rest ih =>
    have hlo : lo ≤ s.start := ho.1
    have hstop : s.stop ≤ hi := ih ho.2
    unfold Span.stop at hstop
    omega

theorem InOrder.pairwise (ho : InOrder lo hi xs) :
    (∀ s ∈ xs, lo ≤ s.start ∧ s.stop ≤ hi) ∧ xs.Pairwise fun a b => a.stop ≤ b.start := by
  induction xs generalizing lo with
  | nil => exact ⟨fun _ hs => absurd hs List.not_mem_nil, List.Pairwise.nil⟩
  | cons s rest ih =>
    obtain ⟨hall, hpair⟩ := ih ho.2
    have hlo : lo ≤ s.start := ho.1
    have hstop : s.stop ≤ hi := InOrder.le ho.2
    refine ⟨fun b hb => ?_, List.pairwise_cons.mpr ⟨fun b hb => (hall b hb).1, hpair⟩⟩
    rcases List.mem_cons.mp hb with rfl | hb
    · exact ⟨hlo, hstop⟩
    · have hafter := (hall b hb).1
      unfold Span.stop at hafter
      exact ⟨by omega, (hall b hb).2⟩

/-- **Ranges that tile** contain every offset in between, and no other. -/
theorem Tiles.covers (ht : Tiles lo hi xs) (x : Nat) :
    (∃ s ∈ xs, s.start ≤ x ∧ x < s.stop) ↔ lo ≤ x ∧ x < hi := by
  induction xs generalizing lo with
  | nil =>
    have heq : lo = hi := ht
    constructor
    · rintro ⟨s, hs, -⟩
      cases hs
    · rintro ⟨hle, hlt⟩
      omega
  | cons s rest ih =>
    have hstart : lo = s.start := ht.1
    have hrest : Tiles s.stop hi rest := ht.2
    have hend : s.stop ≤ hi := hrest.inOrder.le
    have hsize : s.stop = s.start + s.size := rfl
    simp only [List.mem_cons, exists_eq_or_imp, ih hrest]
    omega

end Chain

/-! ### The direct slots in and below a block -/

variable {t : DoublingTable} {base rows : Nat}

/-- The offset of a slot from the start of its block: the block sizes of all slots before it. -/
def slotStart (t : DoublingTable) (slot : Nat) : Nat :=
  ((List.range slot).map fun i => (t.rowBlockSize (t.rowOf i)).getD 0).sum

/-- The ranges of all direct slots in and below an indirect block of `rows` rows at the offset
`base`. A slot that has no room for the table that it should hold has none. -/
def spans (t : DoublingTable) (base rows : Nat) : List Span :=
  (List.finRange (rows * t.width)).flatMap fun slot : Fin (rows * t.width) =>
    match hsize : t.blockSize slot with
    | .direct size => [⟨base + slotStart t slot, size⟩]
    | .indirect =>
      match hrows : t.childRows (t.rowOf slot) with
      | some k =>
        have : k < rows :=
          DoublingTable.childRows_lt hrows (DoublingTable.two_le_rowOf hsize) (rowOf_lt slot.isLt)
        spans t (base + slotStart t slot) k
      | none => []
termination_by rows

theorem mem_spans_iff {s : Span} :
    s ∈ spans t base rows ↔ ∃ slot, slot < rows * t.width ∧
      ((∃ size, t.blockSize slot = .direct size ∧ s = ⟨base + slotStart t slot, size⟩) ∨
        ∃ k, t.blockSize slot = .indirect ∧ t.childRows (t.rowOf slot) = some k ∧
          s ∈ spans t (base + slotStart t slot) k) := by
  rw [spans, List.mem_flatMap]
  constructor
  · rintro ⟨slot, -, hs⟩
    refine ⟨slot, slot.isLt, ?_⟩
    split at hs
    · rename_i size hsize
      exact .inl ⟨size, hsize, List.mem_singleton.mp hs⟩
    · rename_i hsize
      split at hs
      · rename_i k hrows
        exact .inr ⟨k, hsize, hrows, hs⟩
      · cases hs
  · rintro ⟨slot, hlt, hcase⟩
    refine ⟨⟨slot, hlt⟩, List.mem_finRange _, ?_⟩
    rcases hcase with ⟨size, hsize, rfl⟩ | ⟨k, hsize, hrows, hs⟩
    · split
      · rename_i size' hsize'
        rw [hsize, BlockSize.direct.injEq] at hsize'
        rw [hsize']
        exact List.mem_singleton.mpr rfl
      · rename_i hsize'
        rw [hsize] at hsize'
        cases hsize'
    · split
      · rename_i size' hsize'
        rw [hsize] at hsize'
        cases hsize'
      · split
        · rename_i k' hrows'
          rw [hrows, Option.some.injEq] at hrows'
          obtain rfl := hrows'
          exact hs
        · rename_i hrows'
          rw [hrows] at hrows'
          cases hrows'

/-! ### Sizes add up -/

theorem rowBlockSize_eq {slot : Nat} (hroom : rows ≤ t.maxRows) (hslot : slot < rows * t.width) :
    t.rowBlockSize (t.rowOf slot) = some (slotSize t slot) := by
  have hbits := rowBits_lt (rowOf_lt hslot) hroom
  unfold DoublingTable.rowBlockSize slotSize
  rw [if_pos hbits]

theorem slotStart_eq {slot : Nat} (hroom : rows ≤ t.maxRows) (hslot : slot ≤ rows * t.width) :
    slotStart t slot = slotOffset t slot := by
  induction slot with
  | zero => rfl
  | succ slot ih =>
    have hsum : slotStart t (slot + 1)
        = slotStart t slot + (t.rowBlockSize (t.rowOf slot)).getD 0 := by
      unfold slotStart
      rw [List.range_succ, List.map_append, List.sum_append, List.map_singleton,
        List.sum_singleton]
    rw [hsum, rowBlockSize_eq hroom hslot, ih (Nat.le_of_succ_le hslot)]
    rfl

theorem blockSize_row {slot : Nat} :
    t.blockSize (t.rowOf slot * t.width) = t.blockSize slot := by
  have hrow : t.rowOf (t.rowOf slot * t.width) = t.rowOf slot :=
    Nat.mul_div_cancel _ t.width_pos
  unfold DoublingTable.blockSize
  rw [hrow]

/-- **The spans below a block** lead from its start to its end, if there are no gaps in them that
the relation does not allow. -/
theorem chain_spans {r : Nat → Nat → Prop} (hrefl : ∀ a, r a a)
    (htrans : ∀ {a b c}, r a b → r b c → r a c) (hroom : rows ≤ t.maxRows)
    (hgap : ∀ row < rows, t.blockSize (row * t.width) = .indirect → t.childRows row = none →
      ∀ a n, r a (a + n)) :
    Chain r base (base + slotOffset t (rows * t.width)) (spans t base rows) := by
  -- by induction on the rows: tables below have fewer
  induction rows using Nat.strongRecOn generalizing base with
  | ind rows ih =>
    rw [spans]
    refine Chain.flatMap hrefl htrans (fun slot => base + slotOffset t slot) fun slot => ?_
    have hslot := slot.isLt
    have hrow := rowOf_lt hslot
    have hnext : slotOffset t (slot + 1) = slotOffset t slot + slotSize t slot := rfl
    have hstart := slotStart_eq hroom (Nat.le_of_lt hslot)
    rw [hnext, ← Nat.add_assoc]
    split
    · rename_i size hsize
      rw [← slotSize_of_direct hsize, hstart]
      exact ⟨hrefl _, hrefl _⟩
    · rename_i hsize
      split
      · rename_i k hrows
        have hless := DoublingTable.childRows_lt hrows (DoublingTable.two_le_rowOf hsize) hrow
        rw [← slotSize_of_indirect hsize hrows, hstart]
        refine ih k hless (by omega) fun row hlt => hgap row (by omega)
      · rename_i hrows
        exact hgap _ hrow (blockSize_row.trans hsize) hrows _ _

/-- A block spans as much as its first row, doubled for every row after that. -/
theorem slotOffset_end (hpos : 1 ≤ rows) :
    slotOffset t (rows * t.width) = t.width * t.startingSize * 2 ^ (rows - 1) := by
  obtain ⟨k, rfl⟩ : ∃ k, rows = k + 1 := ⟨rows - 1, by omega⟩
  have hexp : t.startBits + k + t.widthBits = t.widthBits + t.startBits + k := by omega
  rw [slotOffset_rows, hexp, Nat.pow_add, Nat.pow_add]
  rfl

theorem inOrder_spans (hroom : rows ≤ t.maxRows) :
    InOrder base (base + slotOffset t (rows * t.width)) (spans t base rows) :=
  chain_spans Nat.le_refl Nat.le_trans hroom fun _ _ _ _ => Nat.le_add_right

/-! ### Heaps -/

variable {image : Image} {h : Header} {u : Level}

/-- **A place in the table** is a span below the block. -/
theorem mem_spans_of_at {address offset child size : Nat} (hroom : rows ≤ h.table.maxRows)
    (hat : At image h base address rows offset child size) :
    ⟨offset, size⟩ ∈ spans h.table base rows := by
  induction hat with
  | @direct base address rows slot child size block hread hchild hsize =>
    have hlt : slot < block.children.length := (List.getElem?_eq_some_iff.mp hchild).1
    have hslot := Nat.lt_of_lt_of_le hlt (IndirectBlock.of_read_eq_ok hread).2.2
    refine mem_spans_iff.mpr ⟨slot, hslot, .inl ⟨size, hsize, ?_⟩⟩
    rw [slotStart_eq hroom (Nat.le_of_lt hslot)]
  | @indirect base address rows slot below k offset child size block hread hchild hsize hrows _
      ih =>
    have hlt : slot < block.children.length := (List.getElem?_eq_some_iff.mp hchild).1
    have hslot := Nat.lt_of_lt_of_le hlt (IndirectBlock.of_read_eq_ok hread).2.2
    have hless := DoublingTable.childRows_lt hrows (DoublingTable.two_le_rowOf hsize)
      (rowOf_lt hslot)
    have hbelow := ih (by omega)
    rw [← slotStart_eq hroom (Nat.le_of_lt hslot)] at hbelow
    exact mem_spans_iff.mpr ⟨slot, hslot, .inr ⟨k, hsize, hrows, hbelow⟩⟩

theorem disjoint_of_spans {index : BlockIndex} (hroom : rows ≤ t.maxRows)
    (hall : ∀ b ∈ index.blocks, ⟨b.offset, b.size⟩ ∈ spans t base rows) :
    index.blocks.Pairwise RangesDisjoint := by
  have hinorder : InOrder base _ (spans t base rows) := inOrder_spans hroom
  have hpair := hinorder.pairwise.2
  refine index.ascending.imp_of_mem fun {b c} hb hc hlt => ?_
  have hne : (⟨b.offset, b.size⟩ : Span) ≠ ⟨c.offset, c.size⟩ := by
    intro heq
    have := congrArg Span.start heq
    simp only at this
    omega
  -- of two different spans one comes first, whichever it is
  have hsymm : Std.Symm fun a b : Span => a.stop ≤ b.start ∨ b.stop ≤ a.start :=
    ⟨fun _ _ => Or.symm⟩
  have heither := hpair.imp fun {a b} hle => (.inl hle : a.stop ≤ b.start ∨ b.stop ≤ a.start)
  exact heither.forall (hall b hb) (hall c hc) hne

/-- A heap that is loaded has no more rows than there is room for. -/
theorem rootRows_le {root : Nat} {index : BlockIndex} (hroot : IndirectRoot h root)
    (hr : (directBlocks image h).result u = .ok index) : h.fields.rootRows ≤ h.table.maxRows := by
  by_contra hmore
  rw [directBlocks_of_tooManyRows hroot.address (by omega)] at hr
  cases hr

/-- **Blocks in place are spans** of the table at the root. -/
theorem mem_spans_of_inPlace {root : Nat} {index : BlockIndex} (hroot : IndirectRoot h root)
    (hr : (directBlocks image h).result u = .ok index) (hplace : InPlace image h index) :
    ∀ b ∈ index.blocks, ⟨b.offset, b.size⟩ ∈ spans h.table 0 h.fields.rootRows :=
  fun b hb => mem_spans_of_at (rootRows_le hroot hr) (hplace root hroot b hb)

/-- **Nested tables tile address space.** The sizes of all slots of a block that there is room for
are defined. If every indirect row has room for tables, the direct slots in and below the block
follow one another from its start to its end, without gaps and without overlap, so that each offset
in between is in one of them.

The direct blocks of a loaded heap that are at the offsets of their places are ranges of the table
at the root, so they do not overlap. -/
theorem nested_tables_tile :
    (∀ (t : DoublingTable) (base rows : Nat), 1 ≤ rows → rows ≤ t.maxRows →
      (∀ row < rows, t.blockSize (row * t.width) = .indirect → ∃ k, t.childRows row = some k) →
      (∀ slot < rows * t.width, ∃ size, t.rowBlockSize (t.rowOf slot) = some size) ∧
      Tiles base (base + t.width * t.startingSize * 2 ^ (rows - 1)) (spans t base rows) ∧
      ((spans t base rows).Pairwise fun a b => a.stop ≤ b.start) ∧
      ∀ x, (∃ s ∈ spans t base rows, s.start ≤ x ∧ x < s.stop) ↔
        base ≤ x ∧ x < base + t.width * t.startingSize * 2 ^ (rows - 1)) ∧
    ∀ (image : Image) (s : Superblock) (address : Nat) (options : Heap.Options) (u : Level)
      (heap : Heap), (Heap.load image s address options).result u = .ok heap →
      InPlace image heap.header heap.index →
      (∀ root, IndirectRoot heap.header root → ∀ b ∈ heap.blocks,
        ⟨b.offset, b.size⟩ ∈ spans heap.header.table 0 heap.header.fields.rootRows) ∧
      heap.blocks.Pairwise RangesDisjoint := by
  constructor
  · intro t base rows hpos hroom hrows
    have htiles : Tiles base (base + slotOffset t (rows * t.width)) (spans t base rows) := by
      refine chain_spans (fun _ => rfl) Eq.trans hroom fun row hrow hsize hnone => ?_
      obtain ⟨k, hk⟩ := hrows row hrow hsize
      rw [hk] at hnone
      cases hnone
    rw [slotOffset_end hpos] at htiles
    exact ⟨fun slot hslot => ⟨_, rowBlockSize_eq hroom hslot⟩, htiles,
      htiles.inOrder.pairwise.2, htiles.covers⟩
  · intro image s address options u heap hload hplace
    obtain ⟨-, -, hwalk⟩ := load_eq_ok_iff.mp hload
    refine ⟨fun root hroot => mem_spans_of_inPlace hroot hwalk hplace, ?_⟩
    by_cases hroot : ∃ root, IndirectRoot heap.header root
    · obtain ⟨root, hroot⟩ := hroot
      exact disjoint_of_spans (rootRows_le hroot hwalk) (mem_spans_of_inPlace hroot hwalk hplace)
    · -- a heap without an indirect root has no two blocks
      exact (separate_iff_disjoint heap.index.ascending).mp (separate_of_inPlace hwalk hplace)

/-- An image of a heap with a nested table. -/
def nested : Image := written (nestedTree.pieces (smallHeader 90 3))

theorem inPlace_nested {index : BlockIndex}
    (hblocks : index.blocks.map (fun b => (b.offset, b.address, b.size))
      = [(0, 41, 8), (8, 82, 8), (16, 74, 8), (24, 62, 8)]) :
    InPlace nested (smallHeader 90 3) index := by
  have hroot : IndirectBlock.read nested (smallHeader 90 3) 90 3 = .ok ⟨90, 0, 3, [41, 82, 49]⟩ :=
    eq_ok_of_toOption (by decide +kernel)
  have hbelow : IndirectBlock.read nested (smallHeader 90 3) 49 2 = .ok ⟨49, 16, 2, [74, 62]⟩ :=
    eq_ok_of_toOption (by decide +kernel)
  rintro root ⟨haddress, -⟩ b hb
  cases haddress
  have hfirst : At nested (smallHeader 90 3) 0 90 3
      (0 + slotOffset (smallHeader 90 3).table 0) 41 8 := .direct hroot rfl rfl
  have hsecond : At nested (smallHeader 90 3) 0 90 3
      (0 + slotOffset (smallHeader 90 3).table 1) 82 8 := .direct hroot rfl rfl
  have hthird : At nested (smallHeader 90 3) (0 + slotOffset (smallHeader 90 3).table 2) 49 2
      (16 + slotOffset (smallHeader 90 3).table 0) 74 8 := .direct hbelow rfl rfl
  have hfourth : At nested (smallHeader 90 3) (0 + slotOffset (smallHeader 90 3).table 2) 49 2
      (16 + slotOffset (smallHeader 90 3).table 1) 62 8 := .direct hbelow rfl rfl
  have hmem := List.mem_map_of_mem (f := fun b => (b.offset, b.address, b.size)) hb
  rw [hblocks] at hmem
  simp only [List.mem_cons, Prod.mk.injEq, List.not_mem_nil, or_false] at hmem
  rcases hmem with ⟨ho, ha, hs⟩ | ⟨ho, ha, hs⟩ | ⟨ho, ha, hs⟩ | ⟨ho, ha, hs⟩ <;> rw [ho, ha, hs]
  · exact hfirst
  · exact hsecond
  · exact .indirect hroot rfl rfl rfl hthird
  · exact .indirect hroot rfl rfl rfl hfourth

/-- The four blocks of a heap with a nested table fill its first 32 bytes. -/
theorem nested_tiled :
    Tiles 0 32 (spans (smallHeader 90 3).table 0 3) ∧
      ∃ heap, (Heap.load nested narrow 0 {}).result .trace = .ok heap ∧
        InPlace nested heap.header heap.index ∧
        heap.blocks.map (fun b => (b.offset, b.address, b.size))
          = [(0, 41, 8), (8, 82, 8), (16, 74, 8), (24, 62, 8)] ∧
        (∀ b ∈ heap.blocks, ⟨b.offset, b.size⟩ ∈ spans heap.header.table 0 3) ∧
        heap.blocks.Pairwise RangesDisjoint := by
  obtain ⟨htables, hheaps⟩ := nested_tables_tile
  have hrows : ∀ row < 3, (smallHeader 90 3).table.blockSize (row * (smallHeader 90 3).table.width)
      = .indirect → ∃ k, (smallHeader 90 3).table.childRows row = some k := by
    intro row hrow hsize
    match row, hrow with
    | 0, _ => cases hsize
    | 1, _ => cases hsize
    | 2, _ => exact ⟨2, rfl⟩
  obtain ⟨-, htiles, -, -⟩ := htables (smallHeader 90 3).table 0 3 (by decide) (by decide) hrows
  have hread : (Header.read nested narrow 0).result .trace = .ok (smallHeader 90 3) :=
    eq_ok_of_toOption (by decide +kernel)
  have hfound : (((directBlocks nested (smallHeader 90 3)).result .trace).toOption.map fun index =>
      index.blocks.map fun b => (b.offset, b.address, b.size))
        = some [(0, 41, 8), (8, 82, 8), (16, 74, 8), (24, 62, 8)] := by decide +kernel
  obtain ⟨index, hwalk, hblocks⟩ := Option.map_eq_some_iff.mp hfound
  have hplace := inPlace_nested hblocks
  have hload : (Heap.load nested narrow 0 {}).result .trace = .ok ⟨smallHeader 90 3, {}, index⟩ :=
    load_eq_ok_iff.mpr ⟨hread, rfl, eq_ok_of_toOption hwalk⟩
  obtain ⟨hmem, hdisjoint⟩ := hheaps _ _ _ _ _ _ hload hplace
  exact ⟨htiles, _, hload, hplace, hblocks, hmem 90 ⟨rfl, Nat.zero_lt_succ 2⟩, hdisjoint⟩

end DoublingHeap.Proofs.Spans
