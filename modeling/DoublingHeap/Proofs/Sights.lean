import DoublingHeap.Proofs.Index
import DoublingHeap.Heap

/-! # What can be seen of blocks

A direct block views an image. What can be seen of it, its `sight`, does not tell which image that
is, so blocks of different images can be compared. Nothing in a heap depends on more: blocks that
look alike have the same objects (`slice_eq_of_sight`), and heaps that look alike resolve every
identifier alike (`resolve_eq_of_sights`).

The index looks at offsets only. So whatever is seen of blocks, if it shows their offsets, then
blocks that look alike are put in the same places (`insert_view`) and are found for the same offsets
(`floor?_view`). -/

namespace DoublingHeap.Proofs.Sights

open DoublingHeap.Proofs.Index

/-! ### Views that show the offset -/

section View

variable {σ : Type} {view : DirectBlock → σ} (offset : σ → Nat)
  (hoffset : ∀ b, offset (view b) = b.offset) {b b' : DirectBlock} {index index' : BlockIndex}
include hoffset

theorem offset_eq_of_view (hb : view b = view b') : b.offset = b'.offset := by
  rw [← hoffset b, hb, hoffset]

/-- **Insertion sees no more** than the view: it puts the block in the same place. -/
theorem place_view (hb : view b = view b') :
    ∀ {blocks blocks' : List DirectBlock}, blocks.map view = blocks'.map view →
      (BlockIndex.place b blocks).map view = (BlockIndex.place b' blocks').map view
  | [], [], _ => by simp [BlockIndex.place, hb]
  | c :: cs, c' :: cs', hs => by
    rw [List.map_cons, List.map_cons, List.cons.injEq] at hs
    unfold BlockIndex.place
    rw [offset_eq_of_view offset hoffset hb, offset_eq_of_view offset hoffset hs.1]
    split
    · simp only [List.map_cons, hb, hs.1, hs.2]
    · simp only [List.map_cons, hs.1, place_view hb hs.2]

theorem holder?_view (hi : index.blocks.map view = index'.blocks.map view) (o : Nat) :
    (index.holder? o).map view = (index'.holder? o).map view := by
  have hfind : ∀ i : BlockIndex,
      (i.holder? o).map view = (i.blocks.map view).find? fun v => offset v == o := by
    intro i
    rw [List.find?_map]
    unfold BlockIndex.holder?
    congr 2
    funext c
    rw [Function.comp_apply, hoffset]
  rw [hfind, hfind, hi]

theorem floor?_view (hi : index.blocks.map view = index'.blocks.map view) (o : Nat) :
    (index.floor? o).map view = (index'.floor? o).map view := by
  have htake : ∀ i : BlockIndex, (i.floor? o).map view
      = ((i.blocks.map view).takeWhile fun v => offset v ≤ o).getLast? := by
    intro i
    rw [List.takeWhile_map, List.getLast?_map]
    unfold BlockIndex.floor?
    congr 3
    funext c
    rw [Function.comp_apply, hoffset]
  rw [htake, htake, hi]

theorem insert_view (hb : view b = view b') (hi : index.blocks.map view = index'.blocks.map view)
    {next : BlockIndex} (hins : index.insert b = .ok next) :
    ∃ next', index'.insert b' = .ok next' ∧ next.blocks.map view = next'.blocks.map view := by
  obtain ⟨hnone, hplace⟩ := BlockIndex.insert_eq_ok_iff.mp hins
  have hfind := holder?_view offset hoffset hi b.offset
  rw [hnone, Option.map_none, eq_comm, Option.map_eq_none_iff,
    offset_eq_of_view offset hoffset hb] at hfind
  have hascending : Ascending (BlockIndex.place b' index'.blocks) :=
    BlockIndex.ascending_place index'.ascending (BlockIndex.holder?_eq_none_iff.mp hfind)
  refine ⟨⟨_, hascending⟩, BlockIndex.insert_eq_ok_iff.mpr ⟨hfind, rfl⟩, ?_⟩
  rw [hplace]
  exact place_view offset hoffset hb hi

theorem refused_view (hb : view b = view b') (hi : index.blocks.map view = index'.blocks.map view)
    {holder : DirectBlock} (hins : index.insert b = .error holder) :
    ∃ holder', index'.insert b' = .error holder' ∧ view holder = view holder' := by
  have hfind := holder?_view offset hoffset hi b.offset
  rw [insert_eq_error_iff.mp hins, Option.map_some, eq_comm, Option.map_eq_some_iff,
    offset_eq_of_view offset hoffset hb] at hfind
  obtain ⟨holder', hsome, hview⟩ := hfind
  exact ⟨holder', insert_eq_error_iff.mpr hsome, hview.symm⟩

end View

/-! ### Sights -/

/-- What can be seen of a direct block, whatever image it views. -/
structure Sight where
  address : Nat
  offset : Nat
  headerLength : Nat
  bytes : List UInt8
deriving DecidableEq, Repr

/-- What can be seen of a block. -/
def sight (b : DirectBlock) : Sight := ⟨b.address, b.offset, b.headerLength, b.data.toList⟩

/-- What can be seen of an index. -/
def sights (index : BlockIndex) : List Sight := index.blocks.map sight

theorem size_eq_of_sight {b b' : DirectBlock} (hs : sight b = sight b') : b.size = b'.size := by
  have hbytes : b.data.toList = b'.data.toList := congrArg Sight.bytes hs
  unfold DirectBlock.size
  rw [← Image.Region.length_toList, hbytes, Image.Region.length_toList]

theorem slice_eq_of_sight {b b' : DirectBlock} (hs : sight b = sight b') (offset length : Nat) :
    b.slice offset length = b'.slice offset length := by
  have hoffset : b.offset = b'.offset := congrArg Sight.offset hs
  have hbytes : b.data.toList = b'.data.toList := congrArg Sight.bytes hs
  refine Option.ext fun bytes => ?_
  rw [DirectBlock.slice_eq_some_iff, DirectBlock.slice_eq_some_iff, DirectBlock.contains_iff,
    DirectBlock.contains_iff, hoffset, hbytes, size_eq_of_sight hs]

theorem floor?_sights {index index' : BlockIndex} (hs : sights index = sights index')
    (offset : Nat) : (index.floor? offset).map sight = (index'.floor? offset).map sight :=
  floor?_view Sight.offset (fun _ => rfl) hs offset

/-! ### Heaps that look alike -/

/-- Two heaps have the same header and options, and look alike in their blocks. -/
structure SameHeap (heap heap' : Heap) : Prop where
  header : heap.header = heap'.header
  options : heap.options = heap'.options
  index : sights heap.index = sights heap'.index

/-- **Heaps that look alike** resolve every identifier alike. -/
theorem resolve_eq_of_sights {heap heap' : Heap} (hs : SameHeap heap heap') (id : List UInt8) :
    heap.resolve id = heap'.resolve id := by
  have hobject : ∀ offset length,
      heap.managedObject offset length = heap'.managedObject offset length := by
    intro offset length
    have hfloor := floor?_sights hs.index offset
    unfold Heap.managedObject Heap.floorBlock? Heap.address
    rw [hs.header]
    cases hb : heap.index.floor? offset with
    | none =>
      rw [hb, Option.map_none, eq_comm, Option.map_eq_none_iff] at hfloor
      rw [hfloor]
    | some b =>
      rw [hb, Option.map_some, eq_comm, Option.map_eq_some_iff] at hfloor
      obtain ⟨b', hb', hsight⟩ := hfloor
      have hoffset : b'.offset = b.offset := congrArg Sight.offset hsight
      simp only [hb', slice_eq_of_sight hsight, size_eq_of_sight hsight, hoffset]
  unfold Heap.resolve Heap.layout Heap.address
  simp only [hs.header, hs.options, hobject]

end DoublingHeap.Proofs.Sights
