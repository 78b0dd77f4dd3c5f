import DoublingHeap.DirectBlock

/-! # The index of direct blocks

A `BlockIndex` holds direct blocks in the order of their heap offsets, no two at one offset.
`insert` adds a block or names the block that holds its offset already, and `floor?` finds the last
block that starts at or below an offset. -/

namespace DoublingHeap

/-- Blocks that start at strictly increasing heap offsets. -/
def Ascending (blocks : List DirectBlock) : Prop :=
  blocks.Pairwise fun a b => a.offset < b.offset

/-- Direct blocks by heap offset. -/
structure BlockIndex where
  blocks : List DirectBlock
  ascending : Ascending blocks

namespace BlockIndex

/-- The index without blocks. -/
def empty : BlockIndex := ⟨[], List.Pairwise.nil⟩

instance : Inhabited BlockIndex := ⟨empty⟩

/-- The number of blocks. -/
def size (index : BlockIndex) : Nat := index.blocks.length

/-- The block that starts at an offset. -/
def holder? (index : BlockIndex) (offset : Nat) : Option DirectBlock :=
  index.blocks.find? (·.offset == offset)

/-- The blocks with one more, before the first that starts at a greater offset. -/
def place (b : DirectBlock) : List DirectBlock → List DirectBlock
  | [] => [b]
  | c :: cs => if b.offset < c.offset then b :: c :: cs else c :: place b cs

theorem mem_place {b x : DirectBlock} {blocks : List DirectBlock} :
    x ∈ place b blocks ↔ x = b ∨ x ∈ blocks := by
  induction blocks with
  | nil => simp [place]
  | cons c cs ih =>
    unfold place
    split
    · simp
    · simp only [List.mem_cons, ih]
      constructor
      · rintro (h | h | h)
        · exact .inr (.inl h)
        · exact .inl h
        · exact .inr (.inr h)
      · rintro (h | h | h)
        · exact .inr (.inl h)
        · exact .inl h
        · exact .inr (.inr h)

theorem ascending_place {b : DirectBlock} {blocks : List DirectBlock} (h : Ascending blocks)
    (hb : ∀ c ∈ blocks, c.offset ≠ b.offset) : Ascending (place b blocks) := by
  induction blocks with
  | nil => exact List.pairwise_singleton ..
  | cons c cs ih =>
    have hc := List.pairwise_cons.mp h
    unfold place
    split
    · rename_i hlt
      refine List.pairwise_cons.mpr ⟨fun x hx => ?_, h⟩
      rcases List.mem_cons.mp hx with rfl | hx
      · exact hlt
      · exact Nat.lt_trans hlt (hc.1 x hx)
    · rename_i hge
      have hne := hb c (List.mem_cons_self ..)
      refine List.pairwise_cons.mpr ⟨fun x hx => ?_, ih hc.2 fun x hx =>
        hb x (List.mem_cons_of_mem _ hx)⟩
      rcases mem_place.mp hx with rfl | hx
      · omega
      · exact hc.1 x hx

theorem holder?_eq_none_iff {index : BlockIndex} {offset : Nat} :
    index.holder? offset = none ↔ ∀ c ∈ index.blocks, c.offset ≠ offset := by
  simp [holder?, List.find?_eq_none]

/-- The index with one more block; if a block starts at its offset already, that block. -/
def insert (index : BlockIndex) (b : DirectBlock) : Except DirectBlock BlockIndex :=
  match h : index.holder? b.offset with
  | some holder => .error holder
  | none => .ok ⟨place b index.blocks, ascending_place index.ascending (holder?_eq_none_iff.mp h)⟩

/-- The index of one block. -/
def singleton (b : DirectBlock) : BlockIndex := ⟨[b], List.pairwise_singleton ..⟩

/-- The last block that starts at or below an offset. -/
def floor? (index : BlockIndex) (offset : Nat) : Option DirectBlock :=
  (index.blocks.takeWhile fun b => b.offset ≤ offset).getLast?

theorem insert_eq_ok_iff {index next : BlockIndex} {b : DirectBlock} :
    index.insert b = .ok next ↔
      index.holder? b.offset = none ∧ next.blocks = place b index.blocks := by
  cases next
  unfold insert
  split <;> rename_i h
  · simp [h]
  · simp [h, eq_comm]

end BlockIndex

end DoublingHeap
