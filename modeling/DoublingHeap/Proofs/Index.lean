import DoublingHeap.BlockIndex

/-! # Sets of blocks and their index

Blocks are *distinct* if no two start at one heap offset. An index holds distinct blocks in the
order of their offsets, so it is determined by the set of its blocks (`index_eq_of_perm`), and every
set of distinct blocks has one (`exists_index`). Insertion adds one block to the set, if its offset
is free (`insert_eq_ok_iff_perm`).

`floor?_eq_some_iff` says what the search for an offset finds: the block that starts last among
those that start at or below it. If no two blocks overlap, that is the block that the offset lies in
(`isFloor_of_separate`). -/

namespace DoublingHeap.Proofs.Index

open DoublingHeap.BlockIndex

/-- No two blocks start at one heap offset. -/
def Distinct (blocks : List DirectBlock) : Prop := (blocks.map (·.offset)).Nodup

theorem distinct_iff_pairwise {blocks : List DirectBlock} :
    Distinct blocks ↔ blocks.Pairwise fun a b => a.offset ≠ b.offset :=
  List.pairwise_map

theorem distinct_of_perm {xs ys : List DirectBlock} (hp : xs.Perm ys) :
    Distinct xs ↔ Distinct ys :=
  (hp.map _).nodup_iff

theorem Distinct.of_append_left {xs ys : List DirectBlock} (hd : Distinct (xs ++ ys)) :
    Distinct xs := by
  unfold Distinct at hd ⊢
  rw [List.map_append] at hd
  exact (List.nodup_append.mp hd).1

theorem distinct_cons_iff {b : DirectBlock} {blocks : List DirectBlock} :
    Distinct (b :: blocks) ↔ (∀ c ∈ blocks, c.offset ≠ b.offset) ∧ Distinct blocks := by
  unfold Distinct
  rw [List.map_cons, List.nodup_cons, List.mem_map]
  constructor
  · rintro ⟨hb, hd⟩
    exact ⟨fun c hc he => hb ⟨c, hc, he⟩, hd⟩
  · rintro ⟨hb, hd⟩
    exact ⟨fun ⟨c, hc, he⟩ => hb c hc he, hd⟩

theorem Distinct.of_ascending {blocks : List DirectBlock} (ha : Ascending blocks) :
    Distinct blocks :=
  distinct_iff_pairwise.mpr (ha.imp Nat.ne_of_lt)

/-! ### The index of a set of blocks -/

theorem eq_of_ascending {xs ys : List DirectBlock} (hx : Ascending xs) (hy : Ascending ys)
    (hp : xs.Perm ys) : xs = ys :=
  List.Perm.eq_of_pairwise
    (fun _ _ _ _ hab hba => absurd hba (Nat.lt_asymm hab)) hx hy hp

theorem index_eq_of_perm {i j : BlockIndex} (hp : i.blocks.Perm j.blocks) : i = j := by
  have heq := eq_of_ascending i.ascending j.ascending hp
  cases i
  cases j
  cases heq
  rfl

theorem perm_place (b : DirectBlock) (blocks : List DirectBlock) :
    (place b blocks).Perm (b :: blocks) := by
  induction blocks with
  | nil => exact List.Perm.refl _
  | cons c cs ih =>
    unfold place
    split
    · exact List.Perm.refl _
    · exact (ih.cons c).trans (List.Perm.swap b c cs)

/-- **Insertion adds one block**, if no block starts at its offset. -/
theorem insert_eq_ok_iff_perm {index next : BlockIndex} {b : DirectBlock} :
    index.insert b = .ok next ↔
      (∀ c ∈ index.blocks, c.offset ≠ b.offset) ∧ next.blocks.Perm (b :: index.blocks) := by
  rw [insert_eq_ok_iff, holder?_eq_none_iff]
  constructor
  · rintro ⟨hfree, heq⟩
    rw [heq]
    exact ⟨hfree, perm_place b index.blocks⟩
  · rintro ⟨hfree, hp⟩
    refine ⟨hfree, eq_of_ascending next.ascending (ascending_place index.ascending hfree) ?_⟩
    exact hp.trans (perm_place b index.blocks).symm

theorem insert_eq_error_iff {index : BlockIndex} {b holder : DirectBlock} :
    index.insert b = .error holder ↔ index.holder? b.offset = some holder := by
  unfold BlockIndex.insert
  split <;> rename_i h
  · rw [h, Except.error.injEq, Option.some.injEq]
  · constructor
    · intro he
      cases he
    · intro he
      rw [h] at he
      cases he

theorem exists_index {blocks : List DirectBlock} (hd : Distinct blocks) :
    ∃ index : BlockIndex, index.blocks.Perm blocks := by
  induction blocks with
  | nil => exact ⟨.empty, List.Perm.refl _⟩
  | cons b cs ih =>
    obtain ⟨hb, hcs⟩ := distinct_cons_iff.mp hd
    obtain ⟨index, hp⟩ := ih hcs
    have hfree : ∀ c ∈ index.blocks, c.offset ≠ b.offset := fun c hc => hb c (hp.mem_iff.mp hc)
    exact ⟨⟨place b index.blocks, ascending_place index.ascending hfree⟩,
      (perm_place b index.blocks).trans (hp.cons b)⟩

/-! ### The floor of an offset -/

/-- The block `b` starts last among the blocks that start at or below an offset. -/
structure IsFloor (blocks : List DirectBlock) (offset : Nat) (b : DirectBlock) : Prop where
  mem : b ∈ blocks
  le : b.offset ≤ offset
  greatest : ∀ c ∈ blocks, c.offset ≤ offset → c.offset ≤ b.offset

theorem eq_of_offset_eq {blocks : List DirectBlock} (ha : Ascending blocks) {b c : DirectBlock}
    (hb : b ∈ blocks) (hc : c ∈ blocks) (he : b.offset = c.offset) : b = c := by
  induction blocks with
  | nil => cases hb
  | cons d ds ih =>
    obtain ⟨hd, hds⟩ := List.pairwise_cons.mp ha
    rcases List.mem_cons.mp hb with rfl | hb' <;> rcases List.mem_cons.mp hc with rfl | hc'
    · rfl
    · have := hd c hc'
      omega
    · have := hd b hb'
      omega
    · exact ih hds hb' hc'

theorem IsFloor.unique {blocks : List DirectBlock} (ha : Ascending blocks) {offset : Nat}
    {b c : DirectBlock} (hb : IsFloor blocks offset b) (hc : IsFloor blocks offset c) : b = c :=
  eq_of_offset_eq ha hb.mem hc.mem
    (Nat.le_antisymm (hc.greatest b hb.mem hb.le) (hb.greatest c hc.mem hc.le))

/-- Every block ends before the next one begins. -/
def Separate (blocks : List DirectBlock) : Prop :=
  blocks.Pairwise fun b c => b.offset + b.size ≤ c.offset

/-- **Among separate blocks** the floor of an offset inside a block is that block. -/
theorem isFloor_of_separate {blocks : List DirectBlock} (hs : Separate blocks) {offset : Nat}
    {b : DirectBlock} (hb : b ∈ blocks) (hle : b.offset ≤ offset)
    (hlt : offset < b.offset + b.size) : IsFloor blocks offset b := by
  refine ⟨hb, hle, fun c hc hco => ?_⟩
  induction blocks with
  | nil => cases hb
  | cons d ds ih =>
    obtain ⟨hd, hds⟩ := List.pairwise_cons.mp hs
    rcases List.mem_cons.mp hb with rfl | hb' <;> rcases List.mem_cons.mp hc with rfl | hc'
    · exact Nat.le_refl _
    · have := hd c hc'
      omega
    · have := hd b hb'
      omega
    · exact ih hds hb' hc'

theorem mem_takeWhile_iff {blocks : List DirectBlock} (ha : Ascending blocks) {offset : Nat}
    {b : DirectBlock} :
    b ∈ blocks.takeWhile (fun c => c.offset ≤ offset) ↔ b ∈ blocks ∧ b.offset ≤ offset := by
  induction blocks with
  | nil => simp
  | cons d ds ih =>
    obtain ⟨hd, hds⟩ := List.pairwise_cons.mp ha
    by_cases hle : d.offset ≤ offset
    · rw [List.takeWhile_cons_of_pos (by simpa using hle), List.mem_cons, List.mem_cons, ih hds]
      constructor
      · rintro (rfl | ⟨hm, hb⟩)
        · exact ⟨.inl rfl, hle⟩
        · exact ⟨.inr hm, hb⟩
      · rintro ⟨rfl | hm, hb⟩
        · exact .inl rfl
        · exact .inr ⟨hm, hb⟩
    · rw [List.takeWhile_cons_of_neg (by simpa using hle)]
      constructor
      · intro hm
        cases hm
      · rintro ⟨hm, hb⟩
        rcases List.mem_cons.mp hm with rfl | hm
        · exact absurd hb hle
        · have := hd b hm
          omega

theorem getLast?_eq_some_iff {blocks : List DirectBlock} (ha : Ascending blocks)
    {b : DirectBlock} :
    blocks.getLast? = some b ↔ b ∈ blocks ∧ ∀ c ∈ blocks, c.offset ≤ b.offset := by
  induction blocks generalizing b with
  | nil => simp
  | cons d ds ih =>
    obtain ⟨hd, hds⟩ := List.pairwise_cons.mp ha
    cases hl : ds.getLast? with
    | none =>
      rw [List.getLast?_eq_none_iff] at hl
      subst hl
      rw [List.getLast?_singleton, Option.some.injEq, List.mem_singleton]
      constructor
      · rintro rfl
        exact ⟨rfl, fun c hc => Nat.le_of_eq (congrArg _ (List.mem_singleton.mp hc))⟩
      · rintro ⟨rfl, -⟩
        rfl
    | some e =>
      have he := (ih hds).mp hl
      rw [List.getLast?_cons, hl, Option.getD_some, Option.some.injEq]
      constructor
      · rintro rfl
        refine ⟨List.mem_cons_of_mem _ he.1, fun c hc => ?_⟩
        rcases List.mem_cons.mp hc with rfl | hc
        · exact Nat.le_of_lt (hd e he.1)
        · exact he.2 c hc
      · rintro ⟨hb, hmax⟩
        have hle := hmax e (List.mem_cons_of_mem _ he.1)
        have hde := hd e he.1
        rcases List.mem_cons.mp hb with rfl | hb
        · omega
        · exact eq_of_offset_eq hds he.1 hb (Nat.le_antisymm hle (he.2 b hb))

/-- **The search for an offset** finds its floor. -/
theorem floor?_eq_some_iff {index : BlockIndex} {offset : Nat} {b : DirectBlock} :
    index.floor? offset = some b ↔ IsFloor index.blocks offset b := by
  have ha : Ascending (index.blocks.takeWhile fun c => c.offset ≤ offset) :=
    index.ascending.sublist (List.takeWhile_sublist _)
  unfold floor?
  rw [getLast?_eq_some_iff ha]
  simp only [mem_takeWhile_iff index.ascending]
  constructor
  · rintro ⟨⟨hm, hle⟩, hmax⟩
    exact ⟨hm, hle, fun c hc hco => hmax c ⟨hc, hco⟩⟩
  · rintro ⟨hm, hle, hmax⟩
    exact ⟨⟨hm, hle⟩, fun c hc => hmax c hc.1 hc.2⟩

end DoublingHeap.Proofs.Index
