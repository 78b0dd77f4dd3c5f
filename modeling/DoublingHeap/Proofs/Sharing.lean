import Mathlib.Data.List.Nodup
import DoublingHeap.Proofs.Termination

/-! # No block is counted twice

Nothing compares the addresses of blocks with each other, and yet no block gets into an index twice:
the heap offset of a direct block stands in the block (`offset_eq_of_read`), and no two blocks in an
index have one offset. At every point of a walk the index holds the direct children that have been
taken in (`indexed_perm_taken`), so these are distinct (`nodup_taken`).

This covers indirect blocks as well. The first slot of a table is direct, so whoever comes to an
indirect block with children for a second time takes in its first child again, and fails
(`visit_of_visited`). Only an indirect block without children can be visited more than once. -/

namespace DoublingHeap.Proofs.Sharing

open DoublingHeap.Walk DoublingHeap.Bytes.LittleEndian
open DoublingHeap.Proofs.Blocks DoublingHeap.Proofs.Index DoublingHeap.Proofs.Visits
open DoublingHeap.Proofs.Headers DoublingHeap.Proofs.Children DoublingHeap.Proofs.Descent
open DoublingHeap.Proofs.Faults DoublingHeap.Proofs.Steps DoublingHeap.Proofs.Termination

attribute [local instance (high)] instPowNat

variable {image : Image} {h : Header} {t : Level} {root : Nat}

/-! ### The offset of a block -/

/-- **The offset of a direct block follows from its address**: it stands there. -/
theorem offset_eq_of_read {b c : DirectBlock} (hb : Read image h t b) (hc : Read image h t c)
    (haddress : b.address = c.address) : b.offset = c.offset := by
  obtain ⟨_, hb⟩ := hb
  obtain ⟨_, hc⟩ := hc
  obtain ⟨-, hbfits, hbheld, -⟩ := readDirect_iff.mp hb
  obtain ⟨-, hcfits, hcheld, -⟩ := readDirect_iff.mp hc
  rw [haddress] at hbheld
  have heading : BlockHeading.encode h .direct b.offset
      = BlockHeading.encode h .direct c.offset := by
    rw [← hbheld.2, ← hcheld.2, BlockHeading.length_encode, BlockHeading.length_encode]
  exact encode_inj hbfits.offset hcfits.offset (List.append_cancel_left heading)

theorem nodup_addresses {index : BlockIndex} (hread : ∀ b ∈ index.blocks, Read image h t b) :
    (index.blocks.map (·.address)).Nodup := by
  refine List.pairwise_map.mpr (index.ascending.imp_of_mem fun {b c} hb hc hlt haddress => ?_)
  rw [offset_eq_of_read (hread b hb) (hread c hc) haddress] at hlt
  exact absurd hlt (Nat.lt_irrefl _)

/-! ### The direct children that have been taken in -/

/-- The children in direct slots, of those in the slots from `slot` on. -/
def directChildren (table : DoublingTable) : Nat → List Nat → List Nat
  | _, [] => []
  | slot, child :: rest =>
    match table.blockSize slot with
    | .direct _ => child :: directChildren table (slot + 1) rest
    | .indirect => directChildren table (slot + 1) rest

theorem directChildren_append {table : DoublingTable} (slot : Nat) (xs ys : List Nat) :
    directChildren table slot (xs ++ ys)
      = directChildren table slot xs ++ directChildren table (slot + xs.length) ys := by
  induction xs generalizing slot with
  | nil => rfl
  | cons x xs ih =>
    rw [List.cons_append, List.length_cons, Nat.add_comm xs.length, ← Nat.add_assoc]
    cases hsize : table.blockSize slot with
    | direct _ => simp only [directChildren, hsize, ih, List.cons_append]
    | indirect => simp only [directChildren, hsize, ih]

/-- The first slot is direct, so the first child is among the direct ones. -/
theorem first_mem_directChildren {table : DoublingTable} {child : Nat} {children : List Nat}
    (hfirst : children[0]? = some child) : child ∈ directChildren table 0 children := by
  cases children with
  | nil => cases hfirst
  | cons c rest =>
    cases hfirst
    unfold directChildren
    cases hsize : table.blockSize 0 with
    | direct _ => exact List.mem_cons_self ..
    | indirect =>
      have htwo := DoublingTable.two_le_rowOf hsize
      unfold DoublingTable.rowOf at htwo
      rw [Nat.zero_div] at htwo
      omega

/-- The direct children in a list of blocks. -/
def directChildrenOf (h : Header) (blocks : List IndirectBlock) : List Nat :=
  blocks.flatMap fun b => directChildren h.table 0 b.children

/-- The direct children that have been taken in on the way to a point. -/
def taken (h : Header) : Point → List Nat
  | .between visited _ => directChildrenOf h visited
  | .inside visited block slot _ =>
    directChildren h.table 0 (block.children.take slot) ++ directChildrenOf h visited

theorem taken_succ {block : IndirectBlock} {slot child : Nat}
    (hchild : block.children[slot]? = some child) :
    directChildren h.table 0 (block.children.take (slot + 1))
      = directChildren h.table 0 (block.children.take slot)
        ++ directChildren h.table slot [child] := by
  obtain ⟨hlt, rfl⟩ := List.getElem?_eq_some_iff.mp hchild
  rw [← List.take_append_getElem hlt, directChildren_append, List.length_take,
    Nat.min_eq_left (Nat.le_of_lt hlt), Nat.zero_add]

/-- **The index holds what has been taken in.** -/
theorem indexed_perm_taken {p : Point} (hp : Reached image h t root p) :
    (p.walk.index.blocks.map (·.address)).Perm (taken h p) := by
  induction hp with
  | start => exact List.Perm.refl _
  | step _ hs ih =>
    cases hs with
    | visit _ => exact ih
    | @direct visited block slot child size w b index hchild hsize hread hfree =>
      have haddress : b.address = child := by
        obtain ⟨-, -, -, _, heq⟩ := readDirect_iff.mp hread
        rw [heq]
      have hone : directChildren h.table slot [child] = [child] := by
        simp only [directChildren, hsize]
      have hperm := (insert_eq_ok_iff_perm.mp hfree).2.map (·.address)
      rw [List.map_cons, haddress] at hperm
      simp only [Point.walk, taken] at ih ⊢
      rw [taken_succ hchild, hone, List.append_assoc]
      exact (hperm.trans (ih.cons child)).trans List.perm_middle.symm
    | @indirect visited block slot child rows w hchild hsize hrows =>
      have hnone : directChildren h.table slot [child] = [] := by
        simp only [directChildren, hsize]
      simp only [Point.walk, taken] at ih ⊢
      rw [taken_succ hchild, hnone, List.append_nil]
      exact ih
    | leave hend =>
      simp only [Point.walk, taken] at ih ⊢
      rw [List.take_of_length_le (List.getElem?_eq_none_iff.mp hend)] at ih
      exact ih

theorem indexed_of_reached {p : Point} (hp : Reached image h t root p) :
    ∀ b ∈ p.walk.index.blocks, Read image h t b := by
  induction hp with
  | start => exact fun b hb => absurd hb List.not_mem_nil
  | step _ hs ih =>
    cases hs with
    | visit _ => exact ih
    | direct _ _ hread hfree =>
      intro b hb
      rcases List.mem_cons.mp ((insert_eq_ok_iff_perm.mp hfree).2.mem_iff.mp hb) with rfl | hb
      · exact read_of_result hread
      · exact ih b hb
    | indirect _ _ _ => exact ih
    | leave _ => exact ih

/-- **No direct child is taken in twice.** -/
theorem nodup_taken {p : Point} (hp : Reached image h t root p) :
    (taken h p).Nodup :=
  (indexed_perm_taken hp).nodup_iff.mp (nodup_addresses (indexed_of_reached hp))

/-! ### Indirect blocks -/

/-- Two readings of one block have a direct child in common, if one of them has any child. -/
theorem common_child {address rows rows' : Nat} {b c : IndirectBlock}
    (hb : IndirectBlock.read image h address rows = .ok b)
    (hc : IndirectBlock.read image h address rows' = .ok c) (hne : b.children ≠ [])
    (hrows : 0 < rows') : ∃ child, child ∈ directChildren h.table 0 b.children ∧
      child ∈ directChildren h.table 0 c.children := by
  obtain ⟨child, rest, hchildren⟩ := List.exists_cons_of_ne_nil hne
  have hfirst : b.children[0]? = some child := by rw [hchildren, List.getElem?_cons_zero]
  have hfirst' := firstChild_of_read hb hc hfirst hrows
  exact ⟨child, first_mem_directChildren hfirst, first_mem_directChildren hfirst'⟩

/-- **Blocks with children are visited once.** -/
theorem nodup_visited (hroot : IndirectRoot h root) {visited : List IndirectBlock} {w : Walk}
    (hp : Reached image h t root (.between visited w)) :
    ((visited.filter (·.children ≠ [])).map (·.address)).Nodup := by
  have hnodup := nodup_taken hp
  simp only [taken, directChildrenOf, List.nodup_flatMap] at hnodup
  refine List.pairwise_map.mpr (List.pairwise_filter.mpr ?_)
  refine hnodup.2.imp_of_mem fun {b c} hb hc hdisjoint hne _ haddress => ?_
  have hread := hp.read b hb
  rw [haddress] at hread
  have hrows : 0 < c.rows := by
    rcases bounded_of_reached hroot hp with horigin | hbounded
    · cases horigin
      cases hc
    · exact (hbounded.blocks c hc).1
  obtain ⟨child, hin, hin'⟩ := common_child hread (hp.read c hc) (by simpa using hne) hrows
  exact hdisjoint hin hin'

theorem addresses_of_splits {slot : Nat} {children : List Nat} {blocks : List DirectBlock}
    {tasks : List Task} (hs : Splits image h t slot children blocks tasks) :
    blocks.map (·.address) = directChildren h.table slot children := by
  induction hs with
  | nil => rfl
  | @direct slot child size rest block blocks tasks hsize hread _ ih =>
    obtain ⟨-, -, -, _, heq⟩ := readDirect_iff.mp hread
    simp only [directChildren, hsize, List.map_cons, ih]
    rw [heq]
  | indirect hsize _ _ ih =>
    simp only [directChildren, hsize]
    exact ih

/-- **A second visit fails**: it takes in a first child that has been taken in before. -/
theorem visit_of_visited (hroot : IndirectRoot h root) {visited : List IndirectBlock} {task : Task}
    {rest : List Task} {index : BlockIndex}
    (hp : Reached image h t root (.between visited ⟨task :: rest, index⟩)) {b : IndirectBlock}
    (hb : b ∈ visited) (haddress : b.address = task.address) (hne : b.children ≠ []) :
    ∃ e, (visit image h task ⟨rest, index⟩).result t = .error e := by
  cases hv : (visit image h task ⟨rest, index⟩).result t with
  | error e => exact ⟨e, rfl⟩
  | ok w =>
    exfalso
    obtain ⟨block, blocks, _, hread, hsplits, -, hdist, -⟩ := visit_eq_ok_iff.mp hv
    have hread' := hp.read b hb
    rw [haddress] at hread'
    obtain ⟨child, hin, hin'⟩ := common_child hread' hread hne
      (pending_of_reached hroot hp (List.mem_cons_self ..)).1
    -- the child is indexed already, and is read once more
    have htaken : child ∈ taken h (.between visited ⟨task :: rest, index⟩) :=
      List.mem_flatMap.mpr ⟨b, hb, hin⟩
    obtain ⟨holder, hholder, hfirst⟩ := List.mem_map.mp ((indexed_perm_taken hp).mem_iff.mpr htaken)
    rw [← addresses_of_splits hsplits] at hin'
    obtain ⟨again, hagain, hsecond⟩ := List.mem_map.mp hin'
    have hoffset := offset_eq_of_read (indexed_of_reached hp holder hholder)
      (hsplits.read again hagain) (hfirst.trans hsecond.symm)
    have hne' := (List.pairwise_append.mp (distinct_iff_pairwise.mp hdist)).2.2
    exact hne' holder hholder again hagain hoffset

/-! ### Heaps -/

/-- **No block is counted twice.** In a heap that is loaded no two blocks have one address or one
offset. If its root is indirect, its blocks are the children in direct slots of all indirect blocks
that have been visited, and of these the ones with children have been visited once.

On the way to any heap, loaded or not, a visit to an indirect block with children that has been
visited before fails, whatever number of rows each visit asks for, and so the heap is not loaded. -/
theorem counted_once (image : Image) (s : Superblock) (address : Nat) (options : Heap.Options)
    (t : Level) :
    (∀ heap, (Heap.load image s address options).result t = .ok heap →
      (heap.blocks.map (·.address)).Nodup ∧ (heap.blocks.map (·.offset)).Nodup ∧
      ∀ root, IndirectRoot heap.header root →
        (∃ visited, Reached image heap.header t root (.between visited ⟨[], heap.index⟩)) ∧
        ∀ visited, Reached image heap.header t root (.between visited ⟨[], heap.index⟩) →
          (heap.blocks.map (·.address)).Perm (directChildrenOf heap.header visited) ∧
          heap.blocks.length = (directChildrenOf heap.header visited).length ∧
          ((visited.filter (·.children ≠ [])).map (·.address)).Nodup) ∧
    ∀ header root, (Header.read image s address).result t = .ok header → IndirectRoot header root →
      ∀ visited task rest index b,
        Reached image header t root (.between visited ⟨task :: rest, index⟩) →
        b ∈ visited → b.address = task.address → b.children ≠ [] →
          ∃ e, (visit image header task ⟨rest, index⟩).result t = .error e ∧
            (Heap.load image s address options).result t = .error (.opening address e) := by
  constructor
  · intro heap hload
    obtain ⟨-, -, hwalk⟩ := load_eq_ok_iff.mp hload
    refine ⟨nodup_addresses (directBlocks_read hwalk), Distinct.of_ascending heap.index.ascending,
      fun root hroot => ⟨(directBlocks_eq_ok_iff_reached hroot).mp hwalk, fun visited hend => ?_⟩⟩
    have hperm := indexed_perm_taken hend
    have hcount := hperm.length_eq
    rw [List.length_map] at hcount
    exact ⟨hperm, hcount, nodup_visited hroot hend⟩
  · intro header root hheader hroot visited task rest index b hp hb haddress hne
    obtain ⟨e, hv⟩ := visit_of_visited hroot hp hb haddress hne
    have hfirst := directBlocks_eq_error_iff.mp (directBlocks_of_visit_error hroot hp hv)
    exact ⟨e, hv, load_eq_error_iff.mpr ⟨e, rfl, .inr ⟨header, hheader, hfirst⟩⟩⟩

/-- The walk through a block that leads back to itself comes to it for a second time, and fails. -/
theorem looping_visited_again :
    ∃ visited task rest index b,
      Reached looping (smallHeader 41 3) .trace 41 (.between visited ⟨task :: rest, index⟩) ∧
      b ∈ visited ∧ b.address = task.address ∧ b.children ≠ [] ∧
      ∃ e, (visit looping (smallHeader 41 3) task ⟨rest, index⟩).result .trace = .error e ∧
        (Heap.load looping narrow 0 {}).result .trace = .error (.opening 0 e) := by
  have hheader : (Header.read looping narrow 0).result .trace = .ok (smallHeader 41 3) := rfl
  have hread : IndirectBlock.read looping (smallHeader 41 3) 41 3 = .ok ⟨41, 0, 3, [51, 59, 41]⟩ :=
    eq_ok_of_toOption (by decide +kernel)
  have hfirst : (DirectBlock.read looping (smallHeader 41 3) 51 8).result .trace
      = .ok ⟨51, 0, 7, ⟨looping, 51, 8, by decide +kernel⟩⟩ :=
    readDirect_iff.mpr ⟨by decide, ⟨by decide, by decide, by decide⟩, by decide +kernel, _, rfl⟩
  have hsecond : (DirectBlock.read looping (smallHeader 41 3) 59 8).result .trace
      = .ok ⟨59, 8, 7, ⟨looping, 59, 8, by decide +kernel⟩⟩ :=
    readDirect_iff.mpr ⟨by decide, ⟨by decide, by decide, by decide⟩, by decide +kernel, _, rfl⟩
  have h₁ : Reached looping (smallHeader 41 3) .trace 41 (.inside [] _ 0 ⟨[], .empty⟩) :=
    .step .start (.visit hread)
  have h₂ := h₁.step (.direct rfl rfl hfirst rfl)
  have h₃ := h₂.step (.direct rfl rfl hsecond rfl)
  have h₄ := h₃.step (.indirect rfl rfl rfl)
  have h₅ := h₄.step (.leave rfl)
  have hne : (⟨41, 0, 3, [51, 59, 41]⟩ : IndirectBlock).children ≠ [] := by decide
  exact ⟨_, _, _, _, _, h₅, List.mem_singleton.mpr rfl, rfl, hne,
    (counted_once looping narrow 0 {} .trace).2 _ 41 hheader looping_root _ _ _ _ _ h₅
      (List.mem_singleton.mpr rfl) rfl hne⟩

end DoublingHeap.Proofs.Sharing
