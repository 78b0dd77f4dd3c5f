import DoublingHeap.Proofs.Blocks
import DoublingHeap.Proofs.Index
import DoublingHeap.Heap

/-! # What a visit does

The children of an indirect block *split* into the direct blocks in its direct slots and the tasks
in its indirect slots, both in slot order (`Splits`). A visit that succeeds reads the block and adds
them to the walk: it indexes the first and puts the second in front of what waits (`Adds`), and this
is all that it does (`visit_eq_ok_iff`). -/

namespace DoublingHeap.Proofs.Visits

open DoublingHeap.Walk
open DoublingHeap.Proofs.Blocks DoublingHeap.Proofs.Index

variable {image : Image} {h : Header} {t : Level}

/-- The children in the slots from `slot` on are these direct blocks and these tasks. -/
inductive Splits (image : Image) (h : Header) (t : Level) :
    Nat → List Nat → List DirectBlock → List Task → Prop where
  | nil {slot : Nat} : Splits image h t slot [] [] []
  | direct {slot child size : Nat} {rest : List Nat} {block : DirectBlock}
      {blocks : List DirectBlock} {tasks : List Task}
      (hsize : h.table.blockSize slot = .direct size)
      (hread : (DirectBlock.read image h child size).result t = .ok block)
      (hrest : Splits image h t (slot + 1) rest blocks tasks) :
      Splits image h t slot (child :: rest) (block :: blocks) tasks
  | indirect {slot child rows : Nat} {rest : List Nat} {blocks : List DirectBlock}
      {tasks : List Task} (hsize : h.table.blockSize slot = .indirect)
      (hrows : h.table.childRows (h.table.rowOf slot) = some rows)
      (hrest : Splits image h t (slot + 1) rest blocks tasks) :
      Splits image h t slot (child :: rest) blocks (⟨child, rows⟩ :: tasks)

/-! ### One child -/

/-- **A direct child** is read and indexed, if its offset is free. -/
theorem enter_direct_iff {slot child size : Nat} {w w' : Walk}
    (hsize : h.table.blockSize slot = .direct size) :
    (enter image h slot child w).result t = .ok w' ↔
      ∃ block, (DirectBlock.read image h child size).result t = .ok block ∧
        w'.pending = w.pending ∧ w.index.insert block = .ok w'.index := by
  unfold enter
  simp only [hsize, Logged.result_bind_eq_ok]
  constructor
  · rintro ⟨block, hread, hr⟩
    split at hr
    · rename_i index hins
      cases hr
      exact ⟨block, hread, rfl, hins⟩
    · cases hr
  · rintro ⟨block, hread, hp, hins⟩
    refine ⟨block, hread, ?_⟩
    rw [hins]
    cases w'
    simp only at hp
    rw [hp]
    rfl

theorem enter_indirect_iff {slot child : Nat} {w w' : Walk}
    (hsize : h.table.blockSize slot = .indirect) :
    (enter image h slot child w).result t = .ok w' ↔
      ∃ rows, h.table.childRows (h.table.rowOf slot) = some rows ∧
        w' = ⟨⟨child, rows⟩ :: w.pending, w.index⟩ := by
  unfold enter
  simp only [hsize]
  constructor
  · intro hr
    split at hr
    · rename_i rows hrows
      cases hr
      exact ⟨rows, hrows, rfl⟩
    · cases hr
  · rintro ⟨rows, hrows, rfl⟩
    rw [hrows]
    rfl

/-! ### All children -/

/-- The second walk is the first with these direct blocks in its index and these tasks in front of
what waits, last first. All offsets are distinct. -/
structure Adds (w : Walk) (blocks : List DirectBlock) (tasks : List Task) (w' : Walk) : Prop where
  pending : w'.pending = tasks.reverse ++ w.pending
  distinct : Distinct (w.index.blocks ++ blocks)
  indexed : w'.index.blocks.Perm (w.index.blocks ++ blocks)

theorem adds_nil_iff {w w' : Walk} : Adds w [] [] w' ↔ w = w' := by
  constructor
  · rintro ⟨hp, -, hb⟩
    rw [List.append_nil] at hb
    rcases w with ⟨pending, index⟩
    rcases w' with ⟨pending', index'⟩
    cases hp
    cases index_eq_of_perm hb
    rfl
  · rintro rfl
    refine ⟨rfl, ?_, ?_⟩ <;> rw [List.append_nil]
    exact .of_ascending w.index.ascending

theorem adds_block_iff {w w' : Walk} {block : DirectBlock} {blocks : List DirectBlock}
    {tasks : List Task} :
    Adds w (block :: blocks) tasks w' ↔
      ∃ index, w.index.insert block = .ok index ∧ Adds ⟨w.pending, index⟩ blocks tasks w' := by
  have hmiddle : (block :: w.index.blocks ++ blocks).Perm (w.index.blocks ++ block :: blocks) :=
    List.perm_middle.symm
  constructor
  · rintro ⟨hp, hd, hb⟩
    have hd' := (distinct_of_perm hmiddle).mpr hd
    obtain ⟨index, hperm⟩ := exists_index hd'.of_append_left
    have hfree := (distinct_cons_iff.mp hd'.of_append_left).1
    have hjoin := hperm.append_right blocks
    exact ⟨index, insert_eq_ok_iff_perm.mpr ⟨hfree, hperm⟩, hp, (distinct_of_perm hjoin).mpr hd',
      (hb.trans hmiddle.symm).trans hjoin.symm⟩
  · rintro ⟨index, hins, hp, hd, hb⟩
    obtain ⟨-, hperm⟩ := insert_eq_ok_iff_perm.mp hins
    have hmove := (hperm.append_right blocks).trans hmiddle
    exact ⟨hp, (distinct_of_perm hmove).mp hd, hb.trans hmove⟩

theorem adds_task_iff {w w' : Walk} {task : Task} {blocks : List DirectBlock}
    {tasks : List Task} :
    Adds w blocks (task :: tasks) w' ↔ Adds ⟨task :: w.pending, w.index⟩ blocks tasks w' := by
  have hpending : (task :: tasks).reverse ++ w.pending = tasks.reverse ++ task :: w.pending := by
    rw [List.reverse_cons, List.append_assoc]
    rfl
  constructor
  · rintro ⟨hp, hd, hb⟩
    exact ⟨hp.trans hpending, hd, hb⟩
  · rintro ⟨hp, hd, hb⟩
    exact ⟨hp.trans hpending.symm, hd, hb⟩

theorem splits_direct_iff {slot child size : Nat} {rest : List Nat} {blocks : List DirectBlock}
    {tasks : List Task} (hsize : h.table.blockSize slot = .direct size) :
    Splits image h t slot (child :: rest) blocks tasks ↔
      ∃ block blocks', (DirectBlock.read image h child size).result t = .ok block ∧
        Splits image h t (slot + 1) rest blocks' tasks ∧ blocks = block :: blocks' := by
  constructor
  · intro hs
    cases hs with
    | direct hsize' hread hrest =>
      rw [hsize] at hsize'
      cases hsize'
      exact ⟨_, _, hread, hrest, rfl⟩
    | indirect hsize' =>
      rw [hsize] at hsize'
      cases hsize'
  · rintro ⟨block, blocks', hread, hrest, rfl⟩
    exact .direct hsize hread hrest

theorem splits_indirect_iff {slot child : Nat} {rest : List Nat} {blocks : List DirectBlock}
    {tasks : List Task} (hsize : h.table.blockSize slot = .indirect) :
    Splits image h t slot (child :: rest) blocks tasks ↔
      ∃ rows tasks', h.table.childRows (h.table.rowOf slot) = some rows ∧
        Splits image h t (slot + 1) rest blocks tasks' ∧ tasks = ⟨child, rows⟩ :: tasks' := by
  constructor
  · intro hs
    cases hs with
    | direct hsize' =>
      rw [hsize] at hsize'
      cases hsize'
    | indirect _ hrows hrest => exact ⟨_, _, hrows, hrest, rfl⟩
  · rintro ⟨rows, tasks', hrows, hrest, rfl⟩
    exact .indirect hsize hrows hrest

/-- **The children from a slot on** split; the direct blocks are indexed, the tasks wait. -/
theorem enterAll_eq_ok_iff {slot : Nat} {children : List Nat} {w w' : Walk} :
    (enterAll image h slot children w).result t = .ok w' ↔
      ∃ blocks tasks, Splits image h t slot children blocks tasks ∧ Adds w blocks tasks w' := by
  induction children generalizing slot w with
  | nil =>
    unfold enterAll
    rw [Logged.result_pure, Except.ok.injEq, ← adds_nil_iff]
    constructor
    · exact fun hadds => ⟨[], [], .nil, hadds⟩
    · rintro ⟨_, _, ⟨⟩, hadds⟩
      exact hadds
  | cons child rest ih =>
    unfold enterAll
    simp only [Logged.result_bind_eq_ok, ih]
    cases hsize : h.table.blockSize slot with
    | direct size =>
      constructor
      · rintro ⟨⟨_, index⟩, hent, blocks, tasks, hs, hadds⟩
        obtain ⟨block, hread, rfl, hins⟩ := (enter_direct_iff hsize).mp hent
        exact ⟨block :: blocks, tasks, .direct hsize hread hs,
          adds_block_iff.mpr ⟨index, hins, hadds⟩⟩
      · rintro ⟨_, tasks, hs, hadds⟩
        obtain ⟨block, blocks, hread, hrest, rfl⟩ := (splits_direct_iff hsize).mp hs
        obtain ⟨index, hins, hadds⟩ := adds_block_iff.mp hadds
        exact ⟨⟨w.pending, index⟩, (enter_direct_iff hsize).mpr ⟨block, hread, rfl, hins⟩,
          blocks, tasks, hrest, hadds⟩
    | indirect =>
      constructor
      · rintro ⟨w₁, hent, blocks, tasks, hs, hadds⟩
        obtain ⟨rows, hrows, rfl⟩ := (enter_indirect_iff hsize).mp hent
        exact ⟨blocks, ⟨child, rows⟩ :: tasks, .indirect hsize hrows hs, adds_task_iff.mpr hadds⟩
      · rintro ⟨blocks, _, hs, hadds⟩
        obtain ⟨rows, tasks, hrows, hrest, rfl⟩ := (splits_indirect_iff hsize).mp hs
        exact ⟨_, (enter_indirect_iff hsize).mpr ⟨rows, hrows, rfl⟩, blocks, tasks, hrest,
          adds_task_iff.mp hadds⟩

/-- **A visit** reads an indirect block, indexes its direct children and puts its indirect children
in front of what waits. -/
theorem visit_eq_ok_iff {task : Task} {w w' : Walk} :
    (visit image h task w).result t = .ok w' ↔
      ∃ block blocks tasks, IndirectBlock.read image h task.address task.rows = .ok block ∧
        Splits image h t 0 block.children blocks tasks ∧ Adds w blocks tasks w' := by
  unfold visit
  simp only [Logged.result_bind_eq_ok, result_lift, enterAll_eq_ok_iff]
  constructor
  · rintro ⟨block, hread, -, -, blocks, tasks, hrest⟩
    exact ⟨block, blocks, tasks, hread, hrest⟩
  · rintro ⟨block, blocks, tasks, hread, hrest⟩
    exact ⟨block, hread, (), rfl, blocks, tasks, hrest⟩

/-! ### Runs -/

/-- **What every visit preserves** holds of the walk that a run ends in. -/
theorem run_preserves {P : Walk → Prop}
    (hstep : ∀ task rest index w, P ⟨task :: rest, index⟩ →
      (visit image h task ⟨rest, index⟩).result t = .ok w → P w)
    {w : Walk} {final : BlockIndex} (hw : P w) (hr : (run image h w).result t = .ok final) :
    P ⟨[], final⟩ := by
  -- by induction on the weight of what waits
  induction hn : weight h w.pending using Nat.strongRecOn generalizing w with
  | ind n ih =>
    subst hn
    rcases w with ⟨pending, index⟩
    cases pending with
    | nil =>
      rw [run_nil, Logged.result_pure, Except.ok.injEq] at hr
      rw [← hr]
      exact hw
    | cons task rest =>
      rw [run_cons, Logged.result_bind_eq_ok] at hr
      obtain ⟨w', hv, hr⟩ := hr
      exact ih _ (weight_visit_lt hv) (hstep task rest index w' hw hv) hr rfl

/-- The block has been read from its address. -/
def Read (image : Image) (h : Header) (t : Level) (b : DirectBlock) : Prop :=
  ∃ size, (DirectBlock.read image h b.address size).result t = .ok b

theorem read_of_result {address size : Nat} {b : DirectBlock}
    (hread : (DirectBlock.read image h address size).result t = .ok b) : Read image h t b := by
  obtain ⟨-, -, -, within, heq⟩ := readDirect_iff.mp hread
  have haddr := congrArg DirectBlock.address heq
  simp only at haddr
  exact ⟨size, by rw [haddr]; exact hread⟩

theorem Splits.read {slot : Nat} {children : List Nat} {blocks : List DirectBlock}
    {tasks : List Task} (hs : Splits image h t slot children blocks tasks) :
    ∀ b ∈ blocks, Read image h t b := by
  induction hs with
  | nil => exact fun b hb => absurd hb List.not_mem_nil
  | direct _ hread _ ih =>
    intro b hb
    rcases List.mem_cons.mp hb with rfl | hb
    · exact read_of_result hread
    · exact ih b hb
  | indirect _ _ _ ih => exact ih

theorem visit_read {task : Task} {rest : List Task} {index : BlockIndex} {w : Walk}
    (hindex : ∀ b ∈ index.blocks, Read image h t b)
    (hv : (visit image h task ⟨rest, index⟩).result t = .ok w) :
    ∀ b ∈ w.index.blocks, Read image h t b := by
  obtain ⟨_, blocks, _, -, hs, -, -, hb⟩ := visit_eq_ok_iff.mp hv
  intro b hm
  rcases List.mem_append.mp (hb.mem_iff.mp hm) with hm | hm
  · exact hindex b hm
  · exact hs.read b hm

/-- **Every indexed block has been read** from its address. -/
theorem directBlocks_read {index : BlockIndex}
    (hr : (directBlocks image h).result t = .ok index) : ∀ b ∈ index.blocks, Read image h t b := by
  unfold directBlocks at hr
  split at hr
  · rw [Logged.result_pure, Except.ok.injEq] at hr
    rw [← hr]
    exact fun b hb => absurd hb List.not_mem_nil
  · split at hr
    · obtain ⟨block, hread, hr⟩ := Logged.result_bind_eq_ok.mp hr
      rw [Logged.result_pure, Except.ok.injEq] at hr
      rw [← hr]
      intro b hb
      rw [List.mem_singleton.mp hb]
      exact read_of_result hread
    · exact run_preserves (P := fun w => ∀ b ∈ w.index.blocks, Read image h t b)
        (fun _ _ _ _ => visit_read) (fun b hb => absurd hb List.not_mem_nil) hr

/-! ### Heaps -/

/-- **A heap is loaded** if its header is read and the walk from there succeeds. -/
theorem load_eq_ok_iff {s : Superblock} {address : Nat} {options : Heap.Options} {heap : Heap} :
    (Heap.load image s address options).result t = .ok heap ↔
      (Header.read image s address).result t = .ok heap.header ∧ heap.options = options ∧
        (directBlocks image heap.header).result t = .ok heap.index := by
  unfold Heap.load
  simp only [Logged.result_bind_eq_ok, Logged.result_mapError, mapError_eq_ok_iff,
    Logged.result_pure, Except.ok.injEq]
  constructor
  · rintro ⟨header, hheader, index, hindex, -, -, rfl⟩
    exact ⟨hheader, rfl, hindex⟩
  · rintro ⟨hheader, rfl, hindex⟩
    exact ⟨heap.header, hheader, heap.index, hindex, (), rfl, rfl⟩

end DoublingHeap.Proofs.Visits
