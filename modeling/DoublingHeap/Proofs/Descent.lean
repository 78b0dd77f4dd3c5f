import DoublingHeap.Proofs.Visits
import DoublingHeap.Heap

/-! # Recursive descent

The direct blocks below an indirect block can be collected by plain recursion: read the block, go
through its slots in order, read the direct children and descend into the indirect ones (`descend`).
A walk does the same with a list of tasks in place of the recursion and visits the blocks in another
order. `run_eq_ok_iff` says that it finds the same blocks: a walk succeeds exactly if the descent
from each task that waits succeeds and all blocks, those in the index included, are distinct.
`directBlocks_eq_ok_iff` and `load_refines_descent` say the same of a whole heap. -/

namespace DoublingHeap.Proofs.Descent

open scoped List
open DoublingHeap.Walk
open DoublingHeap.Proofs.Blocks DoublingHeap.Proofs.Index DoublingHeap.Proofs.Visits

variable {image : Image} {h : Header} {t : Level}

theorem rowOf_lt {table : DoublingTable} {slot rows : Nat} (hslot : slot < rows * table.width) :
    table.rowOf slot < rows :=
  Nat.div_lt_of_lt_mul (by rw [Nat.mul_comm]; exact hslot)

theorem children_le {address rows : Nat} {block : IndirectBlock}
    (hread : IndirectBlock.read image h address rows = .ok block) :
    0 + block.children.length ≤ rows * h.table.width := by
  rw [Nat.zero_add]
  exact (IndirectBlock.of_read_eq_ok hread).2.2

theorem rest_le {slot child bound : Nat} {rest : List Nat}
    (hle : slot + (child :: rest).length ≤ bound) : slot + 1 + rest.length ≤ bound := by
  rw [List.length_cons] at hle
  omega

mutual

/-- The direct blocks below the indirect block of `rows` rows at an address. -/
def descend (image : Image) (h : Header) (address rows : Nat) : Logged (List DirectBlock) :=
  match hread : IndirectBlock.read image h address rows with
  | .error e => .fail e
  | .ok block => gather image h rows 0 block.children (children_le hread)
termination_by (rows, 1, 0)

/-- The direct blocks at and below the children in the slots from `slot` on of a block of `rows`
rows. -/
def gather (image : Image) (h : Header) (rows slot : Nat) :
    (children : List Nat) → slot + children.length ≤ rows * h.table.width →
      Logged (List DirectBlock)
  | [], _ => return []
  | child :: rest, hle =>
    match hsize : h.table.blockSize slot with
    | .direct size => do
      let block ← DirectBlock.read image h child size
      let blocks ← gather image h rows (slot + 1) rest (rest_le hle)
      return block :: blocks
    | .indirect =>
      match hrows : h.table.childRows (h.table.rowOf slot) with
      | none => .fail (.malformed child (.rowTooSmall (h.table.rowOf slot)))
      | some k => do
        have : k < rows := DoublingTable.childRows_lt hrows (DoublingTable.two_le_rowOf hsize)
          (rowOf_lt (by rw [List.length_cons] at hle; omega))
        let below ← descend image h child k
        let blocks ← gather image h rows (slot + 1) rest (rest_le hle)
        return below ++ blocks
termination_by children => (rows, 0, children.length)

end

/-- The direct blocks of a heap: none if it is empty, the root if that is a direct block, and all
direct blocks below the root else. -/
def blocksOf (image : Image) (h : Header) : Logged (List DirectBlock) :=
  match h.root? with
  | none => return []
  | some root =>
    if h.fields.rootRows = 0 then do
      let block ← DirectBlock.read image h root h.table.startingSize
      return [block]
    else descend image h root h.fields.rootRows

/-! ### What a descent finds -/

theorem descend_eq_ok_iff {address rows : Nat} {blocks : List DirectBlock} :
    (descend image h address rows).result t = .ok blocks ↔
      ∃ block hle, IndirectBlock.read image h address rows = .ok block ∧
        (gather image h rows 0 block.children hle).result t = .ok blocks := by
  rw [descend]
  split
  · rename_i e hread
    rw [hread]
    constructor
    · intro hr
      cases hr
    · rintro ⟨block, -, hb, -⟩
      cases hb
  · rename_i block hread
    constructor
    · intro hr
      exact ⟨block, _, hread, hr⟩
    · rintro ⟨_, _, hb, hr⟩
      rw [hread] at hb
      cases hb
      exact hr

theorem gather_nil {rows slot : Nat} (hle : slot + ([] : List Nat).length ≤ rows * h.table.width) :
    gather image h rows slot [] hle = pure [] := by
  rw [gather]

theorem gather_direct {rows slot child size : Nat} {rest : List Nat}
    (hsize : h.table.blockSize slot = .direct size)
    (hle : slot + (child :: rest).length ≤ rows * h.table.width)
    (hle' : slot + 1 + rest.length ≤ rows * h.table.width) :
    gather image h rows slot (child :: rest) hle = (do
      let block ← DirectBlock.read image h child size
      let blocks ← gather image h rows (slot + 1) rest hle'
      return block :: blocks) := by
  rw [gather]
  split
  · rename_i size' hsize'
    rw [hsize] at hsize'
    cases hsize'
    rfl
  · rename_i hsize'
    rw [hsize] at hsize'
    cases hsize'

theorem gather_indirect {rows slot child : Nat} {rest : List Nat}
    (hsize : h.table.blockSize slot = .indirect)
    (hle : slot + (child :: rest).length ≤ rows * h.table.width)
    (hle' : slot + 1 + rest.length ≤ rows * h.table.width) :
    gather image h rows slot (child :: rest) hle =
      match h.table.childRows (h.table.rowOf slot) with
      | none => .fail (.malformed child (.rowTooSmall (h.table.rowOf slot)))
      | some k => do
        let below ← descend image h child k
        let blocks ← gather image h rows (slot + 1) rest hle'
        return below ++ blocks := by
  rw [gather]
  split
  · rename_i size' hsize'
    rw [hsize] at hsize'
    cases hsize'
  · split <;> rename_i hrows <;> simp only [hrows]

/-- The descent from a task succeeds. -/
def Descends (image : Image) (h : Header) (t : Level) (task : Task) : Prop :=
  ∃ blocks, (descend image h task.address task.rows).result t = .ok blocks

/-- The blocks found by the descent from a task. -/
def found (image : Image) (h : Header) (t : Level) (task : Task) : List DirectBlock :=
  match (descend image h task.address task.rows).result t with
  | .ok blocks => blocks
  | .error _ => []

theorem found_eq {task : Task} {blocks : List DirectBlock}
    (hd : (descend image h task.address task.rows).result t = .ok blocks) :
    found image h t task = blocks := by
  unfold found
  rw [hd]

/-- **Descent splits, one way**: the descent through children that split succeeds if that from each
task does, and finds the direct children and what is below the tasks. -/
theorem gather_of_splits {slot rows : Nat} {children : List Nat} {blocks : List DirectBlock}
    {tasks : List Task} (hs : Splits image h t slot children blocks tasks)
    (hd : ∀ task ∈ tasks, Descends image h t task)
    (hle : slot + children.length ≤ rows * h.table.width) :
    ∃ all, (gather image h rows slot children hle).result t = .ok all ∧
      all.Perm (blocks ++ tasks.flatMap (found image h t)) := by
  induction hs with
  | nil => exact ⟨[], congrArg (·.result t) (gather_nil hle), List.Perm.refl _⟩
  | @direct slot child size rest block blocks tasks hsize hread _ ih =>
    have hle' := rest_le hle
    obtain ⟨all, hg, hp⟩ := ih hd hle'
    refine ⟨block :: all, ?_, hp.cons block⟩
    simp only [gather_direct hsize hle hle', Logged.result_bind_eq_ok]
    exact ⟨block, hread, all, hg, rfl⟩
  | @indirect slot child k rest blocks tasks hsize hrows _ ih =>
    have hle' := rest_le hle
    obtain ⟨below, hb⟩ := hd ⟨child, k⟩ (List.mem_cons_self ..)
    obtain ⟨all, hg, hp⟩ := ih (fun task ht => hd task (List.mem_cons_of_mem _ ht)) hle'
    refine ⟨below ++ all, ?_, ?_⟩
    · simp only [gather_indirect hsize hle hle', hrows, Logged.result_bind_eq_ok]
      exact ⟨below, hb, all, hg, rfl⟩
    · rw [List.flatMap_cons, found_eq hb, ← List.append_assoc]
      refine (hp.append_left below).trans ?_
      rw [← List.append_assoc]
      exact List.perm_append_comm.append_right _

/-- **Descent splits, the other way**: where the descent through children succeeds, the children
split and the descent from each task succeeds. -/
theorem splits_of_gather {slot rows : Nat} {children : List Nat} {all : List DirectBlock}
    {hle : slot + children.length ≤ rows * h.table.width}
    (hg : (gather image h rows slot children hle).result t = .ok all) :
    ∃ blocks tasks, Splits image h t slot children blocks tasks ∧
      ∀ task ∈ tasks, Descends image h t task := by
  induction children generalizing slot all with
  | nil => exact ⟨[], [], .nil, fun _ ht => absurd ht List.not_mem_nil⟩
  | cons child rest ih =>
    have hle' := rest_le hle
    cases hsize : h.table.blockSize slot with
    | direct size =>
      simp only [gather_direct hsize hle hle', Logged.result_bind_eq_ok] at hg
      obtain ⟨block, hread, _, hrest, -⟩ := hg
      obtain ⟨blocks, tasks, hs, hd⟩ := ih hrest
      exact ⟨block :: blocks, tasks, .direct hsize hread hs, hd⟩
    | indirect =>
      rw [gather_indirect hsize hle hle'] at hg
      split at hg
      · cases hg
      · rename_i k hrows
        simp only [Logged.result_bind_eq_ok] at hg
        obtain ⟨below, hb, _, hrest, -⟩ := hg
        obtain ⟨blocks, tasks, hs, hd⟩ := ih hrest
        refine ⟨blocks, ⟨child, k⟩ :: tasks, .indirect hsize hrows hs, fun task ht => ?_⟩
        rcases List.mem_cons.mp ht with rfl | ht
        · exact ⟨below, hb⟩
        · exact hd task ht

theorem descends_iff {task : Task} :
    Descends image h t task ↔
      ∃ block blocks tasks, IndirectBlock.read image h task.address task.rows = .ok block ∧
        Splits image h t 0 block.children blocks tasks ∧
        ∀ task ∈ tasks, Descends image h t task := by
  constructor
  · rintro ⟨all, hd⟩
    obtain ⟨block, hle, hread, hg⟩ := descend_eq_ok_iff.mp hd
    obtain ⟨blocks, tasks, hs, hds⟩ := splits_of_gather hg
    exact ⟨block, blocks, tasks, hread, hs, hds⟩
  · rintro ⟨block, blocks, tasks, hread, hs, hds⟩
    have hle := children_le hread
    obtain ⟨all, hg, -⟩ := gather_of_splits hs hds hle
    exact ⟨all, descend_eq_ok_iff.mpr ⟨block, hle, hread, hg⟩⟩

theorem found_perm {task : Task} {block : IndirectBlock} {blocks : List DirectBlock}
    {tasks : List Task}
    (hread : IndirectBlock.read image h task.address task.rows = .ok block)
    (hs : Splits image h t 0 block.children blocks tasks)
    (hd : ∀ task ∈ tasks, Descends image h t task) :
    (found image h t task).Perm (blocks ++ tasks.flatMap (found image h t)) := by
  have hle := children_le hread
  obtain ⟨all, hg, hp⟩ := gather_of_splits hs hd hle
  rw [found_eq (descend_eq_ok_iff.mpr ⟨block, hle, hread, hg⟩)]
  exact hp

/-! ### A walk finds what descent finds -/

/-- A visit moves blocks from what is below its task to the index, and changes nothing else in what
is known or still to be found. -/
theorem perm_after_visit {task : Task} {rest : List Task} {index : BlockIndex} {w : Walk}
    {blocks : List DirectBlock} {tasks : List Task}
    (hf : (found image h t task).Perm (blocks ++ tasks.flatMap (found image h t)))
    (hadds : Adds ⟨rest, index⟩ blocks tasks w) :
    (w.index.blocks ++ w.pending.flatMap (found image h t)).Perm
      (index.blocks ++ (task :: rest).flatMap (found image h t)) := by
  have hrev : (tasks.reverse.flatMap (found image h t)).Perm (tasks.flatMap (found image h t)) :=
    (List.reverse_perm tasks).flatMap_right _
  rw [hadds.pending, List.flatMap_append, List.flatMap_cons]
  calc w.index.blocks ++ (tasks.reverse.flatMap (found image h t) ++ rest.flatMap (found image h t))
    _ ~ (index.blocks ++ blocks)
          ++ (tasks.flatMap (found image h t) ++ rest.flatMap (found image h t)) :=
        hadds.indexed.append (hrev.append_right _)
    _ = index.blocks
          ++ ((blocks ++ tasks.flatMap (found image h t)) ++ rest.flatMap (found image h t)) := by
        simp only [List.append_assoc]
    _ ~ index.blocks ++ (found image h t task ++ rest.flatMap (found image h t)) :=
        (hf.symm.append_right _).append_left _

theorem descends_before_visit {task : Task} {rest : List Task} {index : BlockIndex} {w : Walk}
    (hv : (visit image h task ⟨rest, index⟩).result t = .ok w)
    (hd : ∀ task ∈ w.pending, Descends image h t task) :
    (∀ task' ∈ task :: rest, Descends image h t task') ∧
      (w.index.blocks ++ w.pending.flatMap (found image h t)).Perm
        (index.blocks ++ (task :: rest).flatMap (found image h t)) := by
  obtain ⟨block, blocks, tasks, hread, hs, hadds⟩ := visit_eq_ok_iff.mp hv
  rw [hadds.pending] at hd
  have htasks : ∀ task ∈ tasks, Descends image h t task := fun task ht =>
    hd task (List.mem_append_left _ (List.mem_reverse.mpr ht))
  refine ⟨fun task' ht => ?_, perm_after_visit (found_perm hread hs htasks) hadds⟩
  rcases List.mem_cons.mp ht with rfl | ht
  · exact descends_iff.mpr ⟨block, blocks, tasks, hread, hs, htasks⟩
  · exact hd task' (List.mem_append_right _ ht)

theorem exists_visit {task : Task} {rest : List Task} {index : BlockIndex}
    (hd : ∀ task' ∈ task :: rest, Descends image h t task')
    (hdist : Distinct (index.blocks ++ (task :: rest).flatMap (found image h t))) :
    ∃ w, (visit image h task ⟨rest, index⟩).result t = .ok w ∧
      ∀ task ∈ w.pending, Descends image h t task := by
  obtain ⟨block, blocks, tasks, hread, hs, htasks⟩ :=
    descends_iff.mp (hd task (List.mem_cons_self ..))
  have hhere : Distinct (index.blocks ++ blocks) := by
    have hf := found_perm hread hs htasks
    have hperm := (hf.append_right (rest.flatMap (found image h t))).append_left index.blocks
    have hall := (distinct_of_perm hperm).mp hdist
    rw [List.append_assoc, ← List.append_assoc] at hall
    exact hall.of_append_left
  obtain ⟨index', hb⟩ := exists_index hhere
  refine ⟨⟨tasks.reverse ++ rest, index'⟩,
    visit_eq_ok_iff.mpr ⟨block, blocks, tasks, hread, hs, rfl, hhere, hb⟩, fun task' ht => ?_⟩
  rcases List.mem_append.mp ht with ht | ht
  · exact htasks task' (List.mem_reverse.mp ht)
  · exact hd task' (List.mem_cons_of_mem _ ht)

/-- **A walk refines recursive descent.** It succeeds exactly if the descent from each task that
waits does and all blocks are distinct, and then it has found all of them. -/
theorem run_eq_ok_iff {pending : List Task} {index final : BlockIndex} :
    (run image h ⟨pending, index⟩).result t = .ok final ↔
      (∀ task ∈ pending, Descends image h t task) ∧
        Distinct (index.blocks ++ pending.flatMap (found image h t)) ∧
        final.blocks.Perm (index.blocks ++ pending.flatMap (found image h t)) := by
  -- by induction on the weight of what waits: every visit lowers it
  induction hw : weight h pending using Nat.strongRecOn generalizing pending index with
  | ind n ih =>
    subst hw
    cases pending with
    | nil =>
      rw [run_nil, Logged.result_pure, Except.ok.injEq, List.flatMap_nil, List.append_nil]
      constructor
      · rintro rfl
        exact ⟨fun _ ht => absurd ht List.not_mem_nil, .of_ascending index.ascending,
          List.Perm.refl _⟩
      · rintro ⟨-, -, hp⟩
        exact (index_eq_of_perm hp).symm
    | cons task rest =>
      rw [run_cons, Logged.result_bind_eq_ok]
      constructor
      · rintro ⟨w, hv, hr⟩
        obtain ⟨hds, hdist, hfin⟩ := (ih _ (weight_visit_lt hv) rfl).mp hr
        obtain ⟨hbefore, hmove⟩ := descends_before_visit hv hds
        exact ⟨hbefore, (distinct_of_perm hmove).mp hdist, hfin.trans hmove⟩
      · rintro ⟨hbefore, hdist, hfin⟩
        obtain ⟨w, hv, hds⟩ := exists_visit hbefore hdist
        obtain ⟨-, hmove⟩ := descends_before_visit hv hds
        exact ⟨w, hv, (ih _ (weight_visit_lt hv) rfl).mpr
          ⟨hds, (distinct_of_perm hmove).mpr hdist, hfin.trans hmove.symm⟩⟩

/-- The index of a heap holds the blocks of its descent. -/
theorem directBlocks_eq_ok_iff {index : BlockIndex} :
    (directBlocks image h).result t = .ok index ↔
      ∃ blocks, (blocksOf image h).result t = .ok blocks ∧ Distinct blocks ∧
        index.blocks.Perm blocks := by
  unfold directBlocks blocksOf
  cases h.root? with
  | none =>
    simp only [Logged.result_pure, Except.ok.injEq]
    constructor
    · rintro rfl
      exact ⟨[], rfl, List.nodup_nil, List.Perm.refl _⟩
    · rintro ⟨_, rfl, -, hp⟩
      exact (index_eq_of_perm hp).symm
  | some root =>
    by_cases hrows : h.fields.rootRows = 0
    · simp only [hrows, if_true, Logged.result_bind_eq_ok, Logged.result_pure, Except.ok.injEq]
      constructor
      · rintro ⟨block, hread, rfl⟩
        exact ⟨[block], ⟨block, hread, rfl⟩, distinct_cons_iff.mpr ⟨by simp, List.nodup_nil⟩,
          List.Perm.refl _⟩
      · rintro ⟨_, ⟨block, hread, rfl⟩, -, hp⟩
        exact ⟨block, hread, (index_eq_of_perm hp).symm⟩
    · simp only [hrows, if_false, run_eq_ok_iff, List.mem_singleton, forall_eq,
        List.flatMap_singleton]
      constructor
      · rintro ⟨⟨blocks, hd⟩, hdist, hp⟩
        rw [found_eq hd] at hdist hp
        exact ⟨blocks, hd, hdist, hp⟩
      · rintro ⟨blocks, hd, hdist, hp⟩
        have hf : found image h t ⟨root, h.fields.rootRows⟩ = blocks := found_eq hd
        rw [hf]
        exact ⟨⟨blocks, hd⟩, hdist, hp⟩

/-! ### Whole heaps -/

theorem exists_blocksOf_iff :
    (∃ blocks, (blocksOf image h).result t = .ok blocks ∧ Distinct blocks) ↔
      h.root? = none ∨
        (∃ root, h.root? = some root ∧ h.fields.rootRows = 0 ∧
          ∃ block, (DirectBlock.read image h root h.table.startingSize).result t = .ok block) ∨
        ∃ root, h.root? = some root ∧ 0 < h.fields.rootRows ∧
          ∃ blocks, (descend image h root h.fields.rootRows).result t = .ok blocks ∧
            Distinct blocks := by
  unfold blocksOf
  constructor
  · rintro ⟨blocks, hblocks, hdist⟩
    cases hroot : h.root? with
    | none => exact .inl rfl
    | some root =>
      rw [hroot] at hblocks
      by_cases hrows : h.fields.rootRows = 0
      · simp only [hrows, if_true, Logged.result_bind_eq_ok] at hblocks
        obtain ⟨block, hread, -⟩ := hblocks
        exact .inr (.inl ⟨root, rfl, hrows, block, hread⟩)
      · simp only [hrows, if_false] at hblocks
        exact .inr (.inr ⟨root, rfl, Nat.pos_of_ne_zero hrows, blocks, hblocks, hdist⟩)
  · rintro (hroot | ⟨root, hroot, hrows, block, hread⟩ | ⟨root, hroot, hrows, blocks, hd, hdist⟩)
    · rw [hroot]
      exact ⟨[], rfl, List.nodup_nil⟩
    · simp only [hroot, hrows, if_true, Logged.result_bind_eq_ok]
      exact ⟨[block], ⟨block, hread, rfl⟩, distinct_cons_iff.mpr ⟨by simp, List.nodup_nil⟩⟩
    · simp only [hroot, Nat.ne_of_gt hrows, if_false]
      exact ⟨blocks, hd, hdist⟩

/-- **Loading refines recursive descent.** A heap is loaded exactly if its header is read and it is
empty, or has a direct root that is read, or has a root with rows below which descent succeeds and
finds distinct blocks. The loaded heap holds these blocks and no others, each once, in the order of
their offsets. -/
theorem load_refines_descent (image : Image) (s : Superblock) (address : Nat)
    (options : Heap.Options) (t : Level) :
    ((∃ heap, (Heap.load image s address options).result t = .ok heap) ↔
      ∃ header, (Header.read image s address).result t = .ok header ∧
        (header.root? = none ∨
          (∃ root, header.root? = some root ∧ header.fields.rootRows = 0 ∧
            ∃ block,
              (DirectBlock.read image header root header.table.startingSize).result t = .ok block) ∨
          ∃ root, header.root? = some root ∧ 0 < header.fields.rootRows ∧
            ∃ blocks, (descend image header root header.fields.rootRows).result t = .ok blocks ∧
              blocks.Pairwise fun a b => a.offset ≠ b.offset)) ∧
    ∀ heap, (Heap.load image s address options).result t = .ok heap ↔
      (Header.read image s address).result t = .ok heap.header ∧ heap.options = options ∧
        Ascending heap.blocks ∧
        ∃ blocks, (blocksOf image heap.header).result t = .ok blocks ∧
          (blocks.Pairwise fun a b => a.offset ≠ b.offset) ∧ heap.blocks.Perm blocks := by
  simp only [load_eq_ok_iff, directBlocks_eq_ok_iff, ← distinct_iff_pairwise]
  refine ⟨⟨?_, ?_⟩, fun heap => ⟨?_, ?_⟩⟩
  · rintro ⟨heap, hheader, -, blocks, hblocks, hdist, -⟩
    exact ⟨heap.header, hheader, exists_blocksOf_iff.mp ⟨blocks, hblocks, hdist⟩⟩
  · rintro ⟨header, hheader, hcases⟩
    obtain ⟨blocks, hb, hdist⟩ := exists_blocksOf_iff.mpr hcases
    obtain ⟨index, hp⟩ := exists_index hdist
    exact ⟨⟨header, options, index⟩, hheader, rfl, blocks, hb, hdist, hp⟩
  · rintro ⟨hheader, hopt, blocks, hb, hdist, hp⟩
    exact ⟨hheader, hopt, heap.index.ascending, blocks, hb, hdist, hp⟩
  · rintro ⟨hheader, hopt, -, blocks, hb, hdist, hp⟩
    exact ⟨hheader, hopt, blocks, hb, hdist, hp⟩

/-- Addresses and lengths of one byte. -/
def narrow : Superblock :=
  ⟨1, 1, Nat.le.refl, Nat.le_add_left 1 7, Nat.le.refl, Nat.le_add_left 1 7⟩

/-- A header of a heap at address zero with rows of one slot. The blocks of its first two rows have
eight bytes, and all other rows are indirect. -/
def smallHeader (root rows : Nat) : Header :=
  ⟨0, narrow,
    ⟨3, 0, 0, 8, 0, 255, 0, 255, 0, 0, 0, 0, 0, 0, 0, 0, 1, 8, 16, 8, 1, root, rows⟩,
    ⟨0, 3, 4, 8, by decide, by decide, by decide, by decide⟩, 1, 1⟩

/-- A heap whose root has no rows and is an indirect block all the same. -/
def rowlessRoot : Image :=
  .ofList ((smallHeader 37 0).fields.encode narrow
    ++ BlockHeading.encode (smallHeader 37 0) .indirect 0)

/-- **A root without rows is not descended into.** Descent from it would succeed, with no blocks,
where it is an indirect block; the heap is not loaded. -/
theorem not_load_of_rowless_root :
    ¬ ((∃ heap, (Heap.load rowlessRoot narrow 0 {}).result .trace = .ok heap) ↔
      ∃ header, (Header.read rowlessRoot narrow 0).result .trace = .ok header ∧
        (header.root? = none ∨
          (∃ root, header.root? = some root ∧ header.fields.rootRows = 0 ∧
            ∃ block, (DirectBlock.read rowlessRoot header root
              header.table.startingSize).result .trace = .ok block) ∨
          ∃ root, header.root? = some root ∧
            ∃ blocks, (descend rowlessRoot header root
              header.fields.rootRows).result .trace = .ok blocks ∧
              blocks.Pairwise fun a b => a.offset ≠ b.offset)) := by
  intro hiff
  have hheader : (Header.read rowlessRoot narrow 0).result .trace = .ok (smallHeader 37 0) := rfl
  have hread : IndirectBlock.read rowlessRoot (smallHeader 37 0) 37 0 = .ok ⟨37, 0, 0, []⟩ := rfl
  have hdescend : (descend rowlessRoot (smallHeader 37 0) 37 0).result .trace = .ok [] :=
    descend_eq_ok_iff.mpr
      ⟨⟨37, 0, 0, []⟩, Nat.zero_le _, hread, congrArg (·.result .trace) (gather_nil _)⟩
  obtain ⟨heap, hload⟩ := hiff.mpr
    ⟨_, hheader, .inr (.inr ⟨37, rfl, [], hdescend, List.Pairwise.nil⟩)⟩
  have hfail : ((Heap.load rowlessRoot narrow 0 {}).result .trace).isOk = false := by
    decide +kernel
  rw [hload] at hfail
  cases hfail

end DoublingHeap.Proofs.Descent
