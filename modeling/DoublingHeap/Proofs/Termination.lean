import DoublingHeap.Proofs.Resolution
import DoublingHeap.Proofs.Steps

/-! # Every walk ends

The addresses of children come from the image and may lead back to a block above. A walk ends all
the same, since a child has fewer rows than its parent: of a child in row `q` of a block there is
room for `q - log2 width` rows (`Deferred`), and no step puts anything else on the list of tasks
(`pending_of_step`). So every task but the root has at least one row and no more than the table
allows (`pending_of_reached`); only the root can be refused for its rows, and an indirect child only
for the row that it is in (`Cramped`). -/

namespace DoublingHeap.Proofs.Termination

open DoublingHeap.Walk
open DoublingHeap.Proofs.Children DoublingHeap.Proofs.Descent DoublingHeap.Proofs.Faults
open DoublingHeap.Proofs.Resolution DoublingHeap.Proofs.Steps DoublingHeap.Proofs.Visits
open DoublingHeap.Proofs.Writing

attribute [local instance (high)] instPowNat

variable {image : Image} {h : Header} {t : Level} {root : Nat}

/-! ### The rows of a child -/

theorem log2_width (table : DoublingTable) : table.width.log2 = table.widthBits :=
  Nat.log2_two_pow

theorem rowBits_lt {table : DoublingTable} {row rows : Nat} (hrow : row < rows)
    (hroom : rows ≤ table.maxRows) : table.rowBits row < 64 := by
  have hheap := table.maxHeapBits_le
  have hstart := table.startBits_lt
  unfold DoublingTable.maxRows DoublingTable.firstRowBits at hroom
  unfold DoublingTable.rowBits
  omega

/-- **A child has `row - log2 width` rows**, if that is any. -/
theorem childRows_eq_some_iff {table : DoublingTable} {row k : Nat} (htwo : 2 ≤ row)
    (hbits : table.rowBits row < 64) :
    table.childRows row = some k ↔ k = row - table.width.log2 ∧ 0 < k := by
  rw [log2_width]
  unfold DoublingTable.childRows
  rw [Nat.max_eq_left (Nat.le_of_succ_le htwo)]
  split
  · rw [Option.some.injEq]
    omega
  · constructor
    · intro hk
      cases hk
    · omega

theorem childRows_eq_none_iff {table : DoublingTable} {row : Nat} (htwo : 2 ≤ row)
    (hbits : table.rowBits row < 64) : table.childRows row = none ↔ row ≤ table.width.log2 := by
  rw [log2_width]
  unfold DoublingTable.childRows
  rw [Nat.max_eq_left (Nat.le_of_succ_le htwo)]
  split
  · constructor
    · intro hk
      cases hk
    · omega
  · exact ⟨fun _ => by omega, fun _ => rfl⟩

/-! ### What waits -/

/-- The task that the child in an indirect slot of a block becomes. -/
structure Deferred (h : Header) (block : IndirectBlock) (slot : Nat) (task : Task) : Prop where
  child : block.children[slot]? = some task.address
  indirect : h.table.blockSize slot = .indirect
  row_lt : h.table.rowOf slot < block.rows
  rows_eq : task.rows = h.table.rowOf slot - h.table.width.log2
  rows_pos : 0 < task.rows
  rows_lt : task.rows < block.rows

/-- The child in a slot of a block has to be an indirect block, in a row that is too small for
one. -/
structure Cramped (h : Header) (block : IndirectBlock) (slot address row : Nat) : Prop where
  child : block.children[slot]? = some address
  defined : h.superblock.isUndefined address = false
  indirect : h.table.blockSize slot = .indirect
  row_eq : row = h.table.rowOf slot
  row_le : row ≤ h.table.width.log2

theorem rowBits_lt_of_child {block : IndirectBlock} {slot child : Nat}
    (hread : IndirectBlock.read image h block.address block.rows = .ok block)
    (hchild : block.children[slot]? = some child) :
    h.table.rowOf slot < block.rows ∧ h.table.rowBits (h.table.rowOf slot) < 64 := by
  obtain ⟨-, hroom, hlen⟩ := IndirectBlock.of_read_eq_ok hread
  have hlt : slot < block.children.length := (List.getElem?_eq_some_iff.mp hchild).1
  have hrow : h.table.rowOf slot < block.rows := rowOf_lt (Nat.lt_of_lt_of_le hlt hlen)
  exact ⟨hrow, rowBits_lt hrow hroom⟩

/-- **A step puts at most one task on the list**, and that comes from an indirect child. -/
theorem pending_of_step {p q : Point} (hp : Reached image h t root p) (hs : Step image h t p q) :
    q.walk.pending = p.walk.pending ∨ (∃ task, p.walk.pending = task :: q.walk.pending) ∨
      ∃ visited block slot w task, p = .inside visited block slot w ∧
        q.walk.pending = task :: w.pending ∧ Deferred h block slot task := by
  cases hs with
  | visit _ => exact .inr (.inl ⟨_, rfl⟩)
  | direct _ _ _ _ => exact .inl rfl
  | leave _ => exact .inl rfl
  | @indirect visited block slot child rows w hchild hsize hrows =>
    have hread := hp.read block (List.mem_cons_self ..)
    obtain ⟨hrow, hbits⟩ := rowBits_lt_of_child hread hchild
    obtain ⟨heq, hpos⟩ :=
      (childRows_eq_some_iff (DoublingTable.two_le_rowOf hsize) hbits).mp hrows
    have hlt := (childRows_lt_rows hread hchild hsize hrows).2
    exact .inr (.inr ⟨visited, block, slot, w, ⟨child, rows⟩, rfl, rfl,
      ⟨hchild, hsize, hrow, heq, hpos, hlt⟩⟩)

/-- The blocks on the way have at least one row and no more than the root, and what waits has at
least one, no more than there is room for, and less than the root. -/
structure Bounded (h : Header) (p : Point) : Prop where
  blocks : ∀ b ∈ p.blocks, 0 < b.rows ∧ b.rows ≤ h.fields.rootRows
  pending : ∀ task ∈ p.walk.pending,
    0 < task.rows ∧ task.rows ≤ h.table.maxRows ∧ task.rows < h.fields.rootRows

/-- **After the root has been read** all rows are bounded. -/
theorem bounded_of_reached (hroot : IndirectRoot h root) {p : Point}
    (hp : Reached image h t root p) : p = origin h root ∨ Bounded h p := by
  induction hp with
  | start => exact .inl rfl
  | @step p q hp hs ih =>
    right
    cases hs with
    | @visit visited task rest index block hread =>
      have hrows := (IndirectBlock.of_read_eq_ok hread).1
      rcases ih with horigin | ⟨hblocks, hpending⟩
      · cases horigin
        refine ⟨fun b hb => ?_, fun _ htask => absurd htask List.not_mem_nil⟩
        obtain rfl := List.mem_singleton.mp hb
        rw [hrows]
        exact ⟨hroot.rows, Nat.le_refl _⟩
      · obtain ⟨hpos, -, hlt⟩ := hpending task (List.mem_cons_self ..)
        refine ⟨fun b hb => ?_, fun task' htask => hpending task' (List.mem_cons_of_mem _ htask)⟩
        rcases List.mem_cons.mp hb with rfl | hb
        · rw [hrows]
          exact ⟨hpos, Nat.le_of_lt hlt⟩
        · exact hblocks b hb
    | direct _ _ _ _ =>
      obtain ⟨hblocks, hpending⟩ := ih.resolve_left nofun
      exact ⟨hblocks, hpending⟩
    | leave _ =>
      obtain ⟨hblocks, hpending⟩ := ih.resolve_left nofun
      exact ⟨hblocks, hpending⟩
    | @indirect visited block slot child rows w hchild hsize hrows =>
      obtain ⟨hblocks, hpending⟩ := ih.resolve_left nofun
      have hmem : block ∈ (Point.inside visited block slot w).blocks := List.mem_cons_self ..
      have hread := hp.read block hmem
      have hlt := (childRows_lt_rows hread hchild hsize hrows).2
      have hroom := (IndirectBlock.of_read_eq_ok hread).2.1
      have hle := (hblocks block hmem).2
      refine ⟨hblocks, fun task htask => ?_⟩
      rcases List.mem_cons.mp htask with rfl | htask
      · exact ⟨DoublingTable.childRows_pos hrows, Nat.le_trans (Nat.le_of_lt hlt) hroom,
          Nat.lt_of_lt_of_le hlt hle⟩
      · exact hpending task htask

/-- **Every task that waits** has at least one row; if it is not the root, there is room for its
rows, and the root has more. -/
theorem pending_of_reached (hroot : IndirectRoot h root) {p : Point}
    (hp : Reached image h t root p) {task : Task} (htask : task ∈ p.walk.pending) :
    0 < task.rows ∧ (p = origin h root ∨
      task.rows ≤ h.table.maxRows ∧ task.rows < h.fields.rootRows) := by
  rcases bounded_of_reached hroot hp with rfl | hbounded
  · rw [List.mem_singleton.mp htask]
    exact ⟨hroot.rows, .inl rfl⟩
  · obtain ⟨hpos, hroom, hlt⟩ := hbounded.pending task htask
    exact ⟨hpos, .inr ⟨hroom, hlt⟩⟩

/-! ### Rows that are refused -/

/-- Whatever reads the bytes of a block finds them malformed only for being too few or too many for
a field. -/
theorem malformed_of_blockFault {kind : BlockKind} {address a : Nat} {fault : StructureFault}
    (he : BlockFault image h kind address (.malformed a fault)) :
    (∃ needed position remaining, fault = .truncated needed position remaining) ∨
      ∃ width, fault = .integerWidth width := by
  rcases he with ⟨⟨⟩⟩
  · exact .inl ⟨_, _, _, rfl⟩
  · exact .inr ⟨_, rfl⟩

theorem tooManyRows_of_fails {p : Point} {a r m : Nat}
    (hf : Fails image h t p (.malformed a (.tooManyRows r m))) :
    ∃ visited task rest index, p = .between visited ⟨task :: rest, index⟩ ∧ a = task.address ∧
      r = task.rows ∧ m = h.table.maxRows ∧ m < r := by
  cases hf with
  | @visit visited task rest index _ hread =>
    rcases fault_of_readIndirect hread with ⟨hlt, heq⟩ | hfault
    · cases heq
      exact ⟨visited, task, rest, index, rfl, rfl, rfl, rfl, hlt⟩
    · exact absurd (malformed_of_blockFault hfault) (by simp)
  | direct _ _ hread =>
    rcases fault_of_readDirect hread with heq | hfault
    · cases heq
    · exact absurd (malformed_of_blockFault hfault) (by simp)

theorem rowTooSmall_of_fails {p : Point} {a row : Nat}
    (hf : Fails image h t p (.malformed a (.rowTooSmall row))) :
    ∃ visited block slot w, p = .inside visited block slot w ∧ block.children[slot]? = some a ∧
      h.table.blockSize slot = .indirect ∧ h.table.childRows (h.table.rowOf slot) = none ∧
      row = h.table.rowOf slot := by
  cases hf with
  | visit hread =>
    rcases fault_of_readIndirect hread with ⟨-, heq⟩ | hfault
    · cases heq
    · exact absurd (malformed_of_blockFault hfault) (by simp)
  | direct _ _ hread =>
    rcases fault_of_readDirect hread with heq | hfault
    · cases heq
    · exact absurd (malformed_of_blockFault hfault) (by simp)
  | @tooSmall visited block slot _ w hchild hsize hrows =>
    exact ⟨visited, block, slot, w, rfl, hchild, hsize, hrows, rfl⟩

/-- **A cramped child** is what makes a walk fail for a row. -/
theorem fails_iff_cramped {visited : List IndirectBlock} {block : IndirectBlock}
    {slot a row : Nat} {w : Walk} (hp : Reached image h t root (.inside visited block slot w)) :
    Fails image h t (.inside visited block slot w) (.malformed a (.rowTooSmall row)) ↔
      Cramped h block slot a row := by
  have hread := hp.read block (List.mem_cons_self ..)
  constructor
  · intro hf
    obtain ⟨_, _, _, _, heq, hchild, hsize, hrows, rfl⟩ := rowTooSmall_of_fails hf
    cases heq
    have hdefined := ((children_of_read hread).2.1 slot a hchild).1
    obtain ⟨-, hbits⟩ := rowBits_lt_of_child hread hchild
    exact ⟨hchild, hdefined, hsize, rfl,
      (childRows_eq_none_iff (DoublingTable.two_le_rowOf hsize) hbits).mp hrows⟩
  · rintro ⟨hchild, -, hsize, rfl, hle⟩
    obtain ⟨-, hbits⟩ := rowBits_lt_of_child hread hchild
    exact .tooSmall hchild hsize
      ((childRows_eq_none_iff (DoublingTable.two_le_rowOf hsize) hbits).mpr hle)

theorem directBlocks_of_tooManyRows (haddress : h.root? = some root)
    (hlt : h.table.maxRows < h.fields.rootRows) (image : Image) :
    directBlocks image h
      = .fail (.malformed root (.tooManyRows h.fields.rootRows h.table.maxRows)) := by
  have hroot : IndirectRoot h root := ⟨haddress, by omega⟩
  rw [directBlocks_of_indirectRoot hroot, run_cons]
  unfold visit IndirectBlock.read
  rw [if_pos hlt]
  rfl

/-- **Only the root is refused for its rows.** -/
theorem directBlocks_eq_tooManyRows_iff {a rows m : Nat} :
    (directBlocks image h).result t = .error (.malformed a (.tooManyRows rows m)) ↔
      h.root? = some a ∧ rows = h.fields.rootRows ∧ m = h.table.maxRows ∧ m < rows := by
  constructor
  · intro hr
    cases directBlocks_eq_error_iff.mp hr with
    | directRoot _ _ hread =>
      rcases fault_of_readDirect hread with heq | hfault
      · cases heq
      · exact absurd (malformed_of_blockFault hfault) (by simp)
    | walk hroot hp hf =>
      obtain ⟨visited, task, rest, index, rfl, rfl, rfl, rfl, hlt⟩ := tooManyRows_of_fails hf
      rcases bounded_of_reached hroot hp with horigin | hbounded
      · cases horigin
        exact ⟨hroot.address, rfl, rfl, hlt⟩
      · obtain ⟨-, hroom, -⟩ := hbounded.pending task (List.mem_cons_self ..)
        omega
  · rintro ⟨haddress, rfl, rfl, hlt⟩
    rw [directBlocks_of_tooManyRows haddress hlt]
    rfl

/-- **Only a cramped child is refused for its row.** -/
theorem directBlocks_eq_rowTooSmall_iff {a row : Nat} :
    (directBlocks image h).result t = .error (.malformed a (.rowTooSmall row)) ↔
      ∃ root visited block slot w, IndirectRoot h root ∧
        Reached image h t root (.inside visited block slot w) ∧ Cramped h block slot a row := by
  rw [directBlocks_eq_error_iff]
  constructor
  · intro hfirst
    cases hfirst with
    | directRoot _ _ hread =>
      rcases fault_of_readDirect hread with heq | hfault
      · cases heq
      · exact absurd (malformed_of_blockFault hfault) (by simp)
    | @walk root p _ hroot hp hf =>
      obtain ⟨visited, block, slot, w, rfl, -⟩ := rowTooSmall_of_fails hf
      exact ⟨root, visited, block, slot, w, hroot, hp, (fails_iff_cramped hp).mp hf⟩
  · rintro ⟨root, visited, block, slot, w, hroot, hp, hcramped⟩
    exact .walk hroot hp ((fails_iff_cramped hp).mpr hcramped)

/-! ### The end of a walk -/

theorem steps_le {n : Nat} {f : Nat → Point} (hstart : f 0 = origin h root)
    (hsteps : ∀ i < n, Step image h t (f i) (f (i + 1))) :
    n ≤ (base h + 1) * base h ^ h.fields.rootRows := by
  have hreached : Reached image h t root (f 0) := by
    rw [hstart]
    exact .start
  have hle := (steps_le_rank hreached hsteps).2
  have hrank : rank h (origin h root) = (base h + 1) * base h ^ h.fields.rootRows := rfl
  rw [hstart, hrank] at hle
  exact Nat.le_of_add_right_le hle

theorem directBlocks_ends (hroot : IndirectRoot h root) :
    (∃ visited index, Reached image h t root (.between visited ⟨[], index⟩) ∧
        (directBlocks image h).result t = .ok index) ∨
      ∃ p e, Reached image h t root p ∧ Fails image h t p e ∧
        (directBlocks image h).result t = .error e := by
  have hstart : Reached image h t root (origin h root) := .start
  rcases hstart.ends with ⟨visited, index, hend⟩ | ⟨p, e, hp, hf⟩
  · exact .inl ⟨visited, index, hend, (directBlocks_eq_ok_iff_reached hroot).mpr ⟨visited, hend⟩⟩
  · exact .inr ⟨p, e, hp, hf, directBlocks_eq_error_iff.mpr (.walk hroot hp hf)⟩

/-- **Every walk terminates**, wherever the addresses in the image lead.

From an indirect root there is a bound for the steps of a walk, so it comes to an end. Every task
that waits has at least one row; if it is not the root, there is room for its rows, and the root has
more. A step leaves the tasks as they are, takes the first one away, or puts one in front that has
fewer rows than the block in which it was found.

Only the root is refused for its rows, before anything is read, and exactly if there is no room for
them; and the children that are refused for their row are those that have to be indirect blocks and
are in a row that is too small for one. -/
theorem walk_terminates (image : Image) (h : Header) (t : Level) :
    (∀ root, IndirectRoot h root →
      (∀ (n : Nat) (f : Nat → Point), f 0 = origin h root →
        (∀ i < n, Step image h t (f i) (f (i + 1))) →
          n ≤ (base h + 1) * base h ^ h.fields.rootRows) ∧
      ((∃ visited index, Reached image h t root (.between visited ⟨[], index⟩) ∧
          (directBlocks image h).result t = .ok index) ∨
        ∃ p e, Reached image h t root p ∧ Fails image h t p e ∧
          (directBlocks image h).result t = .error e) ∧
      (∀ p, Reached image h t root p → ∀ task ∈ p.walk.pending, 0 < task.rows ∧
        (p = origin h root ∨ task.rows ≤ h.table.maxRows ∧ task.rows < h.fields.rootRows)) ∧
      ∀ p q, Reached image h t root p → Step image h t p q →
        q.walk.pending = p.walk.pending ∨ (∃ task, p.walk.pending = task :: q.walk.pending) ∨
          ∃ visited block slot w task, p = .inside visited block slot w ∧
            q.walk.pending = task :: w.pending ∧ Deferred h block slot task) ∧
    (∀ a rows m, (directBlocks image h).result t = .error (.malformed a (.tooManyRows rows m)) ↔
      h.root? = some a ∧ rows = h.fields.rootRows ∧ m = h.table.maxRows ∧ m < rows) ∧
    (∀ root, h.root? = some root → h.table.maxRows < h.fields.rootRows → ∀ image',
      directBlocks image' h
        = .fail (.malformed root (.tooManyRows h.fields.rootRows h.table.maxRows))) ∧
    ∀ a row, (directBlocks image h).result t = .error (.malformed a (.rowTooSmall row)) ↔
      ∃ root visited block slot w, IndirectRoot h root ∧
        Reached image h t root (.inside visited block slot w) ∧ Cramped h block slot a row := by
  refine ⟨fun root hroot => ⟨fun n f => steps_le, directBlocks_ends hroot, ?_, ?_⟩, ?_, ?_, ?_⟩
  · exact fun p hp task htask => pending_of_reached hroot hp htask
  · exact fun p q => pending_of_step
  · exact fun a rows m => directBlocks_eq_tooManyRows_iff
  · exact fun root => directBlocks_of_tooManyRows
  · exact fun a row => directBlocks_eq_rowTooSmall_iff

/-- An image whose root has itself among its children, after two direct blocks. -/
def looping : Image :=
  written [⟨0, (smallHeader 41 3).fields.encode narrow⟩,
    ⟨41, IndirectBlock.encode (smallHeader 41 3) ⟨41, 0, 3, [51, 59, 41]⟩⟩,
    ⟨51, DirectBlock.encode (smallHeader 41 3) 0 [] [1]⟩,
    ⟨59, DirectBlock.encode (smallHeader 41 3) 8 [] [2]⟩]

theorem looping_root : IndirectRoot (smallHeader 41 3) 41 := ⟨rfl, by decide⟩

/-- The walk through a block that leads back to itself ends. -/
theorem looping_walk_ends :
    IndirectRoot (smallHeader 41 3) 41 ∧
      ∃ p e, Reached looping (smallHeader 41 3) .trace 41 p ∧
        Fails looping (smallHeader 41 3) .trace p e ∧
        (directBlocks looping (smallHeader 41 3)).result .trace = .error e := by
  have hfail : ((directBlocks looping (smallHeader 41 3)).result .trace).isOk = false := by
    decide +kernel
  obtain ⟨hwalk, -⟩ := walk_terminates looping (smallHeader 41 3) .trace
  obtain ⟨-, hends, -⟩ := hwalk 41 looping_root
  rcases hends with ⟨_, _, -, hok⟩ | hends
  · rw [hok] at hfail
    cases hfail
  · exact ⟨looping_root, hends⟩

end DoublingHeap.Proofs.Termination
