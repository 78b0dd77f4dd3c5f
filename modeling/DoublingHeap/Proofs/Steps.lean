import DoublingHeap.Proofs.Children
import DoublingHeap.Proofs.Descent
import DoublingHeap.Proofs.Faults

/-! # A walk step by step

A walk goes from point to point (`Step`): it reads the block of the task that waits in front, takes
in the children of that block one after the other in slot order, the direct ones by reading them,
the indirect ones by putting them in front of what waits, and leaves the block after its last child.
Where it cannot take a step, and something is left to do, it fails (`Fails`). A `Point` also knows
which indirect blocks have been visited, so that one can speak of a second visit.

What a run gives does not change along the steps (`outcome_of_step`), and there are no more steps
than the `rank` of the point where they start (`steps_le_rank`), so every run goes to a point where
nothing is left to do or to one where it fails: `run_eq_ok_iff_reached` and
`run_eq_error_iff_reached`. -/

namespace DoublingHeap.Proofs.Steps

open DoublingHeap.Walk
open DoublingHeap.Proofs.Blocks DoublingHeap.Proofs.Index DoublingHeap.Proofs.Visits
open DoublingHeap.Proofs.Children DoublingHeap.Proofs.Descent DoublingHeap.Proofs.Faults

attribute [local instance (high)] instPowNat

variable {image : Image} {h : Header} {t : Level}

/-! ### Points and steps -/

/-- Where a walk is, and the indirect blocks that it has visited, the last one first. -/
inductive Point where
  /-- The next task is about to be visited. -/
  | between (visited : List IndirectBlock) (walk : Walk)
  /-- The block is being visited, and the child in the slot is next. -/
  | inside (visited : List IndirectBlock) (block : IndirectBlock) (slot : Nat) (walk : Walk)

namespace Point

/-- The walk at a point. -/
def walk : Point → Walk
  | between _ w => w
  | inside _ _ _ w => w

/-- All indirect blocks that have been read. -/
def blocks : Point → List IndirectBlock
  | between visited _ => visited
  | inside visited block _ _ => block :: visited

end Point

/-- One step of a walk. -/
inductive Step (image : Image) (h : Header) (t : Level) : Point → Point → Prop where
  /-- The block of the next task is read. -/
  | visit {visited : List IndirectBlock} {task : Task} {rest : List Task} {index : BlockIndex}
      {block : IndirectBlock}
      (hread : IndirectBlock.read image h task.address task.rows = .ok block) :
      Step image h t (.between visited ⟨task :: rest, index⟩)
        (.inside visited block 0 ⟨rest, index⟩)
  /-- A direct child is read and indexed. -/
  | direct {visited : List IndirectBlock} {block : IndirectBlock} {slot child size : Nat}
      {w : Walk} {b : DirectBlock} {index : BlockIndex}
      (hchild : block.children[slot]? = some child)
      (hsize : h.table.blockSize slot = .direct size)
      (hread : (DirectBlock.read image h child size).result t = .ok b)
      (hfree : w.index.insert b = .ok index) :
      Step image h t (.inside visited block slot w)
        (.inside visited block (slot + 1) ⟨w.pending, index⟩)
  /-- An indirect child has to wait. -/
  | indirect {visited : List IndirectBlock} {block : IndirectBlock} {slot child rows : Nat}
      {w : Walk}
      (hchild : block.children[slot]? = some child)
      (hsize : h.table.blockSize slot = .indirect)
      (hrows : h.table.childRows (h.table.rowOf slot) = some rows) :
      Step image h t (.inside visited block slot w)
        (.inside visited block (slot + 1) ⟨⟨child, rows⟩ :: w.pending, w.index⟩)
  /-- A block without further children is left. -/
  | leave {visited : List IndirectBlock} {block : IndirectBlock} {slot : Nat} {w : Walk}
      (hchild : block.children[slot]? = none) :
      Step image h t (.inside visited block slot w) (.between (block :: visited) w)

/-- The walk cannot go on, and this is why. -/
inductive Fails (image : Image) (h : Header) (t : Level) : Point → HeapError → Prop where
  /-- The block of the next task cannot be read. -/
  | visit {visited : List IndirectBlock} {task : Task} {rest : List Task} {index : BlockIndex}
      {e : HeapError} (hread : IndirectBlock.read image h task.address task.rows = .error e) :
      Fails image h t (.between visited ⟨task :: rest, index⟩) e
  /-- A direct child cannot be read. -/
  | direct {visited : List IndirectBlock} {block : IndirectBlock} {slot child size : Nat}
      {w : Walk} {e : HeapError}
      (hchild : block.children[slot]? = some child)
      (hsize : h.table.blockSize slot = .direct size)
      (hread : (DirectBlock.read image h child size).result t = .error e) :
      Fails image h t (.inside visited block slot w) e
  /-- The heap offset of a direct child is taken. -/
  | taken {visited : List IndirectBlock} {block : IndirectBlock} {slot child size : Nat}
      {w : Walk} {b holder : DirectBlock}
      (hchild : block.children[slot]? = some child)
      (hsize : h.table.blockSize slot = .direct size)
      (hread : (DirectBlock.read image h child size).result t = .ok b)
      (htaken : w.index.insert b = .error holder) :
      Fails image h t (.inside visited block slot w)
        (.malformed child (.offsetTaken b.offset holder.address))
  /-- The slot of an indirect child is too small for a block. -/
  | tooSmall {visited : List IndirectBlock} {block : IndirectBlock} {slot child : Nat} {w : Walk}
      (hchild : block.children[slot]? = some child)
      (hsize : h.table.blockSize slot = .indirect)
      (hrows : h.table.childRows (h.table.rowOf slot) = none) :
      Fails image h t (.inside visited block slot w)
        (.malformed child (.rowTooSmall (h.table.rowOf slot)))

/-- The point before anything is read: the root waits. -/
def origin (h : Header) (root : Nat) : Point := .between [] ⟨[⟨root, h.fields.rootRows⟩], .empty⟩

/-- The points of the walk from the root. -/
inductive Reached (image : Image) (h : Header) (t : Level) (root : Nat) : Point → Prop where
  | start : Reached image h t root (origin h root)
  | step {p q : Point} (hp : Reached image h t root p) (hs : Step image h t p q) :
      Reached image h t root q

/-! ### What a run gives -/

/-- What the run from a point gives. -/
def outcome (image : Image) (h : Header) (t : Level) : Point → Except HeapError BlockIndex
  | .between _ w => (run image h w).result t
  | .inside _ block slot w =>
    (enterAll image h slot (block.children.drop slot) w >>= run image h).result t

theorem outcome_between_cons {visited : List IndirectBlock} {task : Task} {rest : List Task}
    {index : BlockIndex} :
    outcome image h t (.between visited ⟨task :: rest, index⟩)
      = (IndirectBlock.read image h task.address task.rows).bind fun block =>
          outcome image h t (.inside visited block 0 ⟨rest, index⟩) := by
  simp only [outcome]
  rw [run_cons, Logged.result_bind]
  unfold Walk.visit
  rw [Logged.result_bind, result_lift]
  cases IndirectBlock.read image h task.address task.rows with
  | error e => rfl
  | ok block =>
    simp only [Except.bind, List.drop_zero, Logged.result_bind, Logged.result_emit]

theorem outcome_inside_child {visited : List IndirectBlock} {block : IndirectBlock}
    {slot child : Nat} {w : Walk} (hchild : block.children[slot]? = some child) :
    outcome image h t (.inside visited block slot w)
      = ((enter image h slot child w).result t).bind fun w' =>
          outcome image h t (.inside visited block (slot + 1) w') := by
  obtain ⟨hlt, rfl⟩ := List.getElem?_eq_some_iff.mp hchild
  simp only [outcome]
  rw [List.drop_eq_getElem_cons hlt, enterAll, bind_assoc, Logged.result_bind]

theorem outcome_inside_end {visited : List IndirectBlock} {block : IndirectBlock} {slot : Nat}
    {w : Walk} (hchild : block.children[slot]? = none) :
    outcome image h t (.inside visited block slot w)
      = outcome image h t (.between (block :: visited) w) := by
  simp only [outcome]
  rw [List.drop_eq_nil_of_le (List.getElem?_eq_none_iff.mp hchild), enterAll, pure_bind]

/-- **A step does not change what a run gives.** -/
theorem outcome_of_step {p q : Point} (hs : Step image h t p q) :
    outcome image h t p = outcome image h t q := by
  cases hs with
  | visit hread => rw [outcome_between_cons, hread, Except.bind]
  | @direct _ _ slot child _ w _ index hchild hsize hread hfree =>
    have henter : (enter image h slot child w).result t = .ok ⟨w.pending, index⟩ :=
      (enter_direct_iff hsize).mpr ⟨_, hread, rfl, hfree⟩
    rw [outcome_inside_child hchild, henter, Except.bind]
  | @indirect _ _ slot child rows w hchild hsize hrows =>
    have henter : (enter image h slot child w).result t
        = .ok ⟨⟨child, rows⟩ :: w.pending, w.index⟩ :=
      (enter_indirect_iff hsize).mpr ⟨_, hrows, rfl⟩
    rw [outcome_inside_child hchild, henter, Except.bind]
  | leave hchild => exact outcome_inside_end hchild

theorem outcome_of_fails {p : Point} {e : HeapError} (hf : Fails image h t p e) :
    outcome image h t p = .error e := by
  cases hf with
  | visit hread => rw [outcome_between_cons, hread, Except.bind]
  | @direct _ _ slot child size w _ hchild hsize hread =>
    have henter : (enter image h slot child w).result t = .error e := by
      unfold enter
      simp only [hsize, Logged.result_bind, hread, Except.bind]
    rw [outcome_inside_child hchild, henter, Except.bind]
  | @taken _ _ slot child size w b holder hchild hsize hread htaken =>
    have henter : (enter image h slot child w).result t
        = .error (.malformed child (.offsetTaken b.offset holder.address)) := by
      unfold enter
      simp only [hsize, Logged.result_bind, hread, Except.bind, htaken]
      rfl
    rw [outcome_inside_child hchild, henter, Except.bind]
  | @tooSmall _ _ slot child w hchild hsize hrows =>
    have henter : (enter image h slot child w).result t
        = .error (.malformed child (.rowTooSmall (h.table.rowOf slot))) := by
      unfold enter
      simp only [hsize, hrows]
      rfl
    rw [outcome_inside_child hchild, henter, Except.bind]

/-- **A walk goes on** until it fails or nothing is left to do. -/
theorem progress (image : Image) (h : Header) (t : Level) (p : Point) :
    (∃ visited index, p = .between visited ⟨[], index⟩) ∨ (∃ q, Step image h t p q) ∨
      ∃ e, Fails image h t p e := by
  cases p with
  | between visited w =>
    rcases w with ⟨_ | ⟨task, rest⟩, index⟩
    · exact .inl ⟨visited, index, rfl⟩
    · right
      cases hread : IndirectBlock.read image h task.address task.rows with
      | ok block => exact .inl ⟨_, .visit hread⟩
      | error e => exact .inr ⟨e, .visit hread⟩
  | inside visited block slot w =>
    right
    cases hchild : block.children[slot]? with
    | none => exact .inl ⟨_, .leave hchild⟩
    | some child =>
      cases hsize : h.table.blockSize slot with
      | direct size =>
        cases hread : (DirectBlock.read image h child size).result t with
        | error e => exact .inr ⟨e, .direct hchild hsize hread⟩
        | ok b =>
          cases hins : w.index.insert b with
          | ok index => exact .inl ⟨_, .direct hchild hsize hread hins⟩
          | error holder => exact .inr ⟨_, .taken hchild hsize hread hins⟩
      | indirect =>
        cases hrows : h.table.childRows (h.table.rowOf slot) with
        | some rows => exact .inl ⟨_, .indirect hchild hsize hrows⟩
        | none => exact .inr ⟨_, .tooSmall hchild hsize hrows⟩

/-! ### Blocks on the way -/

theorem blocks_of_step {p q : Point} (hs : Step image h t p q) {b : IndirectBlock}
    (hb : b ∈ q.blocks) :
    b ∈ p.blocks ∨ IndirectBlock.read image h b.address b.rows = .ok b := by
  cases hs with
  | @visit _ task _ _ block hread =>
    rcases List.mem_cons.mp hb with rfl | hb
    · have hrows := (IndirectBlock.of_read_eq_ok hread).1
      have haddress := (children_of_read hread).1
      rw [← hrows, ← haddress] at hread
      exact .inr hread
    · exact .inl hb
  | direct _ _ _ _ => exact .inl hb
  | indirect _ _ _ => exact .inl hb
  | leave _ => exact .inl hb

/-- **The blocks on the way** have been read, each with its own rows. -/
theorem Reached.read {root : Nat} {p : Point} (hp : Reached image h t root p) :
    ∀ b ∈ p.blocks, IndirectBlock.read image h b.address b.rows = .ok b := by
  induction hp with
  | start => exact fun _ hb => absurd hb List.not_mem_nil
  | step _ hs ih =>
    intro b hb
    rcases blocks_of_step hs hb with hb | hread
    · exact ih b hb
    · exact hread

/-! ### The number of steps -/

/-- An upper bound for the steps from a point. A slot still to be taken in stands for a task with
one row less than its block, which is more than it can add to what waits. -/
def rank (h : Header) : Point → Nat
  | .between _ w => (base h + 1) * weight h w.pending
  | .inside _ block slot w =>
    (base h + 1) * (weight h w.pending
        + (block.children.length - slot) * base h ^ (block.rows - 1))
      + (block.children.length - slot) + 1

theorem weight_cons (task : Task) (rest : List Task) :
    weight h (task :: rest) = base h ^ task.rows + weight h rest := rfl

theorem childRows_lt_rows {block : IndirectBlock} {slot child rows : Nat}
    (hread : IndirectBlock.read image h block.address block.rows = .ok block)
    (hchild : block.children[slot]? = some child)
    (hsize : h.table.blockSize slot = .indirect)
    (hrows : h.table.childRows (h.table.rowOf slot) = some rows) :
    h.table.rowOf slot < block.rows ∧ rows < block.rows := by
  have hlt : slot < block.children.length := (List.getElem?_eq_some_iff.mp hchild).1
  have hlen := (IndirectBlock.of_read_eq_ok hread).2.2
  have hrow : h.table.rowOf slot < block.rows := rowOf_lt (Nat.lt_of_lt_of_le hlt hlen)
  exact ⟨hrow, DoublingTable.childRows_lt hrows (DoublingTable.two_le_rowOf hsize) hrow⟩

/-- The children of a block weigh less than its task, each taken as a task with one row less. -/
theorem children_lt_task {block : IndirectBlock} {address rows : Nat}
    (hread : IndirectBlock.read image h address rows = .ok block) :
    block.children.length < base h ∧
      block.children.length * base h ^ (block.rows - 1) < base h ^ rows := by
  obtain ⟨hrows, hmax, hlen⟩ := IndirectBlock.of_read_eq_ok hread
  have hcount : block.children.length < base h :=
    Nat.lt_succ_of_le (Nat.le_trans hlen (Nat.mul_le_mul_right _ hmax))
  refine ⟨hcount, ?_⟩
  rw [hrows]
  cases rows with
  | zero =>
    unfold IndirectBlock.slots at hlen
    rw [Nat.zero_mul, Nat.le_zero] at hlen
    rw [hlen, Nat.zero_mul]
    exact Nat.pow_pos (base_pos h)
  | succ rows =>
    rw [Nat.add_sub_cancel, Nat.pow_succ, Nat.mul_comm (base h ^ rows)]
    exact Nat.mul_lt_mul_of_pos_right hcount (Nat.pow_pos (base_pos h))

/-- **Every step lowers the rank.** -/
theorem rank_lt_of_step {p q : Point}
    (hread : ∀ b ∈ p.blocks, IndirectBlock.read image h b.address b.rows = .ok b)
    (hs : Step image h t p q) : rank h q < rank h p := by
  cases hs with
  | @visit _ task rest _ block hblock =>
    obtain ⟨hcount, hless⟩ := children_lt_task hblock
    have hsum : weight h rest + block.children.length * base h ^ (block.rows - 1) + 1
        ≤ weight h (task :: rest) := by
      rw [weight_cons]
      omega
    have hmul := Nat.mul_le_mul_left (base h + 1) hsum
    rw [Nat.mul_succ] at hmul
    simp only [rank, Nat.sub_zero]
    omega
  | @direct _ block slot _ _ w _ _ hchild _ _ _ =>
    have hlt : slot < block.children.length := (List.getElem?_eq_some_iff.mp hchild).1
    have hmul : (block.children.length - (slot + 1)) * base h ^ (block.rows - 1)
        ≤ (block.children.length - slot) * base h ^ (block.rows - 1) :=
      Nat.mul_le_mul_right _ (by omega)
    have hall := Nat.mul_le_mul_left (base h + 1) (Nat.add_le_add_left hmul (weight h w.pending))
    exact Nat.add_lt_add_right (Nat.add_lt_add_of_le_of_lt hall (by omega)) 1
  | @indirect _ block slot child rows w hchild hsize hrows =>
    have hlt : slot < block.children.length := (List.getElem?_eq_some_iff.mp hchild).1
    obtain ⟨-, hfewer⟩ :=
      childRows_lt_rows (hread block (List.mem_cons_self ..)) hchild hsize hrows
    have hpow : base h ^ rows ≤ base h ^ (block.rows - 1) :=
      Nat.pow_le_pow_right (base_pos h) (by omega)
    have hone : (block.children.length - slot) * base h ^ (block.rows - 1)
        = (block.children.length - (slot + 1)) * base h ^ (block.rows - 1)
          + base h ^ (block.rows - 1) := by
      rw [← Nat.succ_mul]
      congr 1
      omega
    have hsum : weight h (⟨child, rows⟩ :: w.pending)
          + (block.children.length - (slot + 1)) * base h ^ (block.rows - 1)
        ≤ weight h w.pending + (block.children.length - slot) * base h ^ (block.rows - 1) := by
      rw [hone, weight_cons]
      simp only
      omega
    have hall := Nat.mul_le_mul_left (base h + 1) hsum
    exact Nat.add_lt_add_right (Nat.add_lt_add_of_le_of_lt hall (by omega)) 1
  | @leave _ block slot w hchild =>
    have hnone : block.children.length - slot = 0 :=
      Nat.sub_eq_zero_of_le (List.getElem?_eq_none_iff.mp hchild)
    simp only [rank]
    rw [hnone, Nat.zero_mul, Nat.add_zero, Nat.add_zero]
    exact Nat.lt_succ_self _

/-- **There are no more steps than the rank** of the point where they start. -/
theorem steps_le_rank {root n : Nat} {f : Nat → Point} (hreached : Reached image h t root (f 0))
    (hsteps : ∀ i < n, Step image h t (f i) (f (i + 1))) :
    Reached image h t root (f n) ∧ n + rank h (f n) ≤ rank h (f 0) := by
  induction n with
  | zero => exact ⟨hreached, Nat.le_of_eq (Nat.zero_add _)⟩
  | succ n ih =>
    obtain ⟨hn, hle⟩ := ih fun i hi => hsteps i (Nat.lt_succ_of_lt hi)
    have hstep := hsteps n (Nat.lt_succ_self n)
    have hlt := rank_lt_of_step hn.read hstep
    exact ⟨hn.step hstep, by omega⟩

/-! ### Where a run ends -/

theorem Reached.outcome_eq {root : Nat} {p : Point} (hp : Reached image h t root p) :
    outcome image h t p = outcome image h t (origin h root) := by
  induction hp with
  | start => rfl
  | step _ hs ih => rw [← outcome_of_step hs, ih]

/-- **Every walk ends**, at a point where nothing is left to do or at one where it fails. -/
theorem Reached.ends {root : Nat} {p : Point} (hp : Reached image h t root p) :
    (∃ visited index, Reached image h t root (.between visited ⟨[], index⟩)) ∨
      ∃ q e, Reached image h t root q ∧ Fails image h t q e := by
  induction hn : rank h p using Nat.strongRecOn generalizing p with
  | ind n ih =>
    subst hn
    rcases progress image h t p with ⟨visited, index, rfl⟩ | ⟨q, hs⟩ | ⟨e, hf⟩
    · exact .inl ⟨visited, index, hp⟩
    · exact ih _ (rank_lt_of_step hp.read hs) (hp.step hs) rfl
    · exact .inr ⟨p, e, hp, hf⟩

theorem outcome_of_done {visited : List IndirectBlock} {index : BlockIndex} :
    outcome image h t (.between visited ⟨[], index⟩) = .ok index := by
  simp only [outcome]
  rw [run_nil, Logged.result_pure]

theorem run_eq_ok_iff_reached {root : Nat} {index : BlockIndex} :
    (run image h ⟨[⟨root, h.fields.rootRows⟩], .empty⟩).result t = .ok index ↔
      ∃ visited, Reached image h t root (.between visited ⟨[], index⟩) := by
  show outcome image h t (origin h root) = _ ↔ _
  constructor
  · intro hr
    have hstart : Reached image h t root (origin h root) := .start
    rcases hstart.ends with ⟨visited, index', hend⟩ | ⟨q, e, hq, hf⟩
    · have hsame := hend.outcome_eq
      rw [outcome_of_done, hr, Except.ok.injEq] at hsame
      rw [hsame] at hend
      exact ⟨visited, hend⟩
    · have hsame := hq.outcome_eq
      rw [outcome_of_fails hf, hr] at hsame
      cases hsame
  · rintro ⟨visited, hend⟩
    rw [← hend.outcome_eq, outcome_of_done]

theorem run_eq_error_iff_reached {root : Nat} {e : HeapError} :
    (run image h ⟨[⟨root, h.fields.rootRows⟩], .empty⟩).result t = .error e ↔
      ∃ p, Reached image h t root p ∧ Fails image h t p e := by
  show outcome image h t (origin h root) = _ ↔ _
  constructor
  · intro hr
    have hstart : Reached image h t root (origin h root) := .start
    rcases hstart.ends with ⟨visited, index, hend⟩ | ⟨q, e', hq, hf⟩
    · have hsame := hend.outcome_eq
      rw [outcome_of_done, hr] at hsame
      cases hsame
    · have hsame := hq.outcome_eq
      rw [outcome_of_fails hf, hr, Except.error.injEq] at hsame
      rw [hsame] at hf
      exact ⟨q, hq, hf⟩
  · rintro ⟨p, hp, hf⟩
    rw [← hp.outcome_eq, outcome_of_fails hf]

/-! ### Heaps with an indirect root -/

/-- The root of the heap is an indirect block at this address. -/
structure IndirectRoot (h : Header) (root : Nat) : Prop where
  address : h.root? = some root
  rows : 0 < h.fields.rootRows

theorem directBlocks_of_indirectRoot {root : Nat} (hroot : IndirectRoot h root) :
    directBlocks image h = run image h ⟨[⟨root, h.fields.rootRows⟩], .empty⟩ := by
  unfold directBlocks
  simp only [hroot.address, Nat.ne_of_gt hroot.rows, if_false]

theorem directBlocks_eq_ok_iff_reached {root : Nat} (hroot : IndirectRoot h root)
    {index : BlockIndex} :
    (directBlocks image h).result t = .ok index ↔
      ∃ visited, Reached image h t root (.between visited ⟨[], index⟩) := by
  rw [directBlocks_of_indirectRoot hroot, run_eq_ok_iff_reached]

/-- The first step that fails on the way to the direct blocks of a heap fails for this reason. -/
inductive FirstFailure (image : Image) (h : Header) (t : Level) : HeapError → Prop where
  /-- The root is a direct block and cannot be read. -/
  | directRoot {root : Nat} {e : HeapError} (hroot : h.root? = some root)
      (hrows : h.fields.rootRows = 0)
      (hread : (DirectBlock.read image h root h.table.startingSize).result t = .error e) :
      FirstFailure image h t e
  /-- The walk from the root comes to a point where it fails. -/
  | walk {root : Nat} {p : Point} {e : HeapError} (hroot : IndirectRoot h root)
      (hp : Reached image h t root p) (hf : Fails image h t p e) : FirstFailure image h t e

/-- **The blocks of a heap are not found** exactly if a step on the way fails, and the first one
that does says why. -/
theorem directBlocks_eq_error_iff {e : HeapError} :
    (directBlocks image h).result t = .error e ↔ FirstFailure image h t e := by
  constructor
  · intro hr
    cases haddress : h.root? with
    | none =>
      unfold directBlocks at hr
      rw [haddress] at hr
      cases hr
    | some root =>
      by_cases hrows : h.fields.rootRows = 0
      · unfold directBlocks at hr
        simp only [haddress, hrows, if_true] at hr
        rcases result_bind_eq_error.mp hr with hread | ⟨_, -, hpure⟩
        · exact .directRoot haddress hrows hread
        · cases hpure
      · have hroot : IndirectRoot h root := ⟨haddress, Nat.pos_of_ne_zero hrows⟩
        rw [directBlocks_of_indirectRoot hroot, run_eq_error_iff_reached] at hr
        obtain ⟨p, hp, hf⟩ := hr
        exact .walk hroot hp hf
  · intro hfirst
    cases hfirst with
    | directRoot haddress hrows hread =>
      unfold directBlocks
      simp only [haddress, hrows, if_true]
      exact result_bind_eq_error.mpr (.inl hread)
    | walk hroot hp hf =>
      rw [directBlocks_of_indirectRoot hroot, run_eq_error_iff_reached]
      exact ⟨_, hp, hf⟩

theorem directBlocks_of_visit_error {root : Nat} (hroot : IndirectRoot h root)
    {visited : List IndirectBlock} {task : Task} {rest : List Task} {index : BlockIndex}
    {e : HeapError} (hp : Reached image h t root (.between visited ⟨task :: rest, index⟩))
    (hv : (visit image h task ⟨rest, index⟩).result t = .error e) :
    (directBlocks image h).result t = .error e := by
  rw [directBlocks_of_indirectRoot hroot]
  show outcome image h t (origin h root) = .error e
  rw [← hp.outcome_eq]
  simp only [outcome]
  rw [run_cons, Logged.result_bind, hv, Except.bind]

/-- **A heap is not loaded** exactly if its header is not read or a step of the walk from there
fails; the error names the heap and has the first failure for its source. -/
theorem load_eq_error_iff {s : Superblock} {address : Nat} {options : Heap.Options}
    {e : HeapError} :
    (Heap.load image s address options).result t = .error e ↔
      ∃ source, e = .opening address source ∧
        ((Header.read image s address).result t = .error source ∨
          ∃ header, (Header.read image s address).result t = .ok header ∧
            FirstFailure image header t source) := by
  unfold Heap.load
  simp only [result_bind_eq_error, Logged.result_mapError, mapError_eq_error_iff,
    mapError_eq_ok_iff, directBlocks_eq_error_iff]
  constructor
  · rintro (⟨source, hheader, rfl⟩ | ⟨header, hheader, ⟨source, hfirst, rfl⟩ | ⟨_, -, hemit⟩⟩)
    · exact ⟨source, rfl, .inl hheader⟩
    · exact ⟨source, rfl, .inr ⟨header, hheader, hfirst⟩⟩
    · rcases hemit with hemit | ⟨_, -, hpure⟩
      · cases hemit
      · cases hpure
  · rintro ⟨source, rfl, hheader | ⟨header, hheader, hfirst⟩⟩
    · exact .inl ⟨source, hheader, rfl⟩
    · exact .inr ⟨header, hheader, .inl ⟨source, hfirst, rfl⟩⟩

end DoublingHeap.Proofs.Steps
