import DoublingHeap.IndirectBlock
import DoublingHeap.BlockIndex

/-! # Walking the blocks of a heap

The direct blocks of a heap hang off a tree of indirect blocks. A `Walk` keeps the indirect blocks
that are still to be visited, next first, and the index of the direct blocks found so far. Visiting
an indirect block (`visit`) reads its direct children at once, in slot order, and puts its indirect
children in front of those that wait. `run` visits until nothing waits.

The addresses come from the file and may lead anywhere, back to a block above included. The walk
ends all the same: a child has fewer rows than its parent (`DoublingTable.childRows_lt`), so every
visit lowers the `weight` of what waits (`weight_visit_lt`). -/

namespace DoublingHeap

attribute [local instance (high)] instPowNat

/-- An indirect block to be visited: its file address and its number of rows. -/
structure Walk.Task where
  address : Nat
  rows : Nat
deriving DecidableEq, Repr

/-- A walk under way. -/
structure Walk where
  /-- The indirect blocks to be visited, next first. -/
  pending : List Walk.Task
  /-- The direct blocks found so far. -/
  index : BlockIndex

namespace Walk

/-- Takes in the child in one slot: a direct block is read and indexed, an indirect one has to
wait. -/
def enter (image : Image) (h : Header) (slot child : Nat) (w : Walk) : Logged Walk :=
  match h.table.blockSize slot with
  | .direct size => do
    let block ← DirectBlock.read image h child size
    match w.index.insert block with
    | .ok index => return ⟨w.pending, index⟩
    | .error holder => .fail (.malformed child (.offsetTaken block.offset holder.address))
  | .indirect =>
    match h.table.childRows (h.table.rowOf slot) with
    | some rows => return ⟨⟨child, rows⟩ :: w.pending, w.index⟩
    | none => .fail (.malformed child (.rowTooSmall (h.table.rowOf slot)))

/-- Takes in the children in the slots from `slot` on, in order. -/
def enterAll (image : Image) (h : Header) : Nat → List Nat → Walk → Logged Walk
  | _, [], w => return w
  | slot, child :: rest, w => do
    let w ← enter image h slot child w
    enterAll image h (slot + 1) rest w

/-- Reads the indirect block of a task and takes in its children. -/
def visit (image : Image) (h : Header) (task : Task) (w : Walk) : Logged Walk := do
  let block ← IndirectBlock.read image h task.address task.rows
  Logged.emit (.indirectBlockRead task.address block.offset block.rows block.children.length)
  enterAll image h 0 block.children w

/-! ### Every visit lowers the weight -/

/-- More than the number of slots of any indirect block that can be read. -/
def base (h : Header) : Nat := h.table.maxRows * h.table.width + 1

/-- The weight of tasks: a task weighs more than all that its block can add. -/
def weight (h : Header) : List Task → Nat
  | [] => 0
  | task :: rest => base h ^ task.rows + weight h rest

theorem base_pos (h : Header) : 0 < base h := Nat.succ_pos _

/-- A child adds at most the weight of a task with one row less than its parent. -/
theorem weight_enter_le {image : Image} {h : Header} {slot child rows : Nat} {w w' : Walk}
    {t : Level} (hslot : h.table.rowOf slot ≤ rows)
    (hr : (enter image h slot child w).result t = .ok w') :
    weight h w'.pending ≤ weight h w.pending + base h ^ rows := by
  unfold enter at hr
  split at hr
  · rw [Logged.result_bind_eq_ok] at hr
    obtain ⟨block, -, hr⟩ := hr
    split at hr
    · cases hr
      exact Nat.le_add_right ..
    · cases hr
  · rename_i hsize
    split at hr
    · rename_i k hk
      cases hr
      have hlt := DoublingTable.childRows_lt hk (DoublingTable.two_le_rowOf hsize)
        (Nat.lt_succ_of_le hslot)
      have hpow : base h ^ k ≤ base h ^ rows :=
        Nat.pow_le_pow_right (base_pos h) (Nat.le_of_lt_succ hlt)
      simp only [weight]
      omega
    · cases hr

theorem weight_enterAll_le {image : Image} {h : Header} (rows : Nat) {t : Level} :
    ∀ {children : List Nat} {slot : Nat} {w w' : Walk},
      slot + children.length ≤ (rows + 1) * h.table.width →
      (enterAll image h slot children w).result t = .ok w' →
      weight h w'.pending ≤ weight h w.pending + children.length * base h ^ rows
  | [], slot, w, w', _, hr => by
    cases hr
    simp
  | child :: rest, slot, w, w', hlen, hr => by
    rw [enterAll, Logged.result_bind_eq_ok] at hr
    obtain ⟨w₁, h₁, hr⟩ := hr
    rw [List.length_cons] at hlen
    have hslot : h.table.rowOf slot ≤ rows := by
      have : slot / h.table.width < rows + 1 := Nat.div_lt_of_lt_mul (by rw [Nat.mul_comm]; omega)
      exact Nat.le_of_lt_succ this
    have hfirst := weight_enter_le hslot h₁
    have hrest := weight_enterAll_le rows (by omega) hr
    rw [List.length_cons, Nat.succ_mul]
    omega

/-- What waits after a visit weighs less than what waited before. -/
theorem weight_visit_lt {image : Image} {h : Header} {task : Task} {rest : List Task}
    {index : BlockIndex} {w : Walk} {t : Level}
    (hr : (visit image h task ⟨rest, index⟩).result t = .ok w) :
    weight h w.pending < weight h (task :: rest) := by
  unfold visit at hr
  rw [Logged.result_bind_eq_ok] at hr
  obtain ⟨block, hread, hr⟩ := hr
  rw [Logged.result_bind_eq_ok] at hr
  obtain ⟨-, -, hr⟩ := hr
  obtain ⟨-, hrows, hlen⟩ := IndirectBlock.of_read_eq_ok hread
  unfold IndirectBlock.slots at hlen
  simp only [weight]
  rcases hzero : task.rows with _ | rows
  · rw [hzero, Nat.zero_mul, Nat.le_zero, List.length_eq_zero_iff] at hlen
    rw [hlen] at hr
    cases hr
    simp
  · rw [hzero] at hlen hrows
    have hle : weight h w.pending ≤ weight h rest + block.children.length * base h ^ rows :=
      weight_enterAll_le rows (by omega) hr
    have hcount : block.children.length < base h :=
      Nat.lt_succ_of_le (Nat.le_trans hlen (Nat.mul_le_mul_right _ hrows))
    have hmul : block.children.length * base h ^ rows < base h ^ (rows + 1) := by
      rw [Nat.pow_succ, Nat.mul_comm (base h ^ rows)]
      exact Nat.mul_lt_mul_of_pos_right hcount (Nat.pow_pos (base_pos h))
    omega

/-! ### The whole walk -/

/-- Visits until nothing waits and gives the index of all direct blocks found. -/
def run (image : Image) (h : Header) : Walk → Logged BlockIndex
  | ⟨[], index⟩, _ => ([], .ok index)
  | ⟨task :: rest, index⟩, t =>
    match hv : visit image h task ⟨rest, index⟩ t with
    | (events, .error e) => (events, .error e)
    | (events, .ok w) =>
      have : weight h w.pending < weight h (task :: rest) := weight_visit_lt (congrArg Prod.snd hv)
      let (more, r) := run image h w t
      (events ++ more, r)
termination_by w => weight h w.pending

theorem run_nil (image : Image) (h : Header) (index : BlockIndex) :
    run image h ⟨[], index⟩ = pure index := by
  funext t
  rw [run]
  rfl

/-- A walk with something to visit visits it and goes on with what waits then. -/
theorem run_cons (image : Image) (h : Header) (task : Task) (rest : List Task)
    (index : BlockIndex) :
    run image h ⟨task :: rest, index⟩ = visit image h task ⟨rest, index⟩ >>= run image h := by
  funext t
  rw [run]
  show _ = Logged.andThen _ _ t
  unfold Logged.andThen
  split <;> rename_i hv <;> simp only [hv]

/-- The direct blocks of a heap. An empty heap has none, and a root without rows is a direct block
of the starting size. -/
def directBlocks (image : Image) (h : Header) : Logged BlockIndex :=
  match h.root? with
  | none => return .empty
  | some root =>
    if h.fields.rootRows = 0 then do
      let block ← DirectBlock.read image h root h.table.startingSize
      return .singleton block
    else run image h ⟨[⟨root, h.fields.rootRows⟩], .empty⟩

end Walk

end DoublingHeap
