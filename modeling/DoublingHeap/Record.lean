import DoublingHeap.HeapError

/-! # Reading records

A record is a run of fields that is read from the front. A `Cursor` is what is left of a record: the
bytes not yet read, the number of bytes read so far, and the file address of the record, which every
error carries. A `Reader` is a step on cursors; it answers with a value or an error, and both leave
a cursor behind.

`take` is the only step that moves the cursor, so a step that fails for want of bytes leaves it
where it was. A `signature` that differs has been read all the same. -/

namespace DoublingHeap

/-- What is left of a record. -/
structure Cursor where
  /-- The file address of the record. -/
  address : Nat
  /-- The number of bytes read so far. -/
  position : Nat
  /-- The bytes not yet read. -/
  rest : List UInt8
deriving DecidableEq, Repr

/-- The cursor at the start of a record. -/
def Cursor.atStart (address : Nat) (record : List UInt8) : Cursor := ⟨address, 0, record⟩

/-- The number of bytes not yet read. -/
def Cursor.remaining (c : Cursor) : Nat := c.rest.length

/-- A step that reads from a record. -/
abbrev Reader (α : Type) : Type := ExceptT HeapError (StateM Cursor) α

namespace Reader

/-- The result of a step, and the cursor after it. -/
def step {α : Type} (r : Reader α) (c : Cursor) : Except HeapError α × Cursor := r.run.run c

/-- The value of the fields at the start of a record. -/
def read {α : Type} (r : Reader α) (address : Nat) (record : List UInt8) : Except HeapError α :=
  (r.step (Cursor.atStart address record)).1

/-! ### How steps compose -/

theorem step_pure {α : Type} (a : α) (c : Cursor) : (pure a : Reader α).step c = (.ok a, c) := rfl

/-- The second step goes on where the first stopped, and is not taken if the first fails. -/
theorem step_bind {α β : Type} (r : Reader α) (f : α → Reader β) (c : Cursor) :
    (r >>= f).step c = match r.step c with
      | (.ok a, c') => (f a).step c'
      | (.error e, c') => (.error e, c') := by
  show ExceptT.bindCont f (r c).1 (r c).2 = _
  unfold step
  show _ = match r c with
    | (.ok a, c') => f a c'
    | (.error e, c') => (.error e, c')
  rcases r c with ⟨e | a, c'⟩ <;> rfl

theorem step_bind_eq_ok {α β : Type} {r : Reader α} {f : α → Reader β} {c c'' : Cursor} {b : β} :
    (r >>= f).step c = (.ok b, c'') ↔
      ∃ a c', r.step c = (.ok a, c') ∧ (f a).step c' = (.ok b, c'') := by
  rw [step_bind]
  rcases r.step c with ⟨e | a, c'⟩
  · simp
  · constructor
    · exact fun h => ⟨a, c', rfl, h⟩
    · rintro ⟨_, _, h, hb⟩
      cases h
      exact hb

/-! ### Steps -/

/-- The next `n` bytes. Only these are counted, so that a step takes no longer in a long record than
in a short one. -/
def take (n : Nat) : Reader (List UInt8) := fun c =>
  let bytes := c.rest.take n
  if bytes.length = n then (.ok bytes, ⟨c.address, c.position + n, c.rest.drop n⟩)
  else (.error (.malformed c.address (.truncated n c.position c.remaining)), c)

theorem step_take (n : Nat) (c : Cursor) :
    (take n).step c =
      if n ≤ c.remaining then (.ok (c.rest.take n), ⟨c.address, c.position + n, c.rest.drop n⟩)
      else (.error (.malformed c.address (.truncated n c.position c.remaining)), c) := by
  have hlen : (c.rest.take n).length = n ↔ n ≤ c.remaining := by
    rw [List.length_take]
    unfold Cursor.remaining
    omega
  show (if (c.rest.take n).length = n then _ else _) = _
  by_cases h : n ≤ c.remaining
  · rw [if_pos h, if_pos (hlen.mpr h)]
  · rw [if_neg h, if_neg (mt hlen.mp h)]

/-- Fails with an error at the address of the record. -/
def refuse {α : Type} (error : Nat → HeapError) : Reader α := fun c => (.error (error c.address), c)

/-- Passes over `n` bytes. -/
def skip (n : Nat) : Reader Unit := do let _ ← take n

/-- The next byte. -/
def byte : Reader UInt8 := do return (← take 1).headD 0

/-- The number in the next `width` bytes. -/
def fixed (width : Nat) : Reader Nat := do return Bytes.LittleEndian.decode (← take width)

/-- The number in the next `width` bytes, where the width comes from the file or the superblock and
is between one and eight. -/
def uint (width : Nat) : Reader Nat :=
  if width = 0 ∨ Bytes.LittleEndian.maxWidth < width then
    refuse fun address => .malformed address (.integerWidth width)
  else fixed width

/-- The four bytes that mark the kind of a record. -/
def signature (expected : List UInt8) : Reader Unit := do
  let found ← take 4
  if found ≠ expected then refuse fun address => .signature address expected found

/-- The version of a record, which has to be zero. -/
def version (subject : Structure) : Reader Unit := do
  let v ← byte
  if v ≠ 0 then refuse fun address => .version address subject v.toNat

/-! ### Repetition -/

/-- Takes a step at most `n` times, until it gives nothing. The values come in order, after those
that were found before, of which the last comes first in `found`. -/
def collect {α : Type} (r : Reader (Option α)) : Nat → List α → Reader (List α)
  | 0, found => return found.reverse
  | n + 1, found => do
    match ← r with
    | none => return found.reverse
    | some a => collect r n (a :: found)

theorem length_of_collect {α : Type} {r : Reader (Option α)} {n : Nat} {found values : List α}
    {c c' : Cursor} (h : (collect r n found).step c = (.ok values, c')) :
    values.length ≤ found.length + n := by
  induction n generalizing found c with
  | zero =>
    rw [collect, step_pure] at h
    cases h
    simp
  | succ n ih =>
    rw [collect, step_bind_eq_ok] at h
    obtain ⟨a?, c₁, -, h⟩ := h
    cases a? with
    | none =>
      rw [step_pure] at h
      cases h
      simp
    | some a =>
      have hle := ih h
      rw [List.length_cons] at hle
      omega

end Reader

end DoublingHeap
