import DoublingHeap.Proofs.Consumption

/-! # A machine of 64 bits

The library counts in natural numbers and takes any part of a list. A machine counts in words, and
there are ends to its buffers. It *traps* (`none`) where a sum or a product does not fit a word, a
difference is below zero, a divisor is zero, a part of a buffer is not in the buffer, a buffer is
too large to be had, or more than eight bytes are to be one number. An error is not a trap: a
machine that finds one goes on with it (`Checked`). Where it does not trap, it *gives* a value or an
error (`Gives`), and this composes along the steps of a computation (`Gives.bind`).

A machine reads a record in a `Window`, the whole record with a position in it, where the library
has a cursor that drops what it has read. A reader of the machine *runs* as one of the library
(`Runs`) if it does the same and does not trap; this composes along the steps of a reader
(`Runs.bind`). -/

namespace DoublingHeap.Proofs.Machine

open DoublingHeap.Bytes DoublingHeap.Bytes.LittleEndian
open DoublingHeap.Proofs.Reading DoublingHeap.Proofs.Blocks

attribute [local instance (high)] instPowNat Zero.ofOfNat0

variable {α β : Type} {t : Level}

/-! ### Words and buffers -/

/-- The sum, if it is a word. -/
def add? (m n : Nat) : Option Nat := if m + n < 2 ^ 64 then some (m + n) else none

/-- The product, if it is a word. -/
def mul? (m n : Nat) : Option Nat := if m * n < 2 ^ 64 then some (m * n) else none

/-- The difference, if it is not below zero. -/
def sub? (m n : Nat) : Option Nat := if n ≤ m then some (m - n) else none

/-- The quotient, if there is one. -/
def div? (m n : Nat) : Option Nat := if n = 0 then none else some (m / n)

/-- The power of two, if it is a word. -/
def shift? (n : Nat) : Option Nat := if n < 64 then some (2 ^ n) else none

/-- The number, if it is a signed word. -/
def signed? (n : Int) : Option Int := if -2 ^ 63 ≤ n ∧ n < 2 ^ 63 then some n else none

/-- The sum of all, added up from the first on. -/
def sum? (ns : List Nat) : Option Nat := ns.foldlM add? 0

/-- The quotient, rounded up. -/
def divCeil? (m n : Nat) : Option Nat := do
  let q ← div? m n
  if m % n = 0 then return q else add? q 1

/-- The part of a buffer between two positions, if there is one. -/
def slice? (bytes : List UInt8) (start stop : Nat) : Option (List UInt8) :=
  if start ≤ stop ∧ stop ≤ bytes.length then some ((bytes.take stop).drop start) else none

/-- A buffer of `n` bytes may be had. -/
def allocate? (n : Nat) : Option Unit := if n < 2 ^ 63 then some () else none

theorem add?_eq_some {m n : Nat} (h : m + n < 2 ^ 64) : add? m n = some (m + n) := if_pos h

theorem mul?_eq_some {m n : Nat} (h : m * n < 2 ^ 64) : mul? m n = some (m * n) := if_pos h

theorem sub?_eq_some {m n : Nat} (h : n ≤ m) : sub? m n = some (m - n) := if_pos h

theorem div?_eq_some {m n : Nat} (h : n ≠ 0) : div? m n = some (m / n) := if_neg h

theorem slice?_eq_some {bytes : List UInt8} {start stop : Nat} (h : start ≤ stop)
    (hstop : stop ≤ bytes.length) : slice? bytes start stop = some ((bytes.take stop).drop start) :=
  if_pos ⟨h, hstop⟩

theorem allocate?_eq_some {n : Nat} (h : n < 2 ^ 63) : allocate? n = some () := if_pos h

theorem sum?_eq_some {ns : List Nat} {total : Nat} (hsum : ns.sum = total)
    (htotal : total < 2 ^ 64) : sum? ns = some total := by
  have hfrom : ∀ (ns : List Nat) (m : Nat), m + ns.sum < 2 ^ 64 →
      ns.foldlM add? m = some (m + ns.sum) := by
    intro ns
    induction ns with
    | nil => exact fun m _ => rfl
    | cons n ns ih =>
      intro m hm
      rw [List.sum_cons] at hm ⊢
      rw [List.foldlM_cons, add?_eq_some (by omega)]
      show ns.foldlM add? (m + n) = _
      rw [ih _ (by omega), Nat.add_assoc]
  have hzero := hfrom ns 0 (by omega)
  rwa [Nat.zero_add, hsum] at hzero

theorem divCeil?_eight {m : Nat} (h : m < 2 ^ 64) : divCeil? m 8 = some ((m + 7) / 8) := by
  unfold divCeil?
  rw [div?_eq_some (by decide)]
  show (if m % 8 = 0 then some (m / 8) else add? (m / 8) 1) = _
  split
  · congr 1
    omega
  · rw [add?_eq_some (by omega)]
    congr 1
    omega

/-! ### Computations that may trap or fail -/

/-- A computation that may trap, and otherwise gives a value or an error. -/
abbrev Checked (α : Type) : Type := ExceptT HeapError Option α

/-- The computation does not trap, and this is what it gives. -/
def Gives (m : Checked α) (x : Except HeapError α) : Prop := m.run = some x

theorem gives_pure (a : α) : Gives (pure a) (.ok a) := rfl

theorem gives_throw (e : HeapError) : Gives (throw e : Checked α) (.error e) := rfl

theorem Gives.bind {m : Checked α} {x : Except HeapError α} {g : α → Checked β}
    {f : α → Except HeapError β} (hm : Gives m x) (hg : ∀ a, x = .ok a → Gives (g a) (f a)) :
    Gives (m >>= g) (x.bind f) := by
  unfold Gives at hm ⊢
  have hrun : (m >>= g).run = m.run.bind (ExceptT.bindCont g) := rfl
  rw [hrun, hm]
  cases x with
  | error e => rfl
  | ok a => exact hg a rfl

theorem Gives.bindLogged {m : Checked α} {x : Logged α} {g : α → Checked β} {f : α → Logged β}
    (hm : Gives m (x.result t)) (hg : ∀ a, x.result t = .ok a → Gives (g a) ((f a).result t)) :
    Gives (m >>= g) ((x >>= f).result t) := by
  rw [Logged.result_bind]
  exact hm.bind hg

theorem Gives.adapt {m : Checked α} {x : Except HeapError α} (hm : Gives m x)
    (f : HeapError → HeapError) : Gives (m.adapt f) (x.mapError f) :=
  congrArg (Option.map (Except.mapError f)) hm

/-- A computation that does not trap can be left out. -/
theorem gives_lift_bind {x : Option α} {a : α} {g : α → Checked β} {y : Except HeapError β}
    (hx : x = some a) (hg : Gives (g a) y) : Gives ((liftM x : Checked α) >>= g) y := by
  subst hx
  exact hg

/-- A result that needs no machine. -/
def settled (x : Except HeapError α) : Checked α := ExceptT.mk (some x)

theorem gives_settled (x : Except HeapError α) : Gives (settled x) x := rfl

/-! ### Windows -/

/-- A record with a position in it. -/
structure Window where
  /-- The file address of the record. -/
  address : Nat
  buffer : List UInt8
  position : Nat
deriving DecidableEq, Repr

/-- What is left of the record is what the cursor has left. -/
structure Shows (w : Window) (c : Cursor) : Prop where
  address : c.address = w.address
  position : c.position = w.position
  rest : c.rest = w.buffer.drop w.position
  inside : w.position ≤ w.buffer.length
  length_lt : w.buffer.length < 2 ^ 64

theorem Shows.remaining {w : Window} {c : Cursor} (hs : Shows w c) :
    c.remaining = w.buffer.length - w.position := by
  unfold Cursor.remaining
  rw [hs.rest, List.length_drop]

/-- A step that reads from a window, and may trap. -/
abbrev Scan (α : Type) : Type := ExceptT HeapError (StateT Window Option) α

namespace Scan

/-- What a step does at a window. -/
def step (m : Scan α) (w : Window) : Option (Except HeapError α × Window) := m.run.run w

/-- The value of the fields at the start of a record. -/
def read (m : Scan α) (address : Nat) (record : List UInt8) : Option (Except HeapError α) :=
  (m.step ⟨address, record, 0⟩).map Prod.fst

/-- A computation that may trap, and reads nothing. -/
def checked (x : Option α) : Scan α := fun w => x.map fun a => (.ok a, w)

/-- The next `n` bytes. -/
def take (n : Nat) : Scan (List UInt8) := fun w => do
  let remaining ← sub? w.buffer.length w.position
  if remaining < n then
    return (.error (.malformed w.address (.truncated n w.position remaining)), w)
  let stop ← add? w.position n
  let bytes ← slice? w.buffer w.position stop
  return (.ok bytes, { w with position := stop })

/-- Fails with an error at the address of the record. -/
def refuse (error : Nat → HeapError) : Scan α := fun w => some (.error (error w.address), w)

/-- Passes over `n` bytes. -/
def skip (n : Nat) : Scan Unit := do let _ ← take n

/-- The next byte. -/
def byte : Scan UInt8 := do checked (← take 1)[0]?

/-- The number in the next `width` bytes. -/
def fixed (width : Nat) : Scan Nat := do checked (decode? (← take width))

/-- The number in the next `width` bytes, where the width comes from elsewhere. -/
def uint (width : Nat) : Scan Nat :=
  if width = 0 ∨ maxWidth < width then
    refuse fun address => .malformed address (.integerWidth width)
  else fixed width

/-- The four bytes that mark the kind of a record. -/
def signature (expected : List UInt8) : Scan Unit := do
  let found ← take 4
  if found ≠ expected then refuse fun address => .signature address expected found

/-- The version of a record, which has to be zero. -/
def version (subject : Structure) : Scan Unit := do
  let v ← byte
  if v ≠ 0 then refuse fun address => .version address subject v.toNat

/-- Takes a step at most `n` times, until it gives nothing. -/
def collect (m : Scan (Option α)) : Nat → List α → Scan (List α)
  | 0, found => return found.reverse
  | n + 1, found => do
    match ← m with
    | none => return found.reverse
    | some a => collect m n (a :: found)

theorem step_bind (m : Scan α) (f : α → Scan β) (w : Window) :
    (m >>= f).step w = (m.step w).bind fun
      | (.ok a, w') => (f a).step w'
      | (.error e, w') => some (.error e, w') := by
  show (m w).bind _ = (m w).bind _
  congr 1
  funext p
  rcases p with ⟨e | a, w'⟩ <;> rfl

theorem step_bind_of_ok {m : Scan α} {f : α → Scan β} {w w' : Window} {a : α}
    (h : m.step w = some (.ok a, w')) : (m >>= f).step w = (f a).step w' := by
  rw [step_bind, h]
  rfl

theorem checked_bind {x : Option α} {a : α} (hx : x = some a) (f : α → Scan β) (w : Window) :
    (checked x >>= f).step w = (f a).step w := by
  subst hx
  exact step_bind_of_ok rfl

end Scan

/-! ### Steps that do not trap -/

/-- The step of the machine does what the step of the library does, and does not trap. -/
def Runs (m : Scan α) (r : Reader α) : Prop :=
  ∀ w c, Shows w c → ∃ w', m.step w = some ((r.step c).1, w') ∧ Shows w' (r.step c).2

theorem runs_pure (a : α) : Runs (pure a) (pure a) := fun w _ hs => ⟨w, rfl, hs⟩

theorem runs_refuse (error : Nat → HeapError) :
    Runs (Scan.refuse error : Scan α) (Reader.refuse error) := by
  intro w c hs
  refine ⟨w, ?_, hs⟩
  rw [step_refuse, hs.address]
  rfl

theorem Runs.bind {m : Scan α} {r : Reader α} {g : α → Scan β} {f : α → Reader β} (hm : Runs m r)
    (hg : ∀ a c c', r.step c = (.ok a, c') → Runs (g a) (f a)) : Runs (m >>= g) (r >>= f) := by
  intro w c hs
  obtain ⟨w', hstep, hs'⟩ := hm w c hs
  rw [Scan.step_bind, hstep, Reader.step_bind]
  rcases hr : r.step c with ⟨e | a, c'⟩ <;> rw [hr] at hs'
  · exact ⟨w', rfl, hs'⟩
  · exact hg a c c' hr w' c' hs'

theorem runs_checked_bind {x : Option α} {a : α} {g : α → Scan β} {r : Reader β} (hx : x = some a)
    (hg : Runs (g a) r) : Runs (Scan.checked x >>= g) r := by
  intro w c hs
  obtain ⟨w', hstep, hs'⟩ := hg w c hs
  exact ⟨w', (Scan.checked_bind hx g w).trans hstep, hs'⟩

theorem runs_checked {x : Option α} {a : α} (hx : x = some a) :
    Runs (Scan.checked x) (pure a) := by
  intro w c hs
  refine ⟨w, ?_, hs⟩
  rw [hx]
  rfl

theorem runs_take (n : Nat) : Runs (Scan.take n) (Reader.take n) := by
  intro w c hs
  have hinside := hs.inside
  have hlength := hs.length_lt
  rw [Reader.step_take, hs.remaining]
  show ∃ w', Scan.take n w = _ ∧ _
  unfold Scan.take
  rw [sub?_eq_some hinside]
  by_cases hn : n ≤ w.buffer.length - w.position
  · rw [if_pos hn]
    have hadd : add? w.position n = some (w.position + n) := add?_eq_some (by omega)
    have hslice : slice? w.buffer w.position (w.position + n)
        = some ((w.buffer.take (w.position + n)).drop w.position) :=
      slice?_eq_some (Nat.le_add_right ..) (by omega)
    have hbytes : (w.buffer.take (w.position + n)).drop w.position = c.rest.take n := by
      rw [hs.rest, List.drop_take, Nat.add_sub_cancel_left]
    refine ⟨{ w with position := w.position + n }, ?_, ?_⟩
    · simp only [Option.bind_eq_bind, Option.bind_some, Nat.not_lt.mpr hn, if_false, hadd, hslice,
        hbytes]
      rfl
    · refine ⟨hs.address, ?_, ?_, ?_, hlength⟩
      · rw [hs.position]
      · rw [hs.rest, List.drop_drop]
      · show w.position + n ≤ w.buffer.length
        omega
  · rw [if_neg hn]
    refine ⟨w, ?_, hs⟩
    simp only [Option.bind_eq_bind, Option.bind_some, Nat.lt_of_not_le hn, if_true, hs.address,
      hs.position]
    rfl

theorem runs_skip (n : Nat) : Runs (Scan.skip n) (Reader.skip n) :=
  (runs_take n).bind fun _ _ _ _ => runs_pure _

theorem runs_byte : Runs Scan.byte Reader.byte := by
  refine (runs_take 1).bind fun bytes c c' hstep => runs_checked ?_
  obtain ⟨b, rfl⟩ := List.length_eq_one_iff.mp (step_take_iff.mp hstep).1
  rfl

/-- No more than eight bytes are decoded. -/
theorem runs_fixed {w : Nat} (hw : w ≤ maxWidth) : Runs (Scan.fixed w) (Reader.fixed w) := by
  refine (runs_take w).bind fun bytes c c' hstep => runs_checked ?_
  unfold decode?
  rw [if_pos (by rw [(step_take_iff.mp hstep).1]; exact hw)]

theorem runs_uint (w : Nat) : Runs (Scan.uint w) (Reader.uint w) := by
  unfold Scan.uint Reader.uint
  split
  · exact runs_refuse _
  · exact runs_fixed (by omega)

theorem runs_signature (expected : List UInt8) :
    Runs (Scan.signature expected) (Reader.signature expected) := by
  refine (runs_take 4).bind fun found _ _ _ => ?_
  split
  · exact runs_refuse _
  · exact runs_pure _

theorem runs_version (subject : Structure) :
    Runs (Scan.version subject) (Reader.version subject) := by
  refine runs_byte.bind fun v _ _ _ => ?_
  split
  · exact runs_refuse _
  · exact runs_pure _

theorem Runs.collect {m : Scan (Option α)} {r : Reader (Option α)} (hm : Runs m r) (n : Nat)
    (found : List α) : Runs (Scan.collect m n found) (Reader.collect r n found) := by
  induction n generalizing found with
  | zero => exact runs_pure _
  | succ n ih =>
    refine hm.bind fun a? _ _ _ => ?_
    cases a? with
    | none => exact runs_pure _
    | some a => exact ih (a :: found)

theorem Runs.read {m : Scan α} {r : Reader α} (hm : Runs m r) {address : Nat}
    {record : List UInt8} (hlength : record.length < 2 ^ 64) :
    m.read address record = some (r.read address record) := by
  obtain ⟨w', hstep, -⟩ := hm ⟨address, record, 0⟩ (Cursor.atStart address record)
    ⟨rfl, rfl, rfl, Nat.zero_le _, hlength⟩
  unfold Scan.read Reader.read
  rw [hstep]
  rfl

end DoublingHeap.Proofs.Machine
