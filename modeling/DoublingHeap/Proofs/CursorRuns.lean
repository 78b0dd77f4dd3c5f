import DoublingHeap.Proofs.Machine
import Mathlib.Data.Nat.Digits.Defs

/-! # Runs of a cursor

A run takes steps of any kind at a record, one after the other; a step that fails does not end it.
What one step does is said once (`Does`, `does_step`): it is refused, or the record ends, or a
signature differs, or it is done, and it passes bytes in the last two cases only.

Everything else follows. Cursors of a run stand on the record (`On`), and what a step passes lies
between the position before and the position after it. So no byte of the record is passed twice or
left out (`flatMap_consumed`), by induction along the steps. A machine of 64 bits takes the same
steps in a window and does not trap (`scanAll_eq`). -/

namespace DoublingHeap.Proofs.CursorRuns

open DoublingHeap.Bytes.LittleEndian DoublingHeap.Proofs.Reading DoublingHeap.Proofs.Machine

attribute [local instance (high)] instPowNat

variable {address : Nat} {buffer : List UInt8} {c : Cursor}

/-! ### Steps -/

/-- A step that reads from a record. -/
inductive Step where
  | take (n : Nat)
  | skip (n : Nat)
  | byte
  /-- A number of a width that is known. -/
  | fixed (width : Nat) (possible : width ≤ maxWidth)
  /-- A number of a width that comes from elsewhere. -/
  | uint (width : Nat)
  | signature (expected : List UInt8) (four : expected.length = 4)
deriving DecidableEq, Repr

/-- What a step gives. -/
inductive Value where
  | nothing
  | bytes (bs : List UInt8)
  | number (n : Nat)
deriving DecidableEq, Repr

namespace Step

/-- The reader that takes the step. -/
def reader : Step → Reader Value
  | take n => return .bytes (← Reader.take n)
  | skip n => do
    Reader.skip n
    return .nothing
  | byte => return .number (← Reader.byte).toNat
  | fixed width _ => return .number (← Reader.fixed width)
  | uint width => return .number (← Reader.uint width)
  | signature expected _ => do
    Reader.signature expected
    return .nothing

/-- The number of bytes that a step needs. -/
def width : Step → Nat
  | take n | skip n | fixed n _ | uint n => n
  | byte => 1
  | signature .. => 4

/-- Numbers whose width comes from elsewhere have one to eight bytes. -/
def Possible : Step → Prop
  | uint width => 1 ≤ width ∧ width ≤ 8
  | _ => True

/-- A signature has to be the expected one. -/
def Accepts : Step → List UInt8 → Prop
  | signature expected _, bytes => bytes = expected
  | _, _ => True

/-- What a step gives for its bytes. The bytes of a number are its digits to base 256. -/
def meaning : Step → List UInt8 → Value
  | take _, bytes => .bytes bytes
  | skip _, _ | signature .., _ => .nothing
  | byte, bytes | fixed .., bytes | uint _, bytes =>
    .number (Nat.ofDigits 256 (bytes.map UInt8.toNat))

end Step

/-- **What a step does** at a cursor: its result, and the bytes that it passes. -/
inductive Does (c : Cursor) : Step → Except HeapError Value → List UInt8 → Prop where
  | refused {w : Nat} (hw : ¬ (Step.uint w).Possible) :
      Does c (.uint w) (.error (.malformed c.address (.integerWidth w))) []
  | ended {s : Step} (hs : s.Possible) (hlt : c.remaining < s.width) :
      Does c s (.error (.malformed c.address (.truncated s.width c.position c.remaining))) []
  | differs {expected : List UInt8} {four : expected.length = 4} (hle : 4 ≤ c.remaining)
      (hne : c.rest.take 4 ≠ expected) :
      Does c (.signature expected four) (.error (.signature c.address expected (c.rest.take 4)))
        (c.rest.take 4)
  | done {s : Step} (hs : s.Possible) (hle : s.width ≤ c.remaining)
      (haccepts : s.Accepts (c.rest.take s.width)) :
      Does c s (.ok (s.meaning (c.rest.take s.width))) (c.rest.take s.width)

/-! ### What one step does -/

theorem possible_uint_iff {w : Nat} : (Step.uint w).Possible ↔ ¬ (w = 0 ∨ maxWidth < w) := by
  show 1 ≤ w ∧ w ≤ 8 ↔ _
  unfold maxWidth
  omega

theorem decode_eq_ofDigits (bytes : List UInt8) :
    decode bytes = Nat.ofDigits 256 (bytes.map UInt8.toNat) := by
  induction bytes with
  | nil => rfl
  | cons b bytes ih =>
    rw [decode, List.map_cons, Nat.ofDigits_cons, ih]

/-- What a step does with its bytes. -/
def Step.finish : Step → List UInt8 → Reader Value
  | take _, bytes => return .bytes bytes
  | skip _, _ => return .nothing
  | byte, bytes => return .number (bytes.headD 0).toNat
  | fixed .., bytes | uint _, bytes => return .number (decode bytes)
  | signature expected _, found =>
    (if found ≠ expected then Reader.refuse fun address => .signature address expected found
      else pure ()) >>= fun _ => return .nothing

theorem reader_eq {s : Step} (hs : s.Possible) : s.reader = Reader.take s.width >>= s.finish := by
  cases s with
  | take n => rfl
  | skip | byte | fixed | signature => exact bind_assoc ..
  | uint w =>
    have hfixed : Reader.uint w = Reader.fixed w := if_neg (possible_uint_iff.mp hs)
    show Reader.uint w >>= _ = _
    rw [hfixed]
    exact bind_assoc ..

/-- With its bytes at hand, a step fails only if they are not the expected signature. -/
theorem step_finish (s : Step) {bytes : List UInt8} (hlen : bytes.length = s.width) (c : Cursor) :
    s.Accepts bytes ∧ (s.finish bytes).step c = (.ok (s.meaning bytes), c) ∨
      ∃ expected four, s = .signature expected four ∧ bytes ≠ expected ∧
        (s.finish bytes).step c = (.error (.signature c.address expected bytes), c) := by
  cases s with
  | take | skip => exact .inl ⟨trivial, rfl⟩
  | byte =>
    obtain ⟨b, rfl⟩ := List.length_eq_one_iff.mp hlen
    exact .inl ⟨trivial, rfl⟩
  | fixed | uint =>
    refine .inl ⟨trivial, ?_⟩
    simp only [Step.finish, Step.meaning, Reader.step_pure, decode_eq_ofDigits]
  | signature expected four =>
    simp only [Step.finish]
    by_cases hsame : bytes = expected
    · rw [if_neg (not_not_intro hsame)]
      exact .inl ⟨hsame, rfl⟩
    · rw [if_pos hsame]
      exact .inr ⟨expected, four, rfl, hsame, rfl⟩

/-- **Every step does one of four things**, and the cursor has passed what it says. -/
theorem does_step (s : Step) (c : Cursor) :
    ∃ passed, Does c s (s.reader.step c).1 passed ∧ Passes c passed (s.reader.step c).2 := by
  by_cases hs : s.Possible
  · rw [reader_eq hs, Reader.step_bind, Reader.step_take]
    by_cases hle : s.width ≤ c.remaining
    · have hlen : (c.rest.take s.width).length = s.width := List.length_take_of_le hle
      have hpasses : Passes c (c.rest.take s.width)
          ⟨c.address, c.position + s.width, c.rest.drop s.width⟩ :=
        ⟨(List.take_append_drop ..).symm, by rw [hlen], rfl⟩
      rw [if_pos hle]
      simp only
      rcases step_finish s hlen ⟨c.address, c.position + s.width, c.rest.drop s.width⟩ with
        ⟨haccepts, hstep⟩ | ⟨expected, four, rfl, hne, hstep⟩
      · rw [hstep]
        exact ⟨_, .done hs hle haccepts, hpasses⟩
      · rw [hstep]
        exact ⟨_, .differs hle hne, hpasses⟩
    · rw [if_neg hle]
      exact ⟨[], .ended hs (Nat.lt_of_not_le hle), passes_nil_iff.mpr rfl⟩
  · cases s with
    | uint w =>
      have hw : w = 0 ∨ maxWidth < w := not_not.mp (mt possible_uint_iff.mpr hs)
      have hrefuse : Reader.uint w
          = Reader.refuse fun address => .malformed address (.integerWidth w) := if_pos hw
      have hreader : (Step.uint w).reader.step c
          = (.error (.malformed c.address (.integerWidth w)), c) := by
        show (Reader.uint w >>= _).step c = _
        rw [hrefuse, Reader.step_bind, step_refuse]
      rw [hreader]
      exact ⟨[], .refused hs, passes_nil_iff.mpr rfl⟩
    | take | skip | byte | fixed | signature => exact absurd trivial hs

/-! ### What follows for one step -/

section Does

variable {s : Step} {x : Except HeapError Value} {passed : List UInt8}

theorem Does.fails_iff (h : Does c s x passed) :
    (∃ e, x = .error e) ↔ c.remaining < s.width ∨ ¬ s.Possible ∨
      ¬ s.Accepts (c.rest.take s.width) := by
  cases h with
  | refused hw => exact ⟨fun _ => .inr (.inl hw), fun _ => ⟨_, rfl⟩⟩
  | ended _ hlt => exact ⟨fun _ => .inl hlt, fun _ => ⟨_, rfl⟩⟩
  | differs _ hne => exact ⟨fun _ => .inr (.inr hne), fun _ => ⟨_, rfl⟩⟩
  | done hs hle haccepts =>
    refine ⟨nofun, fun h => ?_⟩
    rcases h with hlt | hnot | hnot
    · omega
    · exact absurd hs hnot
    · exact absurd haccepts hnot

theorem Does.of_ok {v : Value} (h : Does c s (.ok v) passed) :
    passed.length = s.width ∧ v = s.meaning passed := by
  cases h with
  | done hs hle haccepts => exact ⟨List.length_take_of_le hle, rfl⟩

/-- An error names the record. It moves the cursor if it is a signature that differs, and this it
is if there were bytes enough and the width was possible. -/
theorem Does.of_error {e : HeapError} (h : Does c s (.error e) passed) :
    e.address = c.address ∧ passed.length = (if e.kind = .signatureMismatch then 4 else 0) ∧
      (e.kind = .signatureMismatch ↔ s.width ≤ c.remaining ∧ s.Possible) := by
  cases h with
  | refused hw => exact ⟨rfl, rfl, nofun, fun h => absurd h.2 hw⟩
  | ended hs hlt => exact ⟨rfl, rfl, nofun, fun h => absurd h.1 (Nat.not_le.mpr hlt)⟩
  | differs hle hne =>
    exact ⟨rfl, List.length_take_of_le hle, fun _ => ⟨hle, trivial⟩, fun _ => rfl⟩

end Does

theorem number_lt {s : Step} {bytes : List UInt8} {n : Nat} (h : .number n = s.meaning bytes) :
    n < 256 ^ bytes.length := by
  have hdigits : n = Nat.ofDigits 256 (bytes.map UInt8.toNat) := by
    cases s with
    | take | skip | signature => cases h
    | byte | fixed | uint => exact Value.number.inj h
  rw [hdigits, ← decode_eq_ofDigits]
  exact decode_lt bytes

/-! ### Cursors on a record -/

/-- The cursor stands on the record: what it has left is the rest of the record. -/
structure On (address : Nat) (buffer : List UInt8) (c : Cursor) : Prop where
  address : c.address = address
  inside : c.position ≤ buffer.length
  rest : c.rest = buffer.drop c.position

theorem on_atStart (address : Nat) (buffer : List UInt8) :
    On address buffer (Cursor.atStart address buffer) :=
  ⟨rfl, Nat.zero_le _, rfl⟩

theorem On.add_remaining (h : On address buffer c) :
    c.position + c.remaining = buffer.length := by
  have hinside := h.inside
  unfold Cursor.remaining
  rw [h.rest, List.length_drop]
  omega

section Passes

variable {c' : Cursor} {passed : List UInt8} (hon : On address buffer c) (hp : Passes c passed c')
include hon hp

theorem On.passes : On address buffer c' := by
  have htotal := hon.add_remaining
  have hrest : buffer.drop c.position = passed ++ c'.rest := hon.rest ▸ hp.rest
  unfold Cursor.remaining at htotal
  rw [hp.rest, List.length_append] at htotal
  refine ⟨hp.address.trans hon.address, ?_, ?_⟩
  · rw [hp.position]
    omega
  · rw [hp.position, ← List.drop_drop, hrest, List.drop_left]

theorem On.passed_eq :
    passed = (buffer.drop c.position).take (c'.position - c.position) := by
  rw [← hon.rest, hp.rest, hp.position, Nat.add_sub_cancel_left, List.take_left]

end Passes

/-! ### Runs -/

/-- A step of a run, with the cursors before and after it. -/
structure Entry where
  step : Step
  before : Cursor
  result : Except HeapError Value
  after : Cursor

/-- The bytes of the record between the positions before and after a step. -/
def Entry.consumed (buffer : List UInt8) (e : Entry) : List UInt8 :=
  (buffer.drop e.before.position).take (e.after.position - e.before.position)

/-- What a step does, as part of a run. -/
def entry (s : Step) (c : Cursor) : Entry := ⟨s, c, (s.reader.step c).1, (s.reader.step c).2⟩

/-- The steps of a run. The next step is taken even if one fails. -/
def run : List Step → Cursor → List Entry
  | [], _ => []
  | s :: steps, c => entry s c :: run steps (entry s c).after

/-- The cursor after a run. -/
def final : List Step → Cursor → Cursor
  | [], c => c
  | s :: steps, c => final steps (entry s c).after

/-- **How a step accounts for the bytes of a record.** -/
structure Accounted (address : Nat) (buffer : List UInt8) (e : Entry) : Prop where
  total_before : e.before.position + e.before.remaining = buffer.length
  total_after : e.after.position + e.after.remaining = buffer.length
  forward : e.before.position ≤ e.after.position
  /-- A step fails exactly when fewer bytes are left than it needs, its width is not possible, or
  the signature differs. -/
  fails_iff : (∃ x, e.result = .error x) ↔ e.before.remaining < e.step.width ∨
    ¬ e.step.Possible ∨ ¬ e.step.Accepts ((buffer.drop e.before.position).take e.step.width)
  ok : ∀ v, e.result = .ok v → e.after.position = e.before.position + e.step.width ∧
    v = e.step.meaning (e.consumed buffer)
  /-- A number loses nothing in a word that is as wide as the field. -/
  number : ∀ n, e.result = .ok (.number n) → n % 2 ^ (8 * e.step.width) = n
  error : ∀ x, e.result = .error x → x.address = address ∧
    e.after.position = e.before.position + (if x.kind = .signatureMismatch then 4 else 0) ∧
    (x.kind = .signatureMismatch ↔ e.step.width ≤ e.before.remaining ∧ e.step.Possible)

theorem on_after (hon : On address buffer c) (s : Step) : On address buffer (entry s c).after := by
  obtain ⟨passed, -, hp⟩ := does_step s c
  exact hon.passes hp

theorem position_le_after (s : Step) (c : Cursor) : c.position ≤ (entry s c).after.position := by
  obtain ⟨passed, -, hp⟩ := does_step s c
  exact Nat.le.intro hp.position.symm

theorem accounted_entry (hon : On address buffer c) (s : Step) :
    Accounted address buffer (entry s c) := by
  obtain ⟨passed, hdoes, hp⟩ := does_step s c
  have hpassed : passed = (entry s c).consumed buffer := hon.passed_eq hp
  refine ⟨hon.add_remaining, (on_after hon s).add_remaining, position_le_after s c, ?_, ?_, ?_, ?_⟩
  · have hfails := hdoes.fails_iff
    rwa [hon.rest] at hfails
  · intro v hv
    have hv' : (s.reader.step c).1 = .ok v := hv
    rw [hv'] at hdoes
    obtain ⟨hlen, hvalue⟩ := hdoes.of_ok
    exact ⟨hp.position.trans (by rw [hlen]; rfl), hpassed ▸ hvalue⟩
  · intro n hn
    have hn' : (s.reader.step c).1 = .ok (.number n) := hn
    rw [hn'] at hdoes
    obtain ⟨hlen, hvalue⟩ := hdoes.of_ok
    have hlt := number_lt hvalue
    rw [hlen] at hlt
    refine Nat.mod_eq_of_lt ?_
    rw [Nat.pow_mul]
    exact hlt
  · intro x hx
    have hx' : (s.reader.step c).1 = .error x := hx
    rw [hx'] at hdoes
    obtain ⟨haddress, hlen, hkind⟩ := hdoes.of_error
    exact ⟨haddress.trans hon.address, hp.position.trans (by rw [hlen]; rfl), hkind⟩

theorem accounted_of_mem_run (hon : On address buffer c) (steps : List Step) :
    ∀ e ∈ run steps c, Accounted address buffer e := by
  induction steps generalizing c with
  | nil => exact fun _ he => absurd he List.not_mem_nil
  | cons s steps ih =>
    intro e he
    rcases List.mem_cons.mp he with rfl | he
    · exact accounted_entry hon s
    · exact ih (on_after hon s) e he

theorem on_final (hon : On address buffer c) (steps : List Step) :
    On address buffer (final steps c) := by
  induction steps generalizing c with
  | nil => exact hon
  | cons s steps ih => exact ih (on_after hon s)

theorem le_position_of_mem_run (steps : List Step) (c : Cursor) :
    ∀ e ∈ run steps c, c.position ≤ e.after.position := by
  induction steps generalizing c with
  | nil => exact fun _ he => absurd he List.not_mem_nil
  | cons s steps ih =>
    intro e he
    rcases List.mem_cons.mp he with rfl | he
    · exact position_le_after s c
    · exact (position_le_after s c).trans (ih _ e he)

theorem pairwise_position (steps : List Step) (c : Cursor) :
    (run steps c).Pairwise fun e e' => e.after.position ≤ e'.after.position := by
  induction steps generalizing c with
  | nil => exact .nil
  | cons s steps ih => exact .cons (le_position_of_mem_run steps _) (ih _)

theorem position_le_final (steps : List Step) (c : Cursor) :
    c.position ≤ (final steps c).position := by
  induction steps generalizing c with
  | nil => exact Nat.le_refl _
  | cons s steps ih => exact (position_le_after s c).trans (ih _)

/-- **No byte is passed twice or left out.** -/
theorem flatMap_consumed (buffer : List UInt8) (steps : List Step) (c : Cursor) :
    (run steps c).flatMap (Entry.consumed buffer)
      = (buffer.drop c.position).take ((final steps c).position - c.position) := by
  induction steps generalizing c with
  | nil =>
    show [] = List.take (c.position - c.position) _
    rw [Nat.sub_self, List.take_zero]
  | cons s steps ih =>
    have hfirst := position_le_after s c
    have hrest := position_le_final steps (entry s c).after
    show (entry s c).consumed buffer ++ (run steps (entry s c).after).flatMap _ = _
    rw [ih]
    -- the run ends `m + n` bytes further, of which the first step passes `m`
    obtain ⟨m, hm⟩ := Nat.exists_eq_add_of_le hfirst
    obtain ⟨n, hn⟩ := Nat.exists_eq_add_of_le hrest
    have hfinal : (final (s :: steps) c).position = c.position + (m + n) := by
      show (final steps (entry s c).after).position = _
      omega
    have hconsumed : (entry s c).consumed buffer = (buffer.drop c.position).take m := by
      show (buffer.drop c.position).take ((entry s c).after.position - c.position) = _
      rw [hm, Nat.add_sub_cancel_left]
    rw [hconsumed, hfinal, hn, Nat.add_sub_cancel_left, Nat.add_sub_cancel_left, hm,
      ← List.drop_drop, List.take_add]

/-! ### Runs of the machine -/

/-- The step of the machine. -/
def Step.scan : Step → Scan Value
  | take n => return .bytes (← Scan.take n)
  | skip n => do
    Scan.skip n
    return .nothing
  | byte => return .number (← Scan.byte).toNat
  | fixed width _ => return .number (← Scan.fixed width)
  | uint width => return .number (← Scan.uint width)
  | signature expected _ => do
    Scan.signature expected
    return .nothing

/-- The results of a run of the machine, and the positions that it comes to. -/
def scanAll : List Step → Window → Option (List (Except HeapError Value × Nat))
  | [], _ => some []
  | s :: steps, w => do
    let (result, w') ← s.scan.step w
    return (result, w'.position) :: (← scanAll steps w')

theorem runs_scan (s : Step) : Runs s.scan s.reader := by
  cases s with
  | take n => exact (runs_take n).bind fun _ _ _ _ => runs_pure _
  | skip n => exact (runs_skip n).bind fun _ _ _ _ => runs_pure _
  | byte => exact runs_byte.bind fun _ _ _ _ => runs_pure _
  | fixed w possible => exact (runs_fixed possible).bind fun _ _ _ _ => runs_pure _
  | uint w => exact (runs_uint w).bind fun _ _ _ _ => runs_pure _
  | signature expected _ => exact (runs_signature expected).bind fun _ _ _ _ => runs_pure _

/-- **A machine** takes the same steps, and does not trap. -/
theorem scanAll_eq (steps : List Step) {w : Window} (hs : Shows w c) :
    scanAll steps w = some ((run steps c).map fun e => (e.result, e.after.position)) := by
  induction steps generalizing w c with
  | nil => rfl
  | cons s steps ih =>
    obtain ⟨w', hstep, hs'⟩ := runs_scan s w c hs
    rw [scanAll, hstep]
    show (scanAll steps w').bind _ = _
    rw [ih hs', ← hs'.position]
    rfl

/-- **Runs account for every byte.** Steps of any kind and number, with failures between them, keep
the position and what is left together as long as the record, and the position never goes back.
Each step does what its bytes say, and what they pass is the record up to the position. On a
machine of 64 bits it is the same. -/
theorem run_accounts_for_every_byte (address : Nat) (buffer : List UInt8) (steps : List Step) :
    (∀ e ∈ run steps (.atStart address buffer), Accounted address buffer e) ∧
    (run steps (.atStart address buffer)).Pairwise
      (fun e e' => e.after.position ≤ e'.after.position) ∧
    (final steps (.atStart address buffer)).position
      + (final steps (.atStart address buffer)).remaining = buffer.length ∧
    (run steps (.atStart address buffer)).flatMap (Entry.consumed buffer)
      = buffer.take (final steps (.atStart address buffer)).position ∧
    (buffer.length < 2 ^ 64 → scanAll steps ⟨address, buffer, 0⟩
      = some ((run steps (.atStart address buffer)).map
        fun e => (e.result, e.after.position))) := by
  have hon := on_atStart address buffer
  refine ⟨accounted_of_mem_run hon steps, pairwise_position steps _,
    (on_final hon steps).add_remaining, flatMap_consumed buffer steps _, fun hlength => ?_⟩
  exact scanAll_eq steps ⟨rfl, rfl, rfl, Nat.zero_le _, hlength⟩

/-- A signature that differs, widths that are not possible, a number of two bytes, one of four for
which there is no room, and a byte. -/
def mixedSteps : List Step :=
  [.signature [0x46, 0x52, 0x48, 0x50] rfl, .uint 0, .uint 9, .fixed 2 (by decide),
    .fixed 4 (by decide), .byte]

/-- A record that starts with another signature. -/
def mixedRecord : List UInt8 := [0x46, 0x52, 0x48, 0x58, 0x01, 0x02, 0xFF]

/-- After four failures the run has passed the whole record. -/
theorem mixed_run_passes_all :
    mixedRecord.length < 2 ^ 64 ∧
      scanAll mixedSteps ⟨0x200, mixedRecord, 0⟩ = some [
        (.error (.signature 0x200 [0x46, 0x52, 0x48, 0x50] [0x46, 0x52, 0x48, 0x58]), 4),
        (.error (.malformed 0x200 (.integerWidth 0)), 4),
        (.error (.malformed 0x200 (.integerWidth 9)), 4),
        (.ok (.number 0x0201), 6),
        (.error (.malformed 0x200 (.truncated 4 6 1)), 6),
        (.ok (.number 0xFF), 7)] ∧
      (run mixedSteps (.atStart 0x200 mixedRecord)).flatMap (Entry.consumed mixedRecord)
        = mixedRecord ∧
      ∀ e ∈ run mixedSteps (.atStart 0x200 mixedRecord), Accounted 0x200 mixedRecord e := by
  have hlength : mixedRecord.length < 2 ^ 64 := by decide
  obtain ⟨haccounted, -, -, hconsumed, hmachine⟩ :=
    run_accounts_for_every_byte 0x200 mixedRecord mixedSteps
  exact ⟨hlength, hmachine hlength, hconsumed, haccounted⟩

end DoublingHeap.Proofs.CursorRuns
