import DoublingHeap.Record

/-! # What the steps of a reader read

A cursor *passes* a run of bytes to become another (`Passes`): the bytes stand in front of what is
left, and the position moves by their number. Every successful step is described by the bytes that
it passes, and these are the bytes that an encoder writes: `step_take_iff`, `step_fixed_iff`,
`step_uint_iff`, `step_signature_iff`, `step_version_iff`. Runs of steps compose by
`passes_append_iff`, so a reader and an encoder are compared field by field.

A reader *reads back* a run of bytes as a value (`ReadsBack`) if it passes them wherever they stand.
This composes along the fields of a record (`ReadsBack.bind`). Every reader reads back what it has
passed (`Local`): it never looks at a byte behind. -/

namespace DoublingHeap.Proofs.Reading

open DoublingHeap.Bytes.LittleEndian

attribute [local instance (high)] instPowNat

/-- The cursor `c'` is what is left of `c` after `bytes`. -/
structure Passes (c : Cursor) (bytes : List UInt8) (c' : Cursor) : Prop where
  rest : c.rest = bytes ++ c'.rest
  position : c'.position = c.position + bytes.length
  address : c'.address = c.address

theorem passes_nil_iff {c c' : Cursor} : Passes c [] c' ↔ c' = c := by
  constructor
  · rintro ⟨hr, hp, ha⟩
    rcases c with ⟨a, p, r⟩
    rcases c' with ⟨a', p', r'⟩
    simp only [List.nil_append, List.length_nil, Nat.add_zero] at hr hp ha
    rw [hr, hp, ha]
  · rintro rfl
    exact ⟨rfl, rfl, rfl⟩

/-- **Runs of bytes compose.** -/
theorem passes_append_iff {c c'' : Cursor} {xs ys : List UInt8} :
    Passes c (xs ++ ys) c'' ↔ ∃ c', Passes c xs c' ∧ Passes c' ys c'' := by
  constructor
  · rintro ⟨hr, hp, ha⟩
    refine ⟨⟨c.address, c.position + xs.length, ys ++ c''.rest⟩, ⟨?_, rfl, rfl⟩, ⟨rfl, ?_, ha⟩⟩
    · rw [hr, List.append_assoc]
    · rw [hp, List.length_append, Nat.add_assoc]
  · rintro ⟨c', ⟨hr, hp, ha⟩, ⟨hr', hp', ha'⟩⟩
    refine ⟨?_, ?_, ha'.trans ha⟩
    · rw [hr, hr', List.append_assoc]
    · rw [hp', hp, List.length_append, Nat.add_assoc]

theorem Passes.append {c c' c'' : Cursor} {xs ys : List UInt8} (hx : Passes c xs c')
    (hy : Passes c' ys c'') : Passes c (xs ++ ys) c'' :=
  passes_append_iff.mpr ⟨c', hx, hy⟩

theorem passes_atStart (address : Nat) (xs ys : List UInt8) :
    Passes (Cursor.atStart address (xs ++ ys)) xs ⟨address, xs.length, ys⟩ :=
  ⟨rfl, (Nat.zero_add _).symm, rfl⟩

theorem Passes.eq_append {address : Nat} {record bytes : List UInt8} {c' : Cursor}
    (h : Passes (Cursor.atStart address record) bytes c') : record = bytes ++ c'.rest :=
  h.rest

theorem read_eq_ok_iff {α : Type} {r : Reader α} {address : Nat} {record : List UInt8} {a : α} :
    r.read address record = .ok a ↔ ∃ c', r.step (Cursor.atStart address record) = (.ok a, c') := by
  unfold Reader.read
  constructor
  · intro h
    exact ⟨_, Prod.ext h rfl⟩
  · rintro ⟨c', h⟩
    rw [h]

/-! ### Single steps -/

theorem step_take_iff {n : Nat} {c c' : Cursor} {bytes : List UInt8} :
    (Reader.take n).step c = (.ok bytes, c') ↔ bytes.length = n ∧ Passes c bytes c' := by
  rw [Reader.step_take]
  constructor
  · intro h
    split at h
    · rename_i hn
      cases h
      have hlen : (c.rest.take n).length = n := by
        rw [List.length_take]
        exact Nat.min_eq_left hn
      exact ⟨hlen, (List.take_append_drop n c.rest).symm, by rw [hlen], rfl⟩
    · cases h
  · rintro ⟨rfl, hr, hp, ha⟩
    have hn : bytes.length ≤ c.remaining := by
      unfold Cursor.remaining
      rw [hr, List.length_append]
      exact Nat.le_add_right ..
    rcases c' with ⟨a', p', r'⟩
    simp only at hr hp ha
    rw [if_pos hn, hr, List.take_left, List.drop_left, hp, ha]

theorem step_skip_iff {n : Nat} {c c' : Cursor} {u : Unit} :
    (Reader.skip n).step c = (.ok u, c') ↔ ∃ bytes, bytes.length = n ∧ Passes c bytes c' := by
  unfold Reader.skip
  rw [Reader.step_bind_eq_ok]
  constructor
  · rintro ⟨bytes, c₁, h, hc⟩
    rw [Reader.step_pure] at hc
    cases hc
    exact ⟨bytes, step_take_iff.mp h⟩
  · rintro ⟨bytes, h⟩
    exact ⟨bytes, c', step_take_iff.mpr h, rfl⟩

theorem step_byte_iff {c c' : Cursor} {b : UInt8} :
    Reader.byte.step c = (.ok b, c') ↔ Passes c [b] c' := by
  unfold Reader.byte
  rw [Reader.step_bind_eq_ok]
  constructor
  · rintro ⟨bytes, c₁, h, hc⟩
    obtain ⟨hlen, hp⟩ := step_take_iff.mp h
    obtain ⟨b', rfl⟩ := List.length_eq_one_iff.mp hlen
    rw [Reader.step_pure] at hc
    cases hc
    exact hp
  · intro h
    exact ⟨[b], c', step_take_iff.mpr ⟨rfl, h⟩, rfl⟩

/-- **A field of a fixed width** holds what the encoder writes at that width. -/
theorem step_fixed_iff {w n : Nat} {c c' : Cursor} :
    (Reader.fixed w).step c = (.ok n, c') ↔ n < 256 ^ w ∧ Passes c (encode w n) c' := by
  unfold Reader.fixed
  rw [Reader.step_bind_eq_ok]
  constructor
  · rintro ⟨bytes, c₁, h, hc⟩
    obtain ⟨rfl, hp⟩ := step_take_iff.mp h
    rw [Reader.step_pure] at hc
    cases hc
    exact ⟨decode_lt bytes, by rw [encode_decode]; exact hp⟩
  · rintro ⟨hn, hp⟩
    refine ⟨encode w n, c', step_take_iff.mpr ⟨length_encode w n, hp⟩, ?_⟩
    rw [decode_encode hn, Reader.step_pure]

theorem step_uint_iff {w n : Nat} {c c' : Cursor} :
    (Reader.uint w).step c = (.ok n, c') ↔
      (1 ≤ w ∧ w ≤ maxWidth) ∧ n < 256 ^ w ∧ Passes c (encode w n) c' := by
  unfold Reader.uint
  split
  · rename_i hw
    constructor
    · intro h
      cases h
    · rintro ⟨⟨h1, h8⟩, -⟩
      omega
  · rename_i hw
    rw [step_fixed_iff]
    exact ⟨fun h => ⟨by omega, h⟩, fun h => h.2⟩

theorem step_refuse {α : Type} (error : Nat → HeapError) (c : Cursor) :
    (Reader.refuse error : Reader α).step c = (.error (error c.address), c) := rfl

theorem step_signature_iff {expected : List UInt8} (h4 : expected.length = 4) {c c' : Cursor}
    {u : Unit} : (Reader.signature expected).step c = (.ok u, c') ↔ Passes c expected c' := by
  unfold Reader.signature
  rw [Reader.step_bind_eq_ok]
  constructor
  · rintro ⟨found, c₁, h, hc⟩
    obtain ⟨-, hp⟩ := step_take_iff.mp h
    split at hc
    · cases hc
    · rename_i hne
      rw [Reader.step_pure] at hc
      cases hc
      rw [← Decidable.not_not.mp hne]
      exact hp
  · intro hp
    refine ⟨expected, c', step_take_iff.mpr ⟨h4, hp⟩, ?_⟩
    rw [if_neg (Decidable.not_not.mpr rfl), Reader.step_pure]

theorem step_version_iff {subject : Structure} {c c' : Cursor} {u : Unit} :
    (Reader.version subject).step c = (.ok u, c') ↔ Passes c [0] c' := by
  unfold Reader.version
  rw [Reader.step_bind_eq_ok]
  constructor
  · rintro ⟨v, c₁, h, hc⟩
    split at hc
    · cases hc
    · rename_i hv
      rw [Reader.step_pure] at hc
      cases hc
      rw [← Decidable.not_not.mp hv]
      exact step_byte_iff.mp h
  · intro hp
    exact ⟨0, c', step_byte_iff.mpr hp, rfl⟩

/-! ### The first step of several -/

section Bind

variable {β : Type} {c c'' : Cursor} {b : β}

theorem step_byte_bind {f : UInt8 → Reader β} (h : (Reader.byte >>= f).step c = (.ok b, c'')) :
    ∃ v c', Passes c (encode 1 v.toNat) c' ∧ (f v).step c' = (.ok b, c'') := by
  obtain ⟨v, c', hv, h⟩ := Reader.step_bind_eq_ok.mp h
  refine ⟨v, c', ?_, h⟩
  unfold encode encode
  rw [UInt8.ofNat_toNat]
  exact step_byte_iff.mp hv

theorem step_fixed_bind {w : Nat} {f : Nat → Reader β}
    (h : (Reader.fixed w >>= f).step c = (.ok b, c'')) :
    ∃ n c', n < 256 ^ w ∧ Passes c (encode w n) c' ∧ (f n).step c' = (.ok b, c'') := by
  obtain ⟨n, c', hn, h⟩ := Reader.step_bind_eq_ok.mp h
  obtain ⟨hlt, hp⟩ := step_fixed_iff.mp hn
  exact ⟨n, c', hlt, hp, h⟩

theorem step_uint_bind {w : Nat} {f : Nat → Reader β}
    (h : (Reader.uint w >>= f).step c = (.ok b, c'')) :
    ∃ n c', n < 256 ^ w ∧ Passes c (encode w n) c' ∧ (f n).step c' = (.ok b, c'') := by
  obtain ⟨n, c', hn, h⟩ := Reader.step_bind_eq_ok.mp h
  obtain ⟨-, hlt, hp⟩ := step_uint_iff.mp hn
  exact ⟨n, c', hlt, hp, h⟩

end Bind

/-! ### Reading back -/

/-- Wherever these bytes stand, the reader passes them and gives this value. -/
def ReadsBack {α : Type} (r : Reader α) (bytes : List UInt8) (a : α) : Prop :=
  ∀ c c', Passes c bytes c' → r.step c = (.ok a, c')

theorem ReadsBack.read {α : Type} {r : Reader α} {bytes : List UInt8} {a : α}
    (h : ReadsBack r bytes a) (address : Nat) (rest : List UInt8) :
    r.read address (bytes ++ rest) = .ok a :=
  read_eq_ok_iff.mpr ⟨_, h _ _ (passes_atStart address bytes rest)⟩

theorem readsBack_pure {α : Type} (a : α) : ReadsBack (pure a) [] a := by
  intro c c' hp
  rw [passes_nil_iff.mp hp, Reader.step_pure]

/-- **Fields are read back one after the other.** -/
theorem ReadsBack.bind {α β : Type} {r : Reader α} {f : α → Reader β} {xs ys : List UInt8} {a : α}
    {b : β} (hr : ReadsBack r xs a) (hf : ReadsBack (f a) ys b) :
    ReadsBack (r >>= f) (xs ++ ys) b := by
  intro c c'' hp
  obtain ⟨c', h, h'⟩ := passes_append_iff.mp hp
  exact Reader.step_bind_eq_ok.mpr ⟨a, c', hr c c' h, hf c' c'' h'⟩

theorem readsBack_fixed {w n : Nat} (hn : n < 256 ^ w) :
    ReadsBack (Reader.fixed w) (encode w n) n :=
  fun _ _ hp => step_fixed_iff.mpr ⟨hn, hp⟩

theorem readsBack_uint {w n : Nat} (hw : 1 ≤ w ∧ w ≤ maxWidth) (hn : n < 256 ^ w) :
    ReadsBack (Reader.uint w) (encode w n) n :=
  fun _ _ hp => step_uint_iff.mpr ⟨hw, hn, hp⟩

theorem readsBack_byte (b : UInt8) : ReadsBack Reader.byte (encode 1 b.toNat) b := by
  intro c c' hp
  unfold encode encode at hp
  rw [UInt8.ofNat_toNat] at hp
  exact step_byte_iff.mpr hp

theorem readsBack_signature {expected : List UInt8} (h4 : expected.length = 4) :
    ReadsBack (Reader.signature expected) expected () :=
  fun _ _ hp => (step_signature_iff h4).mpr hp

theorem readsBack_version (subject : Structure) :
    ReadsBack (Reader.version subject) (encode 1 0) () :=
  fun _ _ hp => step_version_iff.mpr hp

/-! ### Steps that depend on no more than they pass -/

section Local

variable {α β : Type}

/-- A step that succeeds would do the same wherever the bytes that it passes stand. -/
def Local (r : Reader α) : Prop :=
  ∀ c a c', r.step c = (.ok a, c') → ∃ bytes, Passes c bytes c' ∧ ReadsBack r bytes a

theorem local_pure (a : α) : Local (pure a : Reader α) := by
  intro c a' c' hstep
  rw [Reader.step_pure] at hstep
  cases hstep
  exact ⟨[], passes_nil_iff.mpr rfl, readsBack_pure a⟩

theorem Local.bind {r : Reader α} {f : α → Reader β} (hr : Local r) (hf : ∀ a, Local (f a)) :
    Local (r >>= f) := by
  intro c b c'' hstep
  obtain ⟨a, c', hfirst, hrest⟩ := Reader.step_bind_eq_ok.mp hstep
  obtain ⟨xs, hx, hxback⟩ := hr c a c' hfirst
  obtain ⟨ys, hy, hyback⟩ := hf a c' b c'' hrest
  exact ⟨xs ++ ys, hx.append hy, hxback.bind hyback⟩

theorem local_refuse (error : Nat → HeapError) : Local (Reader.refuse error : Reader α) := by
  intro c a c' hstep
  rw [step_refuse] at hstep
  cases hstep

theorem local_take (n : Nat) : Local (Reader.take n) := by
  intro c bytes c' hstep
  obtain ⟨hlen, hp⟩ := step_take_iff.mp hstep
  exact ⟨bytes, hp, fun _ _ hp' => step_take_iff.mpr ⟨hlen, hp'⟩⟩

theorem local_skip (n : Nat) : Local (Reader.skip n) := (local_take n).bind fun _ => local_pure _

theorem local_fixed (w : Nat) : Local (Reader.fixed w) := (local_take w).bind fun _ => local_pure _

theorem local_uint (w : Nat) : Local (Reader.uint w) := by
  unfold Reader.uint
  split
  · exact local_refuse _
  · exact local_fixed w

theorem local_signature (expected : List UInt8) : Local (Reader.signature expected) := by
  refine (local_take 4).bind fun found => ?_
  split
  · exact local_refuse _
  · exact local_pure ()

theorem local_version (subject : Structure) : Local (Reader.version subject) := by
  refine ((local_take 1).bind fun _ => local_pure _).bind fun v => ?_
  split
  · exact local_refuse _
  · exact local_pure ()

theorem Local.collect {r : Reader (Option α)} (hr : Local r) (n : Nat) (found : List α) :
    Local (Reader.collect r n found) := by
  induction n generalizing found with
  | zero => exact local_pure _
  | succ n ih =>
    refine hr.bind fun a? => ?_
    cases a? with
    | none => exact local_pure _
    | some a => exact ih (a :: found)

end Local

end DoublingHeap.Proofs.Reading
