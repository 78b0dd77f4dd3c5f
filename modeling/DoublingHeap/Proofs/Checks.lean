import DoublingHeap.Proofs.Blocks

/-! # Conditions in order

Reading tests conditions one after the other and fails with the error of the first that does not
hold. `refusal?` finds that error in a list of checks, and `judge` is the result of an action that
is decided by the checks and gives a value if all of them hold. It is enough to know what is seen of
the value to tell when such an action succeeds (`exists_ok_iff`) and how it fails
(`refusal?_of_error`).

A reader is *judged* by checks (`Judges`) if they decide its result, and the cursor that it leaves
is known. On a record in an image a step is judged by what stands at its position: `bytesAt` and
`numberAt` are the bytes and the number there, and `cursorAt` is the cursor at a position of a
record. Steps in a row are judged by the checks of the first, then by those of the second
(`Judges.bind`), so a reader is described by the fields at their positions, in the order in which
they are tested. -/

namespace DoublingHeap.Proofs.Checks

open DoublingHeap.Bytes.LittleEndian
open DoublingHeap.Proofs.Reading DoublingHeap.Proofs.Blocks

attribute [local instance (high)] instPowNat

variable {α β : Type}

/-! ### The first condition that does not hold -/

/-- A condition, and the error if it does not hold. -/
structure Check where
  condition : Prop
  [decidable : Decidable condition]
  error : HeapError

attribute [instance] Check.decidable

/-- The error of the first check whose condition does not hold. -/
def refusal? : List Check → Option HeapError
  | [] => none
  | check :: checks => if check.condition then refusal? checks else some check.error

/-- The result that the checks decide: the error of the first that does not hold, or a value. -/
def judge (checks : List Check) (a : α) : Except HeapError α :=
  match refusal? checks with
  | none => .ok a
  | some e => .error e

variable {C D : List Check} {a : α} {b : β} {e : HeapError}

theorem refusal?_append : refusal? (C ++ D) = (refusal? C).or (refusal? D) := by
  induction C with
  | nil => rfl
  | cons c C ih =>
    rw [List.cons_append, refusal?, refusal?]
    split
    · exact ih
    · rfl

theorem refusal?_eq_none_iff : refusal? C = none ↔ ∀ c ∈ C, c.condition := by
  induction C with
  | nil => simp [refusal?]
  | cons c C ih =>
    rw [refusal?, List.forall_mem_cons]
    split
    · rename_i hc
      rw [ih]
      exact (and_iff_right hc).symm
    · rename_i hc
      simp [hc]

theorem mem_of_refusal? (h : refusal? C = some e) : ∃ c ∈ C, c.error = e := by
  induction C with
  | nil => cases h
  | cons c C ih =>
    rw [refusal?] at h
    split at h
    · obtain ⟨c', hmem, herror⟩ := ih h
      exact ⟨c', List.mem_cons_of_mem _ hmem, herror⟩
    · exact ⟨c, List.mem_cons_self .., Option.some.inj h⟩

theorem address_of_refusal? {address : Nat} (hC : ∀ c ∈ C, c.error.address = address)
    (h : refusal? C = some e) : e.address = address := by
  obtain ⟨c, hc, rfl⟩ := mem_of_refusal? h
  exact hC c hc

/-- The kind of an error is told by the first check, or by the checks after it. -/
theorem kind_of_refusal? {c : Check} {k : ErrorKind} (h : refusal? (c :: C) = some e)
    (hC : refusal? C = some e → e.kind = k) :
    e.kind = if ¬ c.condition then c.error.kind else k := by
  rw [refusal?] at h
  by_cases hc : c.condition
  · rw [if_pos hc] at h
    rw [if_neg (Decidable.not_not.mpr hc)]
    exact hC h
  · rw [if_neg hc] at h
    rw [if_pos hc, Option.some.inj h]

theorem kind_of_last {c : Check} (h : refusal? [c] = some e) : e.kind = c.error.kind := by
  obtain ⟨c', hc, rfl⟩ := mem_of_refusal? h
  rw [List.mem_singleton.mp hc]

theorem judge_eq_ok_iff {a' : α} : judge C a = .ok a' ↔ (∀ c ∈ C, c.condition) ∧ a = a' := by
  rw [← refusal?_eq_none_iff]
  unfold judge
  split <;> rename_i h <;> simp [h]

theorem judge_eq_error_iff : judge C a = .error e ↔ refusal? C = some e := by
  unfold judge
  split <;> rename_i h <;> simp [h]

/-- **Checks in a row.** What comes after an action that is decided by checks is decided by more
checks, for which those before hold. -/
theorem judge_bind {f : α → Except HeapError β}
    (hf : (∀ c ∈ C, c.condition) → f a = judge D b) :
    (judge C a).bind f = judge (C ++ D) b := by
  rw [← refusal?_eq_none_iff] at hf
  unfold judge at hf ⊢
  rw [refusal?_append]
  cases hC : refusal? C with
  | none => exact hf hC
  | some e => rfl

theorem judge_bind_ok {f : α → Except HeapError β} (hf : f a = .ok b) :
    (judge C a).bind f = judge C b := by
  unfold judge
  cases refusal? C with
  | none => exact hf
  | some e => rfl

theorem map_bind {γ : Type} (x : Except HeapError α) (f : α → Except HeapError β) (g : β → γ) :
    (x.bind f).map g = x.bind fun a => (f a).map g := by
  cases x <;> rfl

theorem judge_cons {p : Prop} [Decidable p] {r : Except HeapError α} (he : ¬ p → r = .error e)
    (hr : p → r = judge C a) : r = judge (⟨p, e⟩ :: C) a := by
  by_cases hp : p
  · rw [hr hp]
    unfold judge
    rw [refusal?, if_pos hp]
  · rw [he hp]
    unfold judge
    rw [refusal?, if_neg hp]

/-! ### Actions of whose value something is seen

An action is decided by checks, and what is seen of its value is known. -/

section Seen

variable {x : Except HeapError α} {g : α → β} (hx : x.map g = judge C b)
include hx

theorem conditions_of_ok (ha : x = .ok a) : (∀ c ∈ C, c.condition) ∧ b = g a := by
  subst ha
  exact judge_eq_ok_iff.mp hx.symm

theorem refusal?_of_error (he : x = .error e) : refusal? C = some e := by
  subst he
  exact judge_eq_error_iff.mp hx.symm

theorem exists_ok_iff : (∃ a, x = .ok a) ↔ ∀ c ∈ C, c.condition := by
  constructor
  · rintro ⟨a, ha⟩
    exact (conditions_of_ok hx ha).1
  · intro hC
    rw [judge_eq_ok_iff.mpr ⟨hC, rfl⟩] at hx
    cases x with
    | ok a => exact ⟨a, rfl⟩
    | error e => cases hx

end Seen

/-! ### Readers that are decided by checks -/

/-- The checks decide the result of the reader; if all hold, it gives this value and leaves this
cursor. -/
structure Judges (r : Reader α) (c : Cursor) (checks : List Check) (a : α) (c' : Cursor) :
    Prop where
  result : (r.step c).1 = judge checks a
  cursor : refusal? checks = none → (r.step c).2 = c'

variable {r : Reader α} {c c' c'' : Cursor}

theorem Judges.of_ok (h : r.step c = (.ok a, c')) : Judges r c [] a c' :=
  ⟨congrArg Prod.fst h, fun _ => congrArg Prod.snd h⟩

theorem Judges.refused {f : α → Reader β} (hr : Judges r c C a c') (hC : refusal? C = some e) :
    ((r >>= f).step c).1 = .error e := by
  have hresult := hr.result
  rw [judge_eq_error_iff.mpr hC] at hresult
  have hstep : r.step c = (.error e, (r.step c).2) := Prod.ext hresult rfl
  rw [Reader.step_bind, hstep]

/-- **Steps in a row** are judged by the checks of the first, then by those of the second. -/
theorem Judges.bind {f : α → Reader β} (hr : Judges r c C a c') (hf : Judges (f a) c' D b c'') :
    Judges (r >>= f) c (C ++ D) b c'' := by
  cases hC : refusal? C with
  | some e =>
    have hD : refusal? (C ++ D) = some e := by rw [refusal?_append, hC, Option.some_or]
    refine ⟨(hr.refused hC).trans (judge_eq_error_iff.mpr hD).symm, fun hnone => ?_⟩
    rw [hD] at hnone
    cases hnone
  | none =>
    have hresult := hr.result
    unfold judge at hresult
    rw [hC] at hresult
    have hstep : r.step c = (.ok a, c') := Prod.ext hresult (hr.cursor hC)
    have hD : refusal? (C ++ D) = refusal? D := by rw [refusal?_append, hC, Option.none_or]
    have hbind : (r >>= f).step c = (f a).step c' := by rw [Reader.step_bind, hstep]
    refine ⟨?_, fun hnone => ?_⟩
    · rw [hbind, hf.result]
      unfold judge
      rw [hD]
    · rw [hbind]
      exact hf.cursor (hD ▸ hnone)

theorem judges_pure (a : α) (c : Cursor) : Judges (pure a : Reader α) c [] a c :=
  .of_ok (Reader.step_pure a c)

/-- A reader that goes on only under a condition; the condition may be put in other words. -/
theorem Judges.require {p p' : Prop} [Decidable p] [Decidable p'] {q : Reader α} (hp : p ↔ p')
    (hq : (q.step c).1 = .error e) (hr : Judges r c D a c') :
    Judges (if ¬ p then q else r) c (⟨p', e⟩ :: D) a c' := by
  by_cases h : p
  · have hD : refusal? (⟨p', e⟩ :: D) = refusal? D := by rw [refusal?, if_pos (hp.mp h)]
    rw [if_neg (Decidable.not_not.mpr h)]
    refine ⟨?_, fun hnone => hr.cursor (hD ▸ hnone)⟩
    rw [hr.result]
    unfold judge
    rw [hD]
  · have hD : refusal? (⟨p', e⟩ :: D) = some e := by rw [refusal?, if_neg (mt hp.mpr h)]
    rw [if_pos h]
    refine ⟨hq.trans (judge_eq_error_iff.mpr hD).symm, fun hnone => ?_⟩
    rw [hD] at hnone
    cases hnone

/-! ### Positions in an image -/

/-- The bytes of an image in the range of a length at an address. -/
def bytesAt (image : Image) (address length : Nat) : List UInt8 :=
  (image.toList.drop address).take length

/-- The number in the field of a width at an address. -/
def numberAt (image : Image) (address width : Nat) : Nat := decode (bytesAt image address width)

/-- The cursor after `k` bytes of the record of `n` bytes at an address. -/
def cursorAt (image : Image) (address n k : Nat) : Cursor :=
  ⟨address, k, bytesAt image (address + k) (n - k)⟩

variable {image : Image} {address n k w : Nat}

theorem bytesAt_add (address m n : Nat) :
    bytesAt image address (m + n) = bytesAt image address m ++ bytesAt image (address + m) n := by
  unfold bytesAt
  rw [List.take_add, List.drop_drop]

theorem length_bytesAt (hn : address + n ≤ image.size) : (bytesAt image address n).length = n :=
  length_range hn

theorem holds_bytesAt (hn : address + n ≤ image.size) :
    Holds image address (bytesAt image address n) :=
  holds_range hn

theorem bytesAt_of_holds {bytes : List UInt8} (hh : Holds image address bytes)
    (hlen : bytes.length = n) : bytesAt image address n = bytes := by
  rw [← hlen]
  exact hh.2

theorem numberAt_lt (image : Image) (address w : Nat) : numberAt image address w < 256 ^ w := by
  refine Nat.lt_of_lt_of_le (decode_lt _) (Nat.pow_le_pow_right (by decide) ?_)
  unfold bytesAt
  rw [List.length_take]
  exact Nat.min_le_left ..

theorem encode_numberAt (hw : address + w ≤ image.size) :
    encode w (numberAt image address w) = bytesAt image address w := by
  have heq := encode_decode (bytesAt image address w)
  rwa [length_bytesAt hw] at heq

theorem readRecord_eq (image : Image) (address n : Nat) :
    image.readRecord address n
      = judge [⟨address + n ≤ image.size, .input address n ⟨address, n, image.size⟩⟩]
          (bytesAt image address n) := by
  refine judge_cons (fun hn => ?_) fun hn => ?_
  · unfold Image.readRecord Image.record
    rw [if_neg hn]
    rfl
  · exact readRecord_eq_ok_iff.mpr ⟨holds_bytesAt hn, length_bytesAt hn⟩

theorem Judges.read (hr : Judges r (cursorAt image address n 0) C a c') :
    r.read address (bytesAt image address n) = judge C a :=
  hr.result

/-! ### Steps at a position -/

section Steps

variable (hn : address + n ≤ image.size) (hk : k + w ≤ n)
include hn hk

theorem passes_at : Passes (cursorAt image address n k) (bytesAt image (address + k) w)
    (cursorAt image address n (k + w)) := by
  refine ⟨?_, ?_, rfl⟩
  · have hsplit : n - k = w + (n - (k + w)) := by omega
    show bytesAt image (address + k) (n - k) = _ ++ bytesAt image (address + (k + w)) (n - (k + w))
    rw [hsplit, bytesAt_add, Nat.add_assoc]
  · rw [length_bytesAt (by omega)]
    rfl

theorem judges_take : Judges (Reader.take w) (cursorAt image address n k) []
    (bytesAt image (address + k) w) (cursorAt image address n (k + w)) :=
  .of_ok (step_take_iff.mpr ⟨length_bytesAt (by omega), passes_at hn hk⟩)

theorem judges_skip : Judges (Reader.skip w) (cursorAt image address n k) [] ()
    (cursorAt image address n (k + w)) :=
  (judges_take hn hk).bind (judges_pure ..)

theorem judges_uint (hw : 1 ≤ w ∧ w ≤ maxWidth) :
    Judges (Reader.uint w) (cursorAt image address n k) [] (numberAt image (address + k) w)
      (cursorAt image address n (k + w)) := by
  refine .of_ok (step_uint_iff.mpr ⟨hw, numberAt_lt .., ?_⟩)
  rw [encode_numberAt (by omega)]
  exact passes_at hn hk

end Steps

/-- The check of the signature at an address. -/
def signatureCheck (image : Image) (address : Nat) (signature : List UInt8) : Check :=
  ⟨bytesAt image address 4 = signature, .signature address signature (bytesAt image address 4)⟩

/-- The check of the version after a signature. -/
def versionCheck (image : Image) (address : Nat) (subject : Structure) : Check :=
  ⟨numberAt image (address + 4) 1 = 0,
    .version address subject (numberAt image (address + 4) 1)⟩

/-- **A record begins** with a signature and a version, which are tested in this order. -/
theorem judges_marks (signature : List UInt8) (subject : Structure)
    (hn : address + n ≤ image.size) (h5 : 5 ≤ n) :
    Judges (Reader.signature signature >>= fun _ => Reader.version subject)
      (cursorAt image address n 0)
      [signatureCheck image address signature, versionCheck image address subject] ()
      (cursorAt image address n 5) := by
  have hsignature : Judges (Reader.signature signature) (cursorAt image address n 0)
      [signatureCheck image address signature] () (cursorAt image address n 4) :=
    (judges_take hn (k := 0) (w := 4) (by omega)).bind (.require Iff.rfl rfl (judges_pure ..))
  obtain ⟨v, hv⟩ : ∃ v, bytesAt image (address + 4) 1 = [v] :=
    List.length_eq_one_iff.mp (length_bytesAt (by omega))
  have hnumber : v.toNat = numberAt image (address + 4) 1 := by
    unfold numberAt
    rw [hv]
    rfl
  have hzero : v = 0 ↔ numberAt image (address + 4) 1 = 0 := by
    rw [← hnumber, ← UInt8.toNat_inj]
    rfl
  have hbyte : Judges Reader.byte (cursorAt image address n 4) [] v
      (cursorAt image address n 5) := by
    refine .of_ok (step_byte_iff.mpr ?_)
    rw [← hv]
    exact passes_at hn (k := 4) (w := 1) h5
  refine hsignature.bind (hbyte.bind (.require hzero ?_ (judges_pure ..)))
  rw [← hnumber]
  rfl

end DoublingHeap.Proofs.Checks
