import DoublingHeap.Proofs.Headers

/-! # What can be wrong

Every error of reading carries the address of the structure that was read, and for each structure
there is a list of what can be wrong with it: `RecordFault` for any record by itself, `HeaderFault`
for a header, and `BlockFault` for a block. A block is refused as foreign only if another owner
stands in its heading.

`fault_of_readHeader`, `fault_of_readDirect` and `fault_of_readIndirect` say that these lists are
complete. -/

namespace DoublingHeap.Proofs.Faults

open DoublingHeap.Bytes.LittleEndian
open DoublingHeap.Proofs.Reading DoublingHeap.Proofs.Blocks DoublingHeap.Proofs.Headers

attribute [local instance (high)] instPowNat

variable {image : Image} {s : Superblock} {h : Header} {address : Nat} {e : HeapError} {t : Level}
  {α β : Type}

/-! ### Where a composed action fails -/

theorem step_bind_eq_error {r : Reader α} {f : α → Reader β} {c c'' : Cursor} :
    (r >>= f).step c = (.error e, c'') ↔
      r.step c = (.error e, c'') ∨
        ∃ a c', r.step c = (.ok a, c') ∧ (f a).step c' = (.error e, c'') := by
  rw [Reader.step_bind]
  rcases r.step c with ⟨e' | a, c'⟩
  · simp
  · constructor
    · exact fun h => .inr ⟨a, c', rfl, h⟩
    · rintro (h | ⟨_, _, h, he⟩) <;> cases h
      exact he

theorem bind_eq_error_iff {x : Except HeapError α} {f : α → Except HeapError β} :
    x >>= f = .error e ↔ x = .error e ∨ ∃ a, x = .ok a ∧ f a = .error e := by
  cases x <;> simp [bind, Except.bind]

theorem result_bind_eq_error {x : Logged α} {f : α → Logged β} :
    (x >>= f).result t = .error e ↔
      x.result t = .error e ∨ ∃ a, x.result t = .ok a ∧ (f a).result t = .error e := by
  rw [Logged.result_bind]
  cases x.result t <;> simp [Except.bind]

theorem mapError_eq_error_iff {ε : Type} {r : Except ε α} {f : ε → HeapError} :
    r.mapError f = .error e ↔ ∃ e', r = .error e' ∧ f e' = e := by
  cases r with
  | error e' =>
    constructor
    · intro h
      cases h
      exact ⟨e', rfl, rfl⟩
    · rintro ⟨_, ⟨⟩, rfl⟩
      rfl
  | ok a =>
    constructor
    · intro h
      cases h
    · rintro ⟨_, ⟨⟩, -⟩

theorem read_eq_error_iff {r : Reader α} {record : List UInt8} :
    r.read address record = .error e ↔
      ∃ c', r.step (Cursor.atStart address record) = (.error e, c') := by
  unfold Reader.read
  constructor
  · intro h
    exact ⟨_, Prod.ext h rfl⟩
  · rintro ⟨c', h⟩
    rw [h]

/-! ### Records -/

/-- What can be wrong with a record by itself. -/
inductive RecordFault (address : Nat) : HeapError → Prop where
  | signature (expected found : List UInt8) :
      RecordFault address (.signature address expected found)
  | version (subject : Structure) (version : Nat) :
      RecordFault address (.version address subject version)
  | truncated (needed position remaining : Nat) :
      RecordFault address (.malformed address (.truncated needed position remaining))
  | integerWidth (width : Nat) : RecordFault address (.malformed address (.integerWidth width))

/-- Whatever a reader refuses is a fault of the record that it reads. -/
structure Blames (r : Reader α) : Prop where
  fault : ∀ c e c', r.step c = (.error e, c') → RecordFault c.address e
  address : ∀ c a c', r.step c = (.ok a, c') → c'.address = c.address

theorem blames_pure (a : α) : Blames (pure a : Reader α) := by
  refine ⟨fun c e c' hr => ?_, fun c a' c' hr => ?_⟩ <;> rw [Reader.step_pure] at hr <;> cases hr
  rfl

theorem Blames.bind {r : Reader α} {f : α → Reader β} (hr : Blames r) (hf : ∀ a, Blames (f a)) :
    Blames (r >>= f) := by
  refine ⟨fun c e c'' hstep => ?_, fun c b c'' hstep => ?_⟩
  · rcases step_bind_eq_error.mp hstep with hstep | ⟨a, c', hfirst, hstep⟩
    · exact hr.fault c e c'' hstep
    · rw [← hr.address c a c' hfirst]
      exact (hf a).fault c' e c'' hstep
  · obtain ⟨a, c', hfirst, hstep⟩ := Reader.step_bind_eq_ok.mp hstep
    exact ((hf a).address c' b c'' hstep).trans (hr.address c a c' hfirst)

theorem blames_refuse {error : Nat → HeapError} (herror : ∀ a, RecordFault a (error a)) :
    Blames (Reader.refuse error : Reader α) := by
  refine ⟨fun c e c' hr => ?_, fun c a c' hr => ?_⟩ <;> rw [step_refuse] at hr <;> cases hr
  exact herror _

theorem blames_take (n : Nat) : Blames (Reader.take n) := by
  refine ⟨fun c e c' hr => ?_, fun c bytes c' hr => (step_take_iff.mp hr).2.address⟩
  rw [Reader.step_take] at hr
  split at hr
  · cases hr
  · cases hr
    exact .truncated ..

theorem blames_skip (n : Nat) : Blames (Reader.skip n) :=
  (blames_take n).bind fun _ => blames_pure _

theorem blames_byte : Blames Reader.byte := (blames_take 1).bind fun _ => blames_pure _

theorem blames_fixed (w : Nat) : Blames (Reader.fixed w) :=
  (blames_take w).bind fun _ => blames_pure _

theorem blames_uint (w : Nat) : Blames (Reader.uint w) := by
  unfold Reader.uint
  split
  · exact blames_refuse fun _ => .integerWidth w
  · exact blames_fixed w

theorem blames_signature (expected : List UInt8) : Blames (Reader.signature expected) := by
  refine (blames_take 4).bind fun found => ?_
  split
  · exact blames_refuse fun _ => .signature expected found
  · exact blames_pure ()

theorem blames_version (subject : Structure) : Blames (Reader.version subject) := by
  refine blames_byte.bind fun v => ?_
  split
  · exact blames_refuse fun _ => .version subject v.toNat
  · exact blames_pure ()

theorem Blames.collect {r : Reader (Option α)} (hr : Blames r) (n : Nat) (found : List α) :
    Blames (Reader.collect r n found) := by
  induction n generalizing found with
  | zero => exact blames_pure _
  | succ n ih =>
    refine hr.bind fun a? => ?_
    cases a? with
    | none => exact blames_pure _
    | some a => exact ih (a :: found)

theorem Blames.of_read {r : Reader α} (hr : Blames r) {record : List UInt8}
    (hread : r.read address record = .error e) : RecordFault address e := by
  obtain ⟨c', hstep⟩ := read_eq_error_iff.mp hread
  exact hr.fault _ e c' hstep

/-! ### Headers -/

/-- What can be wrong with a header. -/
inductive HeaderFault (address : Nat) : HeapError → Prop where
  | record {e : HeapError} (he : RecordFault address e) : HeaderFault address e
  | range (length : Nat) (source : OutOfRange) : HeaderFault address (.input address length source)
  | filters : HeaderFault address (.feature address .filters)
  | table (error : TableError) : HeaderFault address (.malformed address (.tableParameter error))
  | noAddressSpace : HeaderFault address (.malformed address .noAddressSpace)

theorem blames_fields (s : Superblock) : Blames (Header.Fields.reader s) := by
  have fixed : ∀ {β : Type} {f : Nat → Reader β} {w : Nat}, (∀ n, Blames (f n)) →
      Blames (Reader.fixed w >>= f) := fun hf => (blames_fixed _).bind hf
  have uint : ∀ {β : Type} {f : Nat → Reader β} {w : Nat}, (∀ n, Blames (f n)) →
      Blames (Reader.uint w >>= f) := fun hf => (blames_uint _).bind hf
  unfold Header.Fields.reader
  refine (blames_signature _).bind fun _ => (blames_version _).bind fun _ => ?_
  refine fixed fun _ => fixed fun _ => blames_byte.bind fun _ => fixed fun _ => ?_
  -- twelve counters and addresses at the widths of the superblock
  refine uint fun _ => uint fun _ => uint fun _ => uint fun _ => uint fun _ => uint fun _ => ?_
  refine uint fun _ => uint fun _ => uint fun _ => uint fun _ => uint fun _ => uint fun _ => ?_
  refine fixed fun _ => uint fun _ => uint fun _ => fixed fun _ => fixed fun _ => ?_
  exact uint fun _ => fixed fun _ => blames_pure _

theorem fault_of_ofFields {f : Header.Fields} (hof : Header.ofFields s address f = .error e) :
    HeaderFault address e := by
  unfold Header.ofFields at hof
  by_cases hfilters : f.filtersLength > 0
  · rw [if_pos hfilters] at hof
    cases hof
    exact .filters
  rw [if_neg hfilters] at hof
  rcases bind_eq_error_iff.mp hof with htable | ⟨table, -, hof⟩
  · obtain ⟨error, -, rfl⟩ := mapError_eq_error_iff.mp htable
    exact .table error
  · by_cases hspace : f.offsetBytes = 0
    · rw [if_pos hspace] at hof
      cases hof
      exact .noAddressSpace
    · rw [if_neg hspace] at hof
      cases hof

theorem fault_of_readRecord {length : Nat} (hr : image.readRecord address length = .error e) :
    ∃ source, e = .input address length source := by
  obtain ⟨source, -, rfl⟩ := mapError_eq_error_iff.mp hr
  exact ⟨source, rfl⟩

theorem fault_of_viewRegion {length : Nat} (hr : image.viewRegion address length = .error e) :
    ∃ source, e = .input address length source := by
  obtain ⟨source, -, rfl⟩ := mapError_eq_error_iff.mp hr
  exact ⟨source, rfl⟩

theorem fault_of_readHeader (hread : (Header.read image s address).result t = .error e) :
    HeaderFault address e := by
  unfold Header.read at hread
  rcases result_bind_eq_error.mp hread with hrec | ⟨record, -, hread⟩
  · obtain ⟨source, rfl⟩ := fault_of_readRecord hrec
    exact .range _ source
  rcases result_bind_eq_error.mp hread with hfields | ⟨fields, -, hread⟩
  · exact .record ((blames_fields s).of_read hfields)
  rcases result_bind_eq_error.mp hread with hof | ⟨header, -, hread⟩
  · exact fault_of_ofFields hof
  · rcases result_bind_eq_error.mp hread with hemit | ⟨_, -, hpure⟩
    · cases hemit
    · cases hpure

/-! ### Blocks -/

/-- What can be wrong with a block, apart from its size or its rows. -/
inductive BlockFault (image : Image) (h : Header) (kind : BlockKind) (address : Nat) :
    HeapError → Prop where
  | record {e : HeapError} (he : RecordFault address e) : BlockFault image h kind address e
  | range (length : Nat) (source : OutOfRange) :
      BlockFault image h kind address (.input address length source)
  | foreign {owner : Nat} (hne : owner ≠ h.address) (hlt : owner < 256 ^ h.superblock.offsetWidth)
      (hheld : Holds image address
        (kind.signature ++ [0] ++ encode h.superblock.offsetWidth owner)) :
      BlockFault image h kind address
        (.reference address (.foreignBlock kind.subject owner h.address))

theorem fault_of_heading {kind : BlockKind} {c c' : Cursor}
    (hr : (BlockHeading.reader h kind).step c = (.error e, c')) :
    RecordFault c.address e ∨ ∃ owner c₁, owner ≠ h.address ∧
      owner < 256 ^ h.superblock.offsetWidth ∧
      Passes c (kind.signature ++ [0] ++ encode h.superblock.offsetWidth owner) c₁ ∧
      e = .reference c.address (.foreignBlock kind.subject owner h.address) := by
  unfold BlockHeading.reader at hr
  rcases step_bind_eq_error.mp hr with hr | ⟨_, c₁, h₁, hr⟩
  · exact .inl ((blames_signature _).fault _ _ _ hr)
  have ha₁ := (blames_signature _).address _ _ _ h₁
  rcases step_bind_eq_error.mp hr with hr | ⟨_, c₂, h₂, hr⟩
  · rw [← ha₁]
    exact .inl ((blames_version _).fault _ _ _ hr)
  have ha₂ := ((blames_version _).address _ _ _ h₂).trans ha₁
  rcases step_bind_eq_error.mp hr with hr | ⟨owner, c₃, h₃, hr⟩
  · rw [← ha₂]
    exact .inl ((blames_uint _).fault _ _ _ hr)
  have ha₃ := ((blames_uint _).address _ _ _ h₃).trans ha₂
  split at hr
  · rename_i hne
    rcases step_bind_eq_error.mp hr with hr | ⟨_, _, hrefuse, -⟩
    · rw [step_refuse] at hr
      cases hr
      obtain ⟨-, hlt, hp₃⟩ := step_uint_iff.mp h₃
      have hp₁₂ := passes_append_iff.mpr ⟨c₁, (step_signature_iff (length_signature kind)).mp h₁,
        step_version_iff.mp h₂⟩
      rw [ha₃]
      exact .inr ⟨owner, c', hne, hlt, passes_append_iff.mpr ⟨c₂, hp₁₂, hp₃⟩, rfl⟩
    · rw [step_refuse] at hrefuse
      cases hrefuse
  · rw [← ha₃]
    exact .inl ((blames_uint _).fault _ _ _ hr)

theorem fault_of_headed {kind : BlockKind} {f : Nat → Reader α} (hf : ∀ offset, Blames (f offset))
    {length : Nat} {record : List UInt8} (hrec : image.readRecord address length = .ok record)
    (hread : (BlockHeading.reader h kind >>= f).read address record = .error e) :
    BlockFault image h kind address e := by
  obtain ⟨c', hstep⟩ := read_eq_error_iff.mp hread
  rcases step_bind_eq_error.mp hstep with hstep | ⟨offset, c₁, hheading, hstep⟩
  · rcases fault_of_heading hstep with he | ⟨owner, c₁, hne, hlt, hp, rfl⟩
    · exact .record he
    · have hheld := (readRecord_eq_ok_iff.mp hrec).1
      rw [hp.eq_append] at hheld
      exact .foreign hne hlt (holds_append_iff.mp hheld).1
  · have haddress := (step_heading_iff.mp hheading).2.address
    have he := (hf offset).fault _ _ _ hstep
    rw [haddress] at he
    exact .record he

theorem fault_of_readDirect {size : Nat}
    (hread : (DirectBlock.read image h address size).result t = .error e) :
    e = .malformed address (.blockBelowHeader size (DirectBlock.headerLengthOf h)) ∨
      BlockFault image h .direct address e := by
  unfold DirectBlock.read at hread
  split at hread
  · cases hread
    exact .inl rfl
  right
  rcases result_bind_eq_error.mp hread with hrec | ⟨record, hrec, hread⟩
  · obtain ⟨source, rfl⟩ := fault_of_readRecord hrec
    exact .range _ source
  rcases result_bind_eq_error.mp hread with hreader | ⟨offset, -, hread⟩
  · refine fault_of_headed (fun offset => ?_) hrec hreader
    split
    · exact (blames_skip 4).bind fun _ => blames_pure _
    · exact blames_pure _
  rcases result_bind_eq_error.mp hread with hview | ⟨data, -, hread⟩
  · obtain ⟨source, rfl⟩ := fault_of_viewRegion hview
    exact .range _ source
  · rcases result_bind_eq_error.mp hread with hemit | ⟨_, -, hpure⟩
    · cases hemit
    · cases hpure

theorem blames_slot (h : Header) : Blames (IndirectBlock.slotReader h) := by
  refine (blames_uint _).bind fun child => ?_
  split
  · exact blames_pure _
  · split
    · exact (blames_skip _).bind fun _ => blames_pure _
    · exact blames_pure _

/-- **An indirect block that is not read** has more rows than there is room for, or one of these
faults. -/
theorem fault_of_readIndirect {rows : Nat}
    (hread : IndirectBlock.read image h address rows = .error e) :
    h.table.maxRows < rows ∧ e = .malformed address (.tooManyRows rows h.table.maxRows) ∨
      BlockFault image h .indirect address e := by
  unfold IndirectBlock.read at hread
  split at hread
  · rename_i hrows
    cases hread
    exact .inl ⟨hrows, rfl⟩
  right
  rcases bind_eq_error_iff.mp hread with hrec | ⟨record, hrec, hread⟩
  · obtain ⟨source, rfl⟩ := fault_of_readRecord hrec
    exact .range _ source
  rcases bind_eq_error_iff.mp hread with hreader | ⟨_, -, hpure⟩
  · exact fault_of_headed
      (fun offset => ((blames_slot h).collect _ _).bind fun _ => blames_pure _) hrec hreader
  · cases hpure

end DoublingHeap.Proofs.Faults
