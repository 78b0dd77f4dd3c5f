import DoublingHeap.Proofs.Resolution

/-! # What becomes of every identifier

Any byte string may be resolved. Its length is looked at first, then the version in the two highest
bits of its first byte, then the mode in the two bits below; only an identifier of mode zero that
has room for an offset and a length is looked up. There is one lemma for each class of byte strings
(`parse_of_length_ne` to `parse_of_long`), and together they decide every one
(`resolve_classifies`).

Whatever goes wrong is a fault of the identifier in this heap (`Own`), since nothing is read from
the file any more. Heaps that are loaded from one image differ in their options only
(`eq_of_load_of_load`), so they answer alike where the options are not asked for
(`resolve_eq_iff`). -/

namespace DoublingHeap.Proofs.Classification

open DoublingHeap.Bytes.LittleEndian
open DoublingHeap.Proofs.Reading DoublingHeap.Proofs.Blocks DoublingHeap.Proofs.Visits
open DoublingHeap.Proofs.Headers DoublingHeap.Proofs.Resolution DoublingHeap.Proofs.Descent

attribute [local instance (high)] instPowNat

variable {layout : Identifier.Layout} {address : Nat} {flags : UInt8} {id rest : List UInt8}

/-! ### The first byte -/

theorem versionOf_eq (flags : UInt8) : Identifier.versionOf flags = flags.toNat / 64 := by
  have hlt := flags.toNat_lt
  unfold Identifier.versionOf Bytes.Bits.field
  omega

theorem modeOf_eq (flags : UInt8) : Identifier.modeOf flags = flags.toNat / 16 % 4 := rfl

/-! ### Offset and length -/

/-- The widths of offsets and lengths are possible. -/
structure Possible (layout : Identifier.Layout) : Prop where
  offsetBytes : 1 ≤ layout.offsetBytes ∧ layout.offsetBytes ≤ maxWidth
  lengthBytes : 1 ≤ layout.lengthBytes ∧ layout.lengthBytes ≤ maxWidth

/-- The heap offset in the bytes after the first. -/
def offsetIn (layout : Identifier.Layout) (rest : List UInt8) : Nat :=
  decode (rest.take layout.offsetBytes)

/-- The length in the bytes after the first. -/
def lengthIn (layout : Identifier.Layout) (rest : List UInt8) : Nat :=
  decode ((rest.drop layout.offsetBytes).take layout.lengthBytes)

theorem readsBack_decode {w : Nat} {bytes : List UInt8} (hw : 1 ≤ w ∧ w ≤ maxWidth)
    (hlen : bytes.length = w) : ReadsBack (Reader.uint w) bytes (decode bytes) := by
  subst hlen
  have hback := readsBack_uint hw (decode_lt bytes)
  rwa [encode_decode] at hback

theorem read_place (hw : Possible layout)
    (hlen : layout.offsetBytes + layout.lengthBytes ≤ rest.length) :
    (Identifier.placeReader layout).read address rest
      = .ok (offsetIn layout rest, lengthIn layout rest) := by
  have ho : (rest.take layout.offsetBytes).length = layout.offsetBytes := by
    rw [List.length_take]
    omega
  have hl : ((rest.drop layout.offsetBytes).take layout.lengthBytes).length
      = layout.lengthBytes := by
    rw [List.length_take, List.length_drop]
    omega
  have hback : ReadsBack (Identifier.placeReader layout)
      (rest.take layout.offsetBytes
        ++ ((rest.drop layout.offsetBytes).take layout.lengthBytes ++ []))
      (offsetIn layout rest, lengthIn layout rest) :=
    (readsBack_decode hw.offsetBytes ho).bind
      ((readsBack_decode hw.lengthBytes hl).bind (readsBack_pure _))
  have hread := hback.read address ((rest.drop layout.offsetBytes).drop layout.lengthBytes)
  rwa [List.append_nil, List.append_assoc, List.take_append_drop, List.take_append_drop] at hread

theorem read_place_of_short (hlen : rest.length < layout.offsetBytes + layout.lengthBytes) :
    ∃ e, (Identifier.placeReader layout).read address rest = .error e := by
  cases hread : (Identifier.placeReader layout).read address rest with
  | error e => exact ⟨e, rfl⟩
  | ok place =>
    obtain ⟨c, hstep⟩ := read_eq_ok_iff.mp hread
    unfold Identifier.placeReader at hstep
    obtain ⟨_, _, -, ho, hstep⟩ := step_uint_bind hstep
    obtain ⟨_, _, -, hl, -⟩ := step_uint_bind hstep
    -- what was read is longer than what there was
    have hrest := (ho.append hl).eq_append
    rw [hrest, List.length_append, List.length_append, length_encode, length_encode] at hlen
    omega

/-! ### One lemma for each class -/

theorem parse_of_length_ne {raw : List UInt8} (hlen : raw.length ≠ layout.idLength) :
    Identifier.parse raw layout address
      = .error (.identifier address (.wrongLength layout.idLength raw.length)) := by
  unfold Identifier.parse
  rw [if_pos hlen]

theorem parse_nil (hlen : layout.idLength = 0) :
    Identifier.parse [] layout address = .error (.identifier address .empty) := by
  unfold Identifier.parse
  rw [if_neg (by simp [hlen])]

/-- The length is right, the version is zero, and the first byte has this mode. -/
structure HasMode (layout : Identifier.Layout) (id : List UInt8) (mode : Nat)
    (rest : List UInt8) : Prop where
  length : id.length = layout.idLength
  first : ∃ flags : UInt8, id = flags :: rest ∧ flags.toNat / 64 = 0 ∧ flags.toNat / 16 % 4 = mode

theorem parse_of_version (hlen : (flags :: rest).length = layout.idLength)
    (hversion : flags.toNat / 64 ≠ 0) :
    Identifier.parse (flags :: rest) layout address
      = .error (.version address .identifier (flags.toNat / 64)) := by
  unfold Identifier.parse
  simp only [hlen, versionOf_eq, hversion, ne_eq, not_true_eq_false, not_false_eq_true, if_true,
    if_false]

theorem parse_of_huge (hid : HasMode layout id 1 rest) :
    Identifier.parse id layout address = .ok .huge := by
  obtain ⟨hlen, flags, rfl, hversion, hmode⟩ := hid
  unfold Identifier.parse
  simp only [hlen, versionOf_eq, hversion, modeOf_eq, hmode, ne_eq, not_true_eq_false, if_false]

theorem parse_of_tiny (hid : HasMode layout id 2 rest) :
    Identifier.parse id layout address = .ok .tiny := by
  obtain ⟨hlen, flags, rfl, hversion, hmode⟩ := hid
  unfold Identifier.parse
  simp only [hlen, versionOf_eq, hversion, modeOf_eq, hmode, ne_eq, not_true_eq_false, if_false]

theorem parse_of_reserved (hid : HasMode layout id 3 rest) :
    Identifier.parse id layout address = .ok (.reserved rest) := by
  obtain ⟨hlen, flags, rfl, hversion, hmode⟩ := hid
  unfold Identifier.parse
  simp only [hlen, versionOf_eq, hversion, modeOf_eq, hmode, ne_eq, not_true_eq_false, if_false]

theorem parse_of_short (hid : HasMode layout id 0 rest)
    (hshort : layout.idLength < 1 + layout.offsetBytes + layout.lengthBytes) :
    Identifier.parse id layout address = .error (.identifier address
      (.tooShort layout.idLength layout.offsetBytes layout.lengthBytes)) := by
  obtain ⟨hlen, flags, rfl, hversion, hmode⟩ := hid
  have hless : rest.length < layout.offsetBytes + layout.lengthBytes := by
    rw [List.length_cons] at hlen
    omega
  obtain ⟨e, hread⟩ : ∃ e, (Identifier.placeReader layout).read address rest = .error e :=
    read_place_of_short hless
  unfold Identifier.parse
  simp only [hlen, versionOf_eq, hversion, modeOf_eq, hmode, hread, ne_eq, not_true_eq_false,
    if_false]

theorem parse_of_long (hw : Possible layout) (hid : HasMode layout id 0 rest)
    (hlong : 1 + layout.offsetBytes + layout.lengthBytes ≤ layout.idLength) :
    Identifier.parse id layout address
      = .ok (.managed (offsetIn layout rest) (lengthIn layout rest)) := by
  obtain ⟨hlen, flags, rfl, hversion, hmode⟩ := hid
  have hroom : layout.offsetBytes + layout.lengthBytes ≤ rest.length := by
    rw [List.length_cons] at hlen
    omega
  unfold Identifier.parse
  simp only [hlen, versionOf_eq, hversion, modeOf_eq, hmode, read_place hw hroom, ne_eq,
    not_true_eq_false, if_false]

theorem hasMode_of_reserved (hparse : Identifier.parse id layout address = .ok (.reserved rest)) :
    HasMode layout id 3 rest := by
  unfold Identifier.parse at hparse
  split at hparse
  · cases hparse
  rename_i hlen
  rw [Decidable.not_not] at hlen
  split at hparse
  · cases hparse
  rename_i flags _
  split at hparse
  · cases hparse
  rename_i hversion
  rw [Decidable.not_not, versionOf_eq] at hversion
  split at hparse
  · split at hparse <;> cases hparse
  · cases hparse
  · cases hparse
  · rename_i h0 h1 h2
    cases hparse
    -- the one mode that is left
    have hmode : Identifier.modeOf flags < 4 := Nat.mod_lt _ (by decide)
    have hnone : Identifier.modeOf flags ≠ 0 ∧ Identifier.modeOf flags ≠ 1
        ∧ Identifier.modeOf flags ≠ 2 := ⟨h0, h1, h2⟩
    refine ⟨hlen, flags, rfl, hversion, ?_⟩
    rw [← modeOf_eq]
    omega

/-! ### Answers -/

/-- What becomes of an identifier that has been parsed. -/
def answer (heap : Heap) (id : List UInt8) : Identifier → Except HeapError (List UInt8)
  | .managed offset length => heap.managedObject offset length
  | .huge => .error (.feature heap.address .hugeObjects)
  | .tiny => .error (.feature heap.address .tinyObjects)
  | .reserved payload =>
    if heap.options.legacyInlineIds ∧ id.length < Heap.inlineLimit then .ok payload
    else .error (.identifier heap.address .unassignedMode)

theorem resolve_eq (heap : Heap) (id : List UInt8) (u : Level) :
    (heap.resolve id).result u
      = (Identifier.parse id heap.layout heap.address).bind (answer heap id) := by
  unfold Heap.resolve
  rw [Logged.result_bind, result_lift]
  congr 1
  funext i
  cases i with
  | managed offset length => rfl
  | huge => rfl
  | tiny => rfl
  | reserved payload =>
    unfold answer
    simp only
    split <;> rfl

variable {heap : Heap} {u : Level}

theorem resolve_of_parse_error {e : HeapError}
    (hparse : Identifier.parse id heap.layout heap.address = .error e) :
    (heap.resolve id).result u = .error e := by
  rw [resolve_eq, hparse]
  rfl

theorem resolve_of_parse {i : Identifier}
    (hparse : Identifier.parse id heap.layout heap.address = .ok i) :
    (heap.resolve id).result u = answer heap id i := by
  rw [resolve_eq, hparse]
  rfl

theorem resolve_of_wrong_length (hlen : id.length ≠ heap.layout.idLength ∨ id.length = 0) :
    ∃ fault, (heap.resolve id).result u = .error (.identifier heap.address fault) := by
  by_cases hright : id.length = heap.layout.idLength
  · have hzero : id.length = 0 := by omega
    rw [List.length_eq_zero_iff.mp hzero]
    exact ⟨_, resolve_of_parse_error (parse_nil (hright.symm.trans hzero))⟩
  · exact ⟨_, resolve_of_parse_error (parse_of_length_ne hright)⟩

theorem resolve_of_long (hw : Possible heap.layout) (hid : HasMode heap.layout id 0 rest)
    (hlong : 1 + heap.layout.offsetBytes + heap.layout.lengthBytes ≤ heap.layout.idLength) :
    (heap.resolve id).result u
        = heap.managedObject (offsetIn heap.layout rest) (lengthIn heap.layout rest) ∧
      ∀ e, (heap.resolve id).result u = .error e → ∃ fault, e = .reference heap.address fault := by
  have hparse : Identifier.parse id heap.layout heap.address
      = .ok (.managed (offsetIn heap.layout rest) (lengthIn heap.layout rest)) :=
    parse_of_long hw hid hlong
  have hmanaged := resolve_managed (t := u) hparse
  refine ⟨hmanaged, fun e he => ?_⟩
  rw [hmanaged] at he
  exact reference_of_managedObject he

/-- What can be wrong with an identifier in the heap at this address. -/
inductive Own (address : Nat) : HeapError → Prop where
  | version (v : Nat) : Own address (.version address .identifier v)
  | feature (f : Feature) : Own address (.feature address f)
  | reference (fault : ReferenceFault) : Own address (.reference address fault)
  | identifier (fault : IdentifierFault) : Own address (.identifier address fault)

/-- Such errors name the heap, are not wrapped, and are none of a file. -/
theorem Own.facts {e : HeapError} (he : Own address e) :
    e.address = address ∧ (∀ a source, e ≠ .opening a source) ∧ e.kind ≠ .input ∧
      e.kind ≠ .signatureMismatch ∧ e.kind ≠ .malformed := by
  cases he <;> exact ⟨rfl, nofun, nofun, nofun, nofun⟩

theorem own_of_parse {e : HeapError} (he : Identifier.parse id layout address = .error e) :
    Own address e := by
  unfold Identifier.parse at he
  split at he
  · cases he
    exact .identifier _
  split at he
  · cases he
    exact .identifier _
  split at he
  · cases he
    exact .version _
  split at he
  · split at he
    · cases he
    · cases he
      exact .identifier _
  · cases he
  · cases he
  · cases he

theorem own_of_answer {i : Identifier} {e : HeapError}
    (he : answer heap id i = .error e) : Own heap.address e := by
  unfold answer at he
  split at he
  · obtain ⟨fault, rfl⟩ := reference_of_managedObject he
    exact .reference fault
  · cases he
    exact .feature _
  · cases he
    exact .feature _
  · split at he
    · cases he
    · cases he
      exact .identifier _

theorem own_of_resolve {e : HeapError}
    (he : (heap.resolve id).result u = .error e) : Own heap.address e := by
  rw [resolve_eq] at he
  cases hparse : Identifier.parse id heap.layout heap.address with
  | error e' =>
    rw [hparse] at he
    cases he
    exact own_of_parse hparse
  | ok i =>
    rw [hparse] at he
    exact own_of_answer he

/-! ### Heaps that differ in their options -/

/-- The identifier is one of the mode without a meaning, and short enough to carry its bytes. -/
def Inline (layout : Identifier.Layout) (id : List UInt8) : Prop :=
  id.length < Heap.inlineLimit ∧ ∃ rest, HasMode layout id 3 rest

theorem answer_reserved_ne {h : Header} {index : BlockIndex} {options options' : Heap.Options}
    (hne : options.legacyInlineIds ≠ options'.legacyInlineIds)
    (hshort : id.length < Heap.inlineLimit) :
    answer ⟨h, options, index⟩ id (.reserved rest)
      ≠ answer ⟨h, options', index⟩ id (.reserved rest) := by
  intro heq
  simp only [answer, hshort, and_true] at heq
  cases hon : options.legacyInlineIds <;> cases hoff : options'.legacyInlineIds
  · exact hne (hon.trans hoff.symm)
  · simp [hon, hoff] at heq
  · simp [hon, hoff] at heq
  · exact hne (hon.trans hoff.symm)

/-- **Options matter for nothing else**: heaps that differ in them give different answers exactly to
identifiers that may carry their bytes. -/
theorem resolve_eq_iff {h : Header} {index : BlockIndex} {options options' : Heap.Options}
    (hne : options.legacyInlineIds ≠ options'.legacyInlineIds) :
    (Heap.resolve ⟨h, options, index⟩ id).result u = (Heap.resolve ⟨h, options', index⟩ id).result u
      ↔ ¬ Inline (Heap.layout ⟨h, options, index⟩) id := by
  have hlayout : Heap.layout ⟨h, options', index⟩ = Heap.layout ⟨h, options, index⟩ := rfl
  have haddress : Heap.address ⟨h, options', index⟩ = Heap.address ⟨h, options, index⟩ := rfl
  rw [resolve_eq, resolve_eq, hlayout, haddress]
  constructor
  · rintro heq ⟨hshort, rest, hid⟩
    rw [parse_of_reserved hid] at heq
    exact answer_reserved_ne hne hshort heq
  · intro hnot
    cases hparse : Identifier.parse id (Heap.layout ⟨h, options, index⟩)
        (Heap.address ⟨h, options, index⟩) with
    | error e => rfl
    | ok i =>
      cases i with
      | managed offset length => rfl
      | huge => rfl
      | tiny => rfl
      | reserved rest =>
        have hlong : ¬ id.length < Heap.inlineLimit :=
          fun hshort => hnot ⟨hshort, rest, hasMode_of_reserved hparse⟩
        simp only [Except.bind, answer, hlong, and_false, if_false]
        rfl

/-! ### Loaded heaps -/

variable {image : Image} {s : Superblock} {options : Heap.Options} {t : Level}

theorem possible_of_load (hload : (Heap.load image s address options).result t = .ok heap) :
    Possible heap.layout := by
  obtain ⟨hheader, -, -⟩ := load_eq_ok_iff.mp hload
  obtain ⟨_, -, -, -, hof⟩ := readHeader_eq_ok_iff.mp hheader
  have hlength : heap.header.lengthBytes = heap.header.fields.lengthBytes :=
    congrArg Header.lengthBytes (ofFields_eq_ok_iff.mp hof).2.2.2
  refine ⟨offsetBytes_possible hof, ?_⟩
  unfold Heap.layout
  rw [hlength]
  exact lengthBytes_possible (fits_of_read hheader)

theorem eq_of_load_of_load {options' : Heap.Options} {other : Heap}
    (hload : (Heap.load image s address options).result t = .ok heap)
    (hother : (Heap.load image s address options').result t = .ok other) :
    other = ⟨heap.header, options', heap.index⟩ := by
  obtain ⟨hheader, -, hwalk⟩ := load_eq_ok_iff.mp hload
  obtain ⟨hheader', rfl, hwalk'⟩ := load_eq_ok_iff.mp hother
  have hsame : other.header = heap.header := Except.ok.inj (hheader'.symm.trans hheader)
  rw [hsame] at hwalk'
  have hindex : other.index = heap.index := Except.ok.inj (hwalk'.symm.trans hwalk)
  rw [← hsame, ← hindex]

/-- **Every identifier is answered according to its class.** In a loaded heap, an identifier of the
wrong length or without bytes is malformed. Of the others, one with a version is not supported;
those of huge and of tiny objects are not either; one of the mode without a meaning is the bytes
after the first if the heap reads such identifiers and it is short enough, and is malformed
otherwise; and a managed one is malformed if there is no room for offset and length, and is looked
up if there is, which can only fail because the reference leads nowhere.

No error is one of the file. Two heaps that are loaded from one image with different options give
different answers to short identifiers of the mode without a meaning, and to no others. -/
theorem resolve_classifies (hload : (Heap.load image s address options).result t = .ok heap)
    (id : List UInt8) (u : Level) :
    (id.length ≠ heap.layout.idLength ∨ id.length = 0 →
      ∃ fault, (heap.resolve id).result u = .error (.identifier address fault)) ∧
    (∀ flags rest, id = flags :: rest → id.length = heap.layout.idLength → flags.toNat / 64 ≠ 0 →
      (heap.resolve id).result u = .error (.version address .identifier (flags.toNat / 64))) ∧
    (∀ rest, HasMode heap.layout id 1 rest →
      (heap.resolve id).result u = .error (.feature address .hugeObjects)) ∧
    (∀ rest, HasMode heap.layout id 2 rest →
      (heap.resolve id).result u = .error (.feature address .tinyObjects)) ∧
    (∀ rest, HasMode heap.layout id 3 rest →
      (heap.resolve id).result u =
        if options.legacyInlineIds = true ∧ id.length < 19 then .ok rest
        else .error (.identifier address .unassignedMode)) ∧
    (∀ rest, HasMode heap.layout id 0 rest →
      (heap.layout.idLength < 1 + heap.layout.offsetBytes + heap.layout.lengthBytes →
        (heap.resolve id).result u = .error (.identifier address (.tooShort heap.layout.idLength
          heap.layout.offsetBytes heap.layout.lengthBytes))) ∧
      (1 + heap.layout.offsetBytes + heap.layout.lengthBytes ≤ heap.layout.idLength →
        (heap.resolve id).result u
          = heap.managedObject (offsetIn heap.layout rest) (lengthIn heap.layout rest) ∧
        ∀ e, (heap.resolve id).result u = .error e → ∃ fault, e = .reference address fault)) ∧
    (∀ e, (heap.resolve id).result u = .error e → e.address = address ∧
      (∀ a source, e ≠ .opening a source) ∧ e.kind ≠ .input ∧ e.kind ≠ .signatureMismatch ∧
        e.kind ≠ .malformed) ∧
    ∀ options' other, (Heap.load image s address options').result t = .ok other →
      options.legacyInlineIds ≠ options'.legacyInlineIds →
      ((heap.resolve id).result u = (other.resolve id).result u ↔
        ¬ (id.length < 19 ∧ ∃ rest, HasMode heap.layout id 3 rest)) := by
  obtain ⟨hheader, rfl, -⟩ := load_eq_ok_iff.mp hload
  obtain rfl : heap.address = address := (address_of_read hheader).1
  refine ⟨resolve_of_wrong_length, ?_, ?_, ?_, ?_, ?_, fun e he => (own_of_resolve he).facts, ?_⟩
  · rintro flags rest rfl hlen hversion
    exact resolve_of_parse_error (parse_of_version hlen hversion)
  · exact fun rest hid => resolve_of_parse (parse_of_huge hid)
  · exact fun rest hid => resolve_of_parse (parse_of_tiny hid)
  · exact fun rest hid => resolve_of_parse (parse_of_reserved hid)
  · exact fun rest hid => ⟨fun hshort => resolve_of_parse_error (parse_of_short hid hshort),
      resolve_of_long (possible_of_load hload) hid⟩
  · intro options' other hother hne
    rw [eq_of_load_of_load hload hother]
    exact resolve_eq_iff hne

/-- One heap reads the two bytes that a short identifier carries, the other refuses it. -/
theorem inline_in_overlapping :
    ∃ heap other, (Heap.load overlapping narrow 0 {}).result .trace = .ok heap ∧
      (Heap.load overlapping narrow 0 ⟨true⟩).result .trace = .ok other ∧
      HasMode heap.layout [48, 1, 2] 3 [1, 2] ∧
      (heap.resolve [48, 1, 2]).result .trace = .error (.identifier 0 .unassignedMode) ∧
      (other.resolve [48, 1, 2]).result .trace = .ok [1, 2] ∧
      (heap.resolve [48, 1, 2]).result .trace ≠ (other.resolve [48, 1, 2]).result .trace := by
  obtain ⟨heap, hload, -⟩ := overlapping_resolves
  obtain ⟨hheader, -, hwalk⟩ := load_eq_ok_iff.mp hload
  have hother : (Heap.load overlapping narrow 0 ⟨true⟩).result .trace
      = .ok ⟨heap.header, ⟨true⟩, heap.index⟩ := load_eq_ok_iff.mpr ⟨hheader, rfl, hwalk⟩
  have hread : (Header.read overlapping narrow 0).result .trace = .ok (smallHeader 41 2) := rfl
  have hsame : heap.header = smallHeader 41 2 := Except.ok.inj (hheader.symm.trans hread)
  have hid : HasMode heap.layout [48, 1, 2] 3 [1, 2] := by
    unfold Heap.layout
    rw [hsame]
    exact ⟨rfl, 48, rfl, rfl, rfl⟩
  obtain ⟨-, -, -, -, hreserved, -, -, hoptions⟩ :=
    resolve_classifies hload [48, 1, 2] .trace
  obtain ⟨-, -, -, -, hinline, -⟩ := resolve_classifies hother [48, 1, 2] .trace
  have hiff := hoptions _ _ hother nofun
  exact ⟨heap, _, hload, hother, hid, hreserved _ hid, hinline _ hid,
    fun heq => hiff.mp heq ⟨by decide, [1, 2], hid⟩⟩

end DoublingHeap.Proofs.Classification
