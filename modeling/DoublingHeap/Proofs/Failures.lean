import DoublingHeap.Proofs.Termination

/-! # Heaps that are not loaded

A heap is not loaded because its header cannot be read, or because a step of the walk fails, and the
first step that does is what is reported (`load_eq_error_iff`). A walk looks only at addresses that
it knows of: that of the root and those that stand in indirect blocks which it has read (`Known`).
What fails there `Concerns` the block at that address and no other.

`load_reports_first_failure` puts this together. -/

namespace DoublingHeap.Proofs.Failures

open DoublingHeap.Walk DoublingHeap.Bytes.LittleEndian
open DoublingHeap.Proofs.Blocks DoublingHeap.Proofs.Visits DoublingHeap.Proofs.Headers
open DoublingHeap.Proofs.Children DoublingHeap.Proofs.Descent DoublingHeap.Proofs.Faults
open DoublingHeap.Proofs.Steps DoublingHeap.Proofs.Termination

attribute [local instance (high)] instPowNat

variable {image : Image} {s : Superblock} {h : Header} {t : Level} {root address : Nat}
  {e : HeapError}

/-! ### What a failure concerns -/

/-- The block at an address names another heap as its owner, and this is the error. -/
structure Foreign (image : Image) (h : Header) (address : Nat) (kind : BlockKind) (owner : Nat)
    (e : HeapError) : Prop where
  error_eq : e = .reference address (.foreignBlock kind.subject owner h.address)
  other : owner ≠ h.address
  owner_lt : owner < 256 ^ h.superblock.offsetWidth
  held : Holds image address (kind.signature ++ [0] ++ encode h.superblock.offsetWidth owner)

/-- The error is about the block at an address: it is no wrapped error, it has nothing to do with
identifiers or features, and if it is about a reference, the block has another owner. -/
structure Concerns (image : Image) (h : Header) (address : Nat) (e : HeapError) : Prop where
  address_eq : e.address = address
  bare : ∀ a source, e ≠ .opening a source
  no_identifier : e.kind ≠ .malformedIdentifier
  no_feature : e.kind ≠ .unsupportedFeature
  foreign : e.kind = .corruptReference → ∃ kind owner, Foreign image h address kind owner e

theorem concerns_malformed (fault : StructureFault) :
    Concerns image h address (.malformed address fault) :=
  ⟨rfl, nofun, nofun, nofun, nofun⟩

theorem concerns_of_recordFault (he : RecordFault address e) : Concerns image h address e := by
  cases he <;> exact ⟨rfl, nofun, nofun, nofun, nofun⟩

theorem concerns_of_blockFault {kind : BlockKind} (he : BlockFault image h kind address e) :
    Concerns image h address e := by
  cases he with
  | record he => exact concerns_of_recordFault he
  | range length source => exact ⟨rfl, nofun, nofun, nofun, nofun⟩
  | @foreign owner hne hlt hheld =>
    exact ⟨rfl, nofun, nofun, nofun, fun _ => ⟨kind, owner, rfl, hne, hlt, hheld⟩⟩

/-- **A direct block that is not read** is what the error is about. -/
theorem concerns_of_readDirect {size : Nat}
    (hread : (DirectBlock.read image h address size).result t = .error e) :
    Concerns image h address e := by
  rcases fault_of_readDirect hread with rfl | he
  · exact concerns_malformed _
  · exact concerns_of_blockFault he

theorem concerns_of_readIndirect {rows : Nat}
    (hread : IndirectBlock.read image h address rows = .error e) : Concerns image h address e := by
  rcases fault_of_readIndirect hread with ⟨-, rfl⟩ | he
  · exact concerns_malformed _
  · exact concerns_of_blockFault he

/-- **A header that is not read** is what the error is about; it is never a reference. -/
theorem address_of_headerFault (he : HeaderFault address e) :
    e.address = address ∧ (∀ a source, e ≠ .opening a source) ∧ e.kind ≠ .malformedIdentifier ∧
      e.kind ≠ .corruptReference := by
  cases he with
  | record he => cases he <;> exact ⟨rfl, nofun, nofun, nofun⟩
  | range length source => exact ⟨rfl, nofun, nofun, nofun⟩
  | filters => exact ⟨rfl, nofun, nofun, nofun⟩
  | table error => exact ⟨rfl, nofun, nofun, nofun⟩
  | noAddressSpace => exact ⟨rfl, nofun, nofun, nofun⟩

/-! ### Where a walk looks -/

/-- An address that a walk from the root knows of. -/
inductive Known (image : Image) (h : Header) (t : Level) (root : Nat) : Nat → Prop where
  | root : Known image h t root root
  | child {p : Point} {block : IndirectBlock} {slot child : Nat}
      (hp : Reached image h t root p) (hblock : block ∈ p.blocks)
      (hchild : block.children[slot]? = some child) : Known image h t root child

theorem known_of_pending {p : Point} (hp : Reached image h t root p) {task : Task}
    (htask : task ∈ p.walk.pending) : Known image h t root task.address := by
  induction hp generalizing task with
  | start =>
    rw [List.mem_singleton.mp htask]
    exact .root
  | step hp hs ih =>
    rcases pending_of_step hp hs with hsame | ⟨first, hfirst⟩ |
      ⟨visited, block, slot, w, new, rfl, hpush, hnew⟩
    · exact ih (hsame ▸ htask)
    · exact ih (hfirst ▸ List.mem_cons_of_mem _ htask)
    · rw [hpush] at htask
      rcases List.mem_cons.mp htask with rfl | htask
      · exact .child hp (List.mem_cons_self ..) hnew.child
      · exact ih htask

/-- **What fails on a walk** concerns a block that the walk knows of. -/
theorem concerns_of_fails {p : Point} (hp : Reached image h t root p)
    (hf : Fails image h t p e) : ∃ a, Known image h t root a ∧ Concerns image h a e := by
  cases hf with
  | visit hread =>
    exact ⟨_, known_of_pending hp (List.mem_cons_self ..), concerns_of_readIndirect hread⟩
  | direct hchild _ hread =>
    exact ⟨_, .child hp (List.mem_cons_self ..) hchild, concerns_of_readDirect hread⟩
  | taken hchild _ _ _ =>
    exact ⟨_, .child hp (List.mem_cons_self ..) hchild, concerns_malformed _⟩
  | tooSmall hchild _ _ =>
    exact ⟨_, .child hp (List.mem_cons_self ..) hchild, concerns_malformed _⟩

/-- **The first failure** of a heap whose header is read concerns a block that the walk from its
root knows of. -/
theorem concerns_of_firstFailure (hfirst : FirstFailure image h t e) :
    ∃ root a, h.root? = some root ∧ Known image h t root a ∧ Concerns image h a e := by
  cases hfirst with
  | @directRoot root _ hroot _ hread =>
    exact ⟨root, root, hroot, .root, concerns_of_readDirect hread⟩
  | @walk root _ _ hroot hp hf =>
    obtain ⟨a, hknown, hconcerns⟩ := concerns_of_fails hp hf
    exact ⟨root, a, hroot.address, hknown, hconcerns⟩

/-- A known address is the root, or stands in a slot of an indirect block that has been read. -/
theorem known_iff {a : Nat} :
    Known image h t root a ↔ a = root ∨ ∃ p block slot, Reached image h t root p ∧
      block ∈ p.blocks ∧ IndirectBlock.read image h block.address block.rows = .ok block ∧
      block.children[slot]? = some a ∧ h.superblock.isUndefined a = false ∧
      SlotHolds image h block.address slot a := by
  constructor
  · intro hknown
    cases hknown with
    | root => exact .inl rfl
    | @child p block slot _ hp hblock hchild =>
      have hread := hp.read block hblock
      obtain ⟨hdefined, hheld⟩ := (children_of_read hread).2.1 slot a hchild
      exact .inr ⟨p, block, slot, hp, hblock, hread, hchild, hdefined, hheld⟩
  · rintro (rfl | ⟨p, block, slot, hp, hblock, -, hchild, -, -⟩)
    · exact .root
    · exact .child hp hblock hchild

/-! ### Heaps -/

/-- **A heap that is not loaded reports the first failure**, wrapped once in an error that names the
heap and has its kind and address.

If the header is read, the failure is that of the first step of the walk that fails, in whatever way
the walk is gone through, and its address is that of the root or stands in a slot of an indirect
block that the walk has read. No failure is about an identifier, only a header has features that are
not supported, and a corrupt reference is a block that holds the address of another heap as its
owner. -/
theorem load_reports_first_failure {options : Heap.Options}
    (hload : (Heap.load image s address options).result t = .error e) :
    ∃ source, e = .opening address source ∧ e.kind = source.kind ∧ e.address = source.address ∧
      (∀ a inner, source ≠ .opening a inner) ∧
      ((Header.read image s address).result t = .error source ∧ source.address = address ∨
        ∃ header root, (Header.read image s address).result t = .ok header ∧
          header.root? = some root ∧ FirstFailure image header t source ∧
          (∀ p e', IndirectRoot header root → Reached image header t root p →
            Fails image header t p e' → e' = source) ∧
          (source.address = root ∨ ∃ p block slot, Reached image header t root p ∧
            block ∈ p.blocks ∧
            IndirectBlock.read image header block.address block.rows = .ok block ∧
            block.children[slot]? = some source.address ∧
            header.superblock.isUndefined source.address = false ∧
            SlotHolds image header block.address slot source.address)) ∧
      source.kind ≠ .malformedIdentifier ∧
      (source.kind = .unsupportedFeature →
        (Header.read image s address).result t = .error source) ∧
      (source.kind = .corruptReference → ∃ (kind : BlockKind) (owner : Nat), owner ≠ address ∧
        owner < 256 ^ s.offsetWidth ∧
        source = .reference source.address (.foreignBlock kind.subject owner address) ∧
        Holds image source.address (kind.signature ++ [0] ++ encode s.offsetWidth owner)) := by
  obtain ⟨source, rfl, hheader | ⟨header, hheader, hfirst⟩⟩ := load_eq_error_iff.mp hload
  · obtain ⟨haddress, hbare, hidentifier, hreference⟩ :=
      address_of_headerFault (fault_of_readHeader hheader)
    exact ⟨source, rfl, rfl, rfl, hbare, .inl ⟨hheader, haddress⟩, hidentifier, fun _ => hheader,
      fun hkind => absurd hkind hreference⟩
  · obtain ⟨root, a, hroot, hknown, haddress, hbare, hidentifier, hfeature, hforeign⟩ :=
      concerns_of_firstFailure hfirst
    have hunique : ∀ p e', IndirectRoot header root → Reached image header t root p →
        Fails image header t p e' → e' = source := by
      intro p e' hindirect hp hf
      have hr := directBlocks_eq_error_iff.mpr (.walk hindirect hp hf)
      rw [directBlocks_eq_error_iff.mpr hfirst] at hr
      exact (Except.error.inj hr).symm
    rw [← haddress] at hknown
    refine ⟨source, rfl, rfl, rfl, hbare,
      .inr ⟨header, root, hheader, hroot, hfirst, hunique, known_iff.mp hknown⟩, hidentifier,
      fun hkind => absurd hkind hfeature, fun hkind => ?_⟩
    obtain ⟨kind, owner, heq, hother, hlt, hheld⟩ := hforeign hkind
    obtain ⟨hown, hsuper⟩ := address_of_read hheader
    rw [hown] at heq hother
    rw [hsuper] at hlt hheld
    subst haddress
    exact ⟨kind, owner, hother, hlt, heq, hheld⟩

/-- What the second visit to the root takes in first is a block whose offset is taken, by itself. -/
theorem looping_not_loaded :
    (Heap.load looping narrow 0 {}).result .trace
        = .error (.opening 0 (.malformed 51 (.offsetTaken 0 51))) ∧
      ∃ p block slot, Reached looping (smallHeader 41 3) .trace 41 p ∧ block ∈ p.blocks ∧
        SlotHolds looping (smallHeader 41 3) block.address slot 51 := by
  have hfail : (match (Heap.load looping narrow 0 {}).result .trace with
      | .ok _ => none
      | .error e => some e) = some (.opening 0 (.malformed 51 (.offsetTaken 0 51))) := by
    decide +kernel
  have hheader : (Header.read looping narrow 0).result .trace = .ok (smallHeader 41 3) := rfl
  cases hload : (Heap.load looping narrow 0 {}).result .trace with
  | ok heap =>
    rw [hload] at hfail
    cases hfail
  | error e =>
    rw [hload] at hfail
    cases hfail
    obtain ⟨source, hsource, -, -, -, hcase, -⟩ := load_reports_first_failure hload
    cases hsource
    rcases hcase with ⟨herror, -⟩ | ⟨header, root, hread, hroot, -, -, hwhere⟩
    · rw [hheader] at herror
      cases herror
    · rw [hheader] at hread
      cases hread
      cases hroot
      rcases hwhere with hno | ⟨p, block, slot, hp, hblock, -, -, -, hheld⟩
      · cases hno
      · exact ⟨rfl, p, block, slot, hp, hblock, hheld⟩

end DoublingHeap.Proofs.Failures
