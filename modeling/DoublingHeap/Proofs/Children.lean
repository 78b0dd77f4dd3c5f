import DoublingHeap.Proofs.Blocks

/-! # The children in the slots of an indirect block

An indirect block that has been read names the addresses that stand in its slots (`SlotHolds`), up
to the first slot that holds the undefined address (`children_of_read`). What stands in a slot is
one address (`SlotHolds.unique`), so two readings of one block that reach a slot agree on it,
whatever number of rows each of them was asked for (`firstChild_of_read`). -/

namespace DoublingHeap.Proofs.Children

open DoublingHeap.Bytes.LittleEndian DoublingHeap.Proofs.Reading DoublingHeap.Proofs.Blocks

attribute [local instance (high)] instPowNat

variable {image : Image} {h : Header}

/-- The length of a slot. -/
def slotLength (h : Header) : Nat := h.superblock.offsetWidth + IndirectBlock.filterEntryLength h

/-- The file address of a slot of the indirect block at an address. -/
def slotAddress (h : Header) (address slot : Nat) : Nat :=
  address + BlockHeading.length h + slot * slotLength h

/-- The slot of the indirect block at an address holds this child. -/
structure SlotHolds (image : Image) (h : Header) (address slot child : Nat) : Prop where
  lt : child < 256 ^ h.superblock.offsetWidth
  held : Holds image (slotAddress h address slot) (encode h.superblock.offsetWidth child)

theorem encode_inj {w m n : Nat} (hm : m < 256 ^ w) (hn : n < 256 ^ w)
    (heq : encode w m = encode w n) : m = n := by
  rw [← decode_encode hm, heq, decode_encode hn]

theorem SlotHolds.unique {address slot child child' : Nat}
    (hc : SlotHolds image h address slot child) (hc' : SlotHolds image h address slot child') :
    child = child' := by
  refine encode_inj hc.lt hc'.lt ?_
  rw [← hc.held.2, ← hc'.held.2, length_encode, length_encode]

/-! ### One slot after the other -/

theorem step_slot {c c' : Cursor} {child? : Option Nat}
    (hr : (IndirectBlock.slotReader h).step c = (.ok child?, c')) :
    ∃ child, child < 256 ^ h.superblock.offsetWidth ∧
      (h.superblock.isUndefined child = true ∧ child? = none ∧
          Passes c (encode h.superblock.offsetWidth child) c' ∨
        h.superblock.isUndefined child = false ∧ child? = some child ∧ ∃ filler,
          filler.length = IndirectBlock.filterEntryLength h ∧
          Passes c (encode h.superblock.offsetWidth child ++ filler) c') := by
  unfold IndirectBlock.slotReader at hr
  obtain ⟨child, c₁, hchild, hr⟩ := Reader.step_bind_eq_ok.mp hr
  obtain ⟨-, hlt, hp⟩ := step_uint_iff.mp hchild
  refine ⟨child, hlt, ?_⟩
  cases hundef : h.superblock.isUndefined child with
  | true =>
    rw [hundef, if_pos rfl, Reader.step_pure] at hr
    cases hr
    exact .inl ⟨rfl, rfl, hp⟩
  | false =>
    rw [hundef, if_neg Bool.false_ne_true] at hr
    unfold IndirectBlock.filterEntryLength
    by_cases hfilters : h.hasFilters = true
    · rw [if_pos hfilters] at hr ⊢
      obtain ⟨_, c₂, hskip, hr⟩ := Reader.step_bind_eq_ok.mp hr
      obtain ⟨filler, hlen, hp'⟩ := step_skip_iff.mp hskip
      rw [Reader.step_pure] at hr
      cases hr
      unfold IndirectBlock.filterEntryLength at hlen
      rw [if_pos hfilters] at hlen
      exact .inr ⟨rfl, rfl, filler, hlen, passes_append_iff.mpr ⟨c₁, hp, hp'⟩⟩
    · rw [if_neg hfilters] at hr ⊢
      rw [Reader.step_pure] at hr
      cases hr
      refine .inr ⟨rfl, rfl, [], rfl, ?_⟩
      rw [List.append_nil]
      exact hp

theorem eq_undefinedAddress {s : Superblock} {address : Nat} (hu : s.isUndefined address = true) :
    address = s.undefinedAddress :=
  beq_iff_eq.mp hu

theorem holds_of_passes {c c' : Cursor} {bytes : List UInt8} {pos : Nat} (hp : Passes c bytes c')
    (hh : Holds image pos c.rest) :
    Holds image pos bytes ∧ Holds image (pos + bytes.length) c'.rest := by
  rw [hp.rest] at hh
  exact holds_append_iff.mp hh

/-- **What is collected from the slots** stands in them, and the slot after the last one, if there
is one, holds the undefined address. -/
theorem held_of_collect {n : Nat} {found children : List Nat} {c c' : Cursor} {pos : Nat}
    (hr : (Reader.collect (IndirectBlock.slotReader h) n found).step c = (.ok children, c'))
    (hh : Holds image pos c.rest) :
    ∃ new, children = found.reverse ++ new ∧
      (∀ slot child, new[slot]? = some child →
        h.superblock.isUndefined child = false ∧ child < 256 ^ h.superblock.offsetWidth ∧
          Holds image (pos + slot * slotLength h) (encode h.superblock.offsetWidth child)) ∧
      (new.length < n → Holds image (pos + new.length * slotLength h)
        (encode h.superblock.offsetWidth h.superblock.undefinedAddress)) := by
  induction n generalizing found c pos with
  | zero =>
    rw [Reader.collect, Reader.step_pure] at hr
    cases hr
    exact ⟨[], (List.append_nil _).symm, by simp, fun hlt => absurd hlt (Nat.lt_irrefl 0)⟩
  | succ n ih =>
    rw [Reader.collect] at hr
    obtain ⟨child?, c₁, hslot, hr⟩ := Reader.step_bind_eq_ok.mp hr
    obtain ⟨child, hlt, ⟨hundef, rfl, hp⟩ | ⟨hdef, rfl, filler, hfiller, hp⟩⟩ := step_slot hslot
    · rw [Reader.step_pure] at hr
      cases hr
      refine ⟨[], (List.append_nil _).symm, by simp, fun _ => ?_⟩
      rw [List.length_nil, Nat.zero_mul, Nat.add_zero, ← eq_undefinedAddress hundef]
      exact (holds_of_passes hp hh).1
    · obtain ⟨hhere, hrest⟩ := holds_of_passes hp hh
      rw [List.length_append, length_encode, hfiller] at hrest
      obtain ⟨new, rfl, hnew, hend⟩ := ih hr hrest
      refine ⟨child :: new, ?_, ?_, fun hlen => ?_⟩
      · rw [List.reverse_cons, List.append_assoc]
        rfl
      · intro slot child' hget
        cases slot with
        | zero =>
          cases hget
          rw [Nat.zero_mul, Nat.add_zero]
          exact ⟨hdef, hlt, (holds_append_iff.mp hhere).1⟩
        | succ slot =>
          rw [Nat.succ_mul, Nat.add_comm (slot * _), ← Nat.add_assoc]
          exact hnew slot child' hget
      · rw [List.length_cons, Nat.succ_mul, Nat.add_comm (new.length * _), ← Nat.add_assoc]
        exact hend (Nat.lt_of_succ_lt_succ hlen)

/-! ### Whole blocks -/

/-- **The children of a block that has been read** stand in its slots from the first on, none of
them is the undefined address, and if there are more slots, the next one holds that address. -/
theorem children_of_read {address rows : Nat} {b : IndirectBlock}
    (hread : IndirectBlock.read image h address rows = .ok b) :
    b.address = address ∧
      (∀ slot child, b.children[slot]? = some child →
        h.superblock.isUndefined child = false ∧ SlotHolds image h address slot child) ∧
      (b.children.length < IndirectBlock.slots h rows →
        SlotHolds image h address b.children.length h.superblock.undefinedAddress) := by
  unfold IndirectBlock.read at hread
  split at hread
  · cases hread
  obtain ⟨record, hrec, hread⟩ := bind_eq_ok_iff.mp hread
  obtain ⟨⟨offset, children⟩, hreader, heq⟩ := bind_eq_ok_iff.mp hread
  cases heq
  obtain ⟨hheld, -⟩ := readRecord_eq_ok_iff.mp hrec
  obtain ⟨c', hstep⟩ := read_eq_ok_iff.mp hreader
  unfold IndirectBlock.reader at hstep
  obtain ⟨offset', c₁, hheading, hstep⟩ := Reader.step_bind_eq_ok.mp hstep
  obtain ⟨children', c₂, hcollect, hpure⟩ := Reader.step_bind_eq_ok.mp hstep
  rw [Reader.step_pure] at hpure
  cases hpure
  have hrest := (holds_of_passes (step_heading_iff.mp hheading).2 hheld).2
  rw [BlockHeading.length_encode] at hrest
  obtain ⟨new, rfl, hnew, hend⟩ := held_of_collect hcollect hrest
  refine ⟨rfl, fun slot child hget => ?_, fun hlt => ⟨undefinedAddress_lt _, hend hlt⟩⟩
  obtain ⟨hdef, hlt, hslot⟩ := hnew slot child hget
  exact ⟨hdef, hlt, hslot⟩

/-- **The first child does not depend on the rows.** Where a block has a child in its first slot,
every reading of it with at least one row has the same. -/
theorem firstChild_of_read {address rows rows' child : Nat} {b b' : IndirectBlock}
    (hread : IndirectBlock.read image h address rows = .ok b)
    (hread' : IndirectBlock.read image h address rows' = .ok b')
    (hchild : b.children[0]? = some child) (hrows : 0 < rows') :
    b'.children[0]? = some child := by
  obtain ⟨-, hall, -⟩ := children_of_read hread
  obtain ⟨-, hall', hend'⟩ := children_of_read hread'
  obtain ⟨hdef, hslot⟩ := hall 0 child hchild
  cases hfirst : b'.children[0]? with
  | some child' => rw [(hall' 0 child' hfirst).2.unique hslot]
  | none =>
    have hempty : b'.children.length = 0 := Nat.le_zero.mp (List.getElem?_eq_none_iff.mp hfirst)
    have hslots : 0 < IndirectBlock.slots h rows' := Nat.mul_pos hrows h.table.width_pos
    rw [hempty] at hend'
    rw [hslot.unique (hend' hslots), isUndefined_undefinedAddress] at hdef
    cases hdef

end DoublingHeap.Proofs.Children
