import DoublingHeap.Proofs.Blocks

/-! # Writing an image

An image is written piece by piece: each piece overwrites what is at its address, and the image
grows with zeros where it is too short (`put`). Pieces that do not overlap are all held by the image
that is written from them (`holds_written`), in whatever order they are written. -/

namespace DoublingHeap.Proofs.Writing

open DoublingHeap.Proofs.Blocks

/-- A run of bytes and where it is written. -/
structure Piece where
  address : Nat
  bytes : List UInt8
deriving DecidableEq, Repr

/-- One piece ends before the other begins. -/
def Apart (p q : Piece) : Prop :=
  p.address + p.bytes.length ≤ q.address ∨ q.address + q.bytes.length ≤ p.address

instance (p q : Piece) : Decidable (Apart p q) := by unfold Apart; infer_instance

/-- The bytes of a file with one more piece. -/
def put (file : List UInt8) (p : Piece) : List UInt8 :=
  (file ++ List.replicate (p.address - file.length) 0).take p.address ++ p.bytes
    ++ file.drop (p.address + p.bytes.length)

/-- The image with these pieces and zeros elsewhere. -/
def written (pieces : List Piece) : Image := .ofList (pieces.foldl put [])

/-! ### One byte -/

theorem length_front (file : List UInt8) (address : Nat) :
    ((file ++ List.replicate (address - file.length) 0).take address).length = address := by
  rw [List.length_take, List.length_append, List.length_replicate]
  omega

theorem getElem?_put_inside (file : List UInt8) {p : Piece} {i : Nat} (hi : i < p.bytes.length) :
    (put file p)[p.address + i]? = p.bytes[i]? := by
  have hlen := length_front file p.address
  unfold put
  rw [List.append_assoc, List.getElem?_append_right (by omega), hlen, Nat.add_sub_cancel_left,
    List.getElem?_append_left hi]

theorem getElem?_put_outside {file : List UInt8} {p : Piece} {i : Nat} (hfile : i < file.length)
    (hi : i < p.address ∨ p.address + p.bytes.length ≤ i) : (put file p)[i]? = file[i]? := by
  have hlen := length_front file p.address
  unfold put
  rcases hi with hlt | hge
  · rw [List.append_assoc, List.getElem?_append_left (by omega), List.getElem?_take_of_lt hlt,
      List.getElem?_append_left hfile]
  · have hfront : (((file ++ List.replicate (p.address - file.length) 0).take p.address)
        ++ p.bytes).length = p.address + p.bytes.length := by
      rw [List.length_append, hlen]
    rw [List.getElem?_append_right (by omega), hfront, List.getElem?_drop]
    congr 1
    omega

theorem length_put (file : List UInt8) (p : Piece) :
    (put file p).length = max file.length (p.address + p.bytes.length) := by
  unfold put
  rw [List.length_append, List.length_append, length_front, List.length_drop]
  omega

/-! ### All pieces -/

/-- A piece stands in a file. -/
def Stands (file : List UInt8) (p : Piece) : Prop :=
  p.address + p.bytes.length ≤ file.length ∧
    ∀ i, i < p.bytes.length → file[p.address + i]? = p.bytes[i]?

theorem Stands.holds {file : List UInt8} {p : Piece} (hp : Stands file p) :
    Holds (.ofList file) p.address p.bytes := by
  obtain ⟨hle, heach⟩ := hp
  refine ⟨hle, List.ext_getElem? fun i => ?_⟩
  rw [Image.toList_ofList]
  by_cases hi : i < p.bytes.length
  · rw [List.getElem?_take_of_lt hi, List.getElem?_drop, heach i hi]
  · rw [List.getElem?_take_eq_none (Nat.le_of_not_lt hi),
      List.getElem?_eq_none (Nat.le_of_not_lt hi)]

theorem stands_put (file : List UInt8) (p : Piece) : Stands (put file p) p := by
  refine ⟨?_, fun i hi => getElem?_put_inside file hi⟩
  rw [length_put]
  exact Nat.le_max_right ..

/-- **A piece apart** leaves another one alone. -/
theorem Stands.put {file : List UInt8} {p q : Piece} (hp : Stands file p) (hapart : Apart p q) :
    Stands (put file q) p := by
  obtain ⟨hle, heach⟩ := hp
  refine ⟨?_, fun i hi => ?_⟩
  · rw [length_put]
    exact Nat.le_trans hle (Nat.le_max_left ..)
  · rw [getElem?_put_outside (by omega) (by unfold Apart at hapart; omega)]
    exact heach i hi

theorem stands_foldl {pieces : List Piece} (hapart : pieces.Pairwise Apart) {file : List UInt8}
    {p : Piece}
    (hp : p ∈ pieces ∨ Stands file p ∧ ∀ q ∈ pieces, Apart p q) :
    Stands (pieces.foldl put file) p := by
  induction pieces generalizing file with
  | nil =>
    rcases hp with hm | ⟨hs, -⟩
    · cases hm
    · exact hs
  | cons q rest ih =>
    obtain ⟨hq, hrest⟩ := List.pairwise_cons.mp hapart
    refine ih hrest ?_
    rcases hp with hm | ⟨hs, hall⟩
    · rcases List.mem_cons.mp hm with rfl | hm
      · exact .inr ⟨stands_put file p, hq⟩
      · exact .inl hm
    · exact .inr ⟨hs.put (hall q (List.mem_cons_self ..)),
        fun r hr => hall r (List.mem_cons_of_mem _ hr)⟩

/-- **Pieces that are apart are all held** by the image that is written from them. -/
theorem holds_written {pieces : List Piece} (hapart : pieces.Pairwise Apart) {p : Piece}
    (hp : p ∈ pieces) : Holds (written pieces) p.address p.bytes :=
  (stands_foldl hapart (.inl hp)).holds

end DoublingHeap.Proofs.Writing
