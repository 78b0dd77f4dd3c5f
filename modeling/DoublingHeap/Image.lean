/-! # File images

An `Image` is the content of a heap file, seen as the list of its bytes (`Image.toList`). It is read
in two ways that succeed on the same ranges: `Image.record` copies the bytes of a range, and
`Image.region` makes a view of it, a `Region`, that shares the image. A range outside the image is
an `OutOfRange` error for both. -/

namespace DoublingHeap

/-- The bytes of a heap file. -/
structure Image where
  bytes : ByteArray

/-- A range that leaves the image: `length` bytes at `address` in an image of `total` bytes. -/
structure OutOfRange where
  address : Nat
  length : Nat
  total : Nat
deriving DecidableEq, Repr

/-- What is wrong with the range. -/
def OutOfRange.message (e : OutOfRange) : String :=
  s!"range {e.address}+{e.length} outside of {e.total} byte source"

namespace Image

/-- The number of bytes. -/
def size (image : Image) : Nat := image.bytes.size

/-- The bytes in order of their addresses. -/
def toList (image : Image) : List UInt8 := image.bytes.data.toList

/-- The image with the given bytes. -/
def ofList (bytes : List UInt8) : Image := ⟨⟨bytes.toArray⟩⟩

@[simp] theorem toList_ofList (bytes : List UInt8) : (ofList bytes).toList = bytes := rfl

@[simp] theorem length_toList (image : Image) : image.toList.length = image.size := rfl

/-- A copy of `length` bytes at `address`. -/
def record (image : Image) (address length : Nat) : Except OutOfRange (List UInt8) :=
  if address + length ≤ image.size then
    .ok (image.bytes.extract address (address + length)).data.toList
  else .error ⟨address, length, image.size⟩

/-- A view of `length` bytes of an image from `start` on. -/
structure Region where
  source : Image
  start : Nat
  length : Nat
  within : start + length ≤ source.size

/-- The view of `length` bytes at `address`. -/
def region (image : Image) (address length : Nat) : Except OutOfRange Region :=
  if h : address + length ≤ image.size then .ok ⟨image, address, length, h⟩
  else .error ⟨address, length, image.size⟩

namespace Region

/-- The bytes in view. -/
def toList (r : Region) : List UInt8 :=
  (r.source.bytes.extract r.start (r.start + r.length)).data.toList

/-- The part of a view that starts `start` bytes into it. -/
def slice (r : Region) (start length : Nat) (h : start + length ≤ r.length) : Region :=
  ⟨r.source, r.start + start, length, by have := r.within; omega⟩

/-- The part of a view after its first `n` bytes. -/
def drop (r : Region) (n : Nat) : Region :=
  r.slice (min n r.length) (r.length - n) (by omega)

end Region

/-! ### The bytes of a range -/

theorem toList_extract (image : Image) (address length : Nat) :
    (image.bytes.extract address (address + length)).data.toList
      = (image.toList.drop address).take length := by
  simp [toList, ByteArray.data_extract, Array.toList_extract, List.extract_eq_take_drop]

theorem record_eq_ok_iff {image : Image} {address length : Nat} {bytes : List UInt8} :
    image.record address length = .ok bytes ↔
      address + length ≤ image.size ∧ bytes = (image.toList.drop address).take length := by
  unfold record
  split
  · rename_i h
    rw [toList_extract, Except.ok.injEq, eq_comm]
    exact (and_iff_right h).symm
  · rename_i h
    simp [h]

theorem Region.toList_eq (r : Region) :
    r.toList = (r.source.toList.drop r.start).take r.length :=
  toList_extract ..

@[simp] theorem Region.length_toList (r : Region) : r.toList.length = r.length := by
  have := r.within
  rw [toList_eq, List.length_take, List.length_drop, Image.length_toList]
  omega

theorem Region.toList_slice (r : Region) (start length : Nat) (h : start + length ≤ r.length) :
    (r.slice start length h).toList = (r.toList.drop start).take length := by
  simp only [toList_eq, slice, List.drop_take, List.drop_drop, List.take_take]
  congr 1
  omega

theorem Region.toList_drop (r : Region) (n : Nat) : (r.drop n).toList = r.toList.drop n := by
  unfold drop
  rw [toList_slice]
  rcases Nat.le_total n r.length with h | h
  · rw [Nat.min_eq_left h, List.take_of_length_le (by simp)]
  · rw [Nat.min_eq_right h, List.drop_of_length_le (by simp), List.drop_of_length_le (by simp [h]),
      List.take_nil]

end Image

end DoublingHeap
