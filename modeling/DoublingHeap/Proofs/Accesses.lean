import Mathlib.Data.List.Basic
import DoublingHeap.Command.Run
import DoublingHeap.Proofs.Checks
import DoublingHeap.Proofs.Traps

/-! # Copies and views

An image is made of bytes in memory or of a mapped file (`Channel`), and a range of it is copied
into a buffer or viewed in place. A view shows what a copy has and fails as the copy does
(`map_toList_region`); so the heading of a block, which is decoded from a copy, stands in front of
the bytes that the block keeps (`record_of_readDirect`). Ranges that meet are one range
(`region_add_iff`, `toList_region_add`).

A machine has only so many sizes, and some addresses are none of them. It has to form the end of a
range before it can compare it with the size of the image. A range that has no end there is outside
(`range_eq`), so a machine finds the same ranges, whatever sizes it has, if the size of the image is
one of them. -/

namespace DoublingHeap.Proofs.Accesses

open DoublingHeap.Proofs.Checks DoublingHeap.Proofs.Machine DoublingHeap.Proofs.Traps

attribute [local instance (high)] instPowNat

/-! ### Channels -/

/-- Where the bytes of an image come from. -/
inductive Channel where
  | memory (bytes : List UInt8)
  | mapped (files : Files) (path : String)

namespace Channel

/-- The bytes behind a channel. There are none if the path does not lead to a file. -/
def content? : Channel → Option (List UInt8)
  | memory bytes => some bytes
  | mapped files path =>
    match files path with
    | .ok (.file content) => some content.data.toList
    | _ => none

/-- The image that is read through a channel. -/
def image : Channel → Except Command.Failure Image
  | memory bytes => .ok (.ofList bytes)
  | mapped files path => Command.openImage files path

theorem image_of_content {channel : Channel} {bytes : List UInt8}
    (hbytes : channel.content? = some bytes) : channel.image = .ok (.ofList bytes) := by
  cases channel with
  | memory =>
    cases hbytes
    rfl
  | mapped files path =>
    show Command.openImage files path = _
    unfold Command.openImage
    rcases hfile : files path with e | content | _ <;> simp only [content?, hfile] at hbytes
    · cases hbytes
    · cases hbytes
      rfl
    · cases hbytes

end Channel

/-! ### Ranges -/

section Ranges

variable (image : Image) (address length : Nat)

theorem record_eq : image.record address length =
    if address + length ≤ image.size then .ok (bytesAt image address length)
    else .error ⟨address, length, image.size⟩ := by
  unfold Image.record bytesAt
  rw [Image.toList_extract]

/-- **A view shows what a copy has**, and fails as it does. -/
theorem map_toList_region :
    (image.region address length).map Image.Region.toList = image.record address length := by
  unfold Image.region Image.record
  split <;> rfl

variable {image address length}

theorem record_ok_iff : (∃ found, image.record address length = .ok found) ↔
    address + length ≤ image.size := by
  rw [record_eq]
  by_cases hle : address + length ≤ image.size
  · rw [if_pos hle]
    exact ⟨fun _ => hle, fun _ => ⟨_, rfl⟩⟩
  · rw [if_neg hle]
    exact ⟨nofun, fun h => absurd h hle⟩

theorem region_ok_iff : (∃ r, image.region address length = .ok r) ↔
    address + length ≤ image.size := by
  unfold Image.region
  by_cases hle : address + length ≤ image.size
  · rw [dif_pos hle]
    exact ⟨fun _ => hle, fun _ => ⟨_, rfl⟩⟩
  · rw [dif_neg hle]
    exact ⟨nofun, fun h => absurd h hle⟩

theorem toList_of_region {r : Image.Region} (hr : image.region address length = .ok r) :
    r.toList = bytesAt image address length := by
  have hcopy := map_toList_region image address length
  rw [hr, record_eq, if_pos (region_ok_iff.mp ⟨r, hr⟩)] at hcopy
  exact Except.ok.inj hcopy

theorem getElem?_bytesAt {i : Nat} (hi : i < length) :
    (bytesAt image address length)[i]? = image.toList[address + i]? := by
  unfold bytesAt
  rw [List.getElem?_take_of_lt hi, List.getElem?_drop]

/-- **Ranges that meet** are found together or not at all. -/
theorem region_add_iff {m n : Nat} : (∃ r, image.region address (m + n) = .ok r) ↔
    (∃ r, image.region address m = .ok r) ∧ ∃ r, image.region (address + m) n = .ok r := by
  simp only [region_ok_iff]
  omega

theorem toList_region_add {m n : Nat} {r r₁ r₂ : Image.Region}
    (hr : image.region address (m + n) = .ok r) (hr₁ : image.region address m = .ok r₁)
    (hr₂ : image.region (address + m) n = .ok r₂) : r.toList = r₁.toList ++ r₂.toList := by
  rw [toList_of_region hr, toList_of_region hr₁, toList_of_region hr₂, bytesAt_add]

end Ranges

/-- **The heading of a block is the start of its bytes**, though it is decoded from a copy and they
are viewed. -/
theorem record_of_readDirect {image : Image} {h : Header} {address size : Nat} {t : Level}
    {b : DirectBlock} (hread : (DirectBlock.read image h address size).result t = .ok b) :
    image.record address b.headerLength = .ok (b.data.toList.take b.headerLength) := by
  obtain ⟨hle, -, -, within, hb⟩ := Blocks.readDirect_iff.mp hread
  have hlength : b.headerLength = DirectBlock.headerLengthOf h :=
    congrArg DirectBlock.headerLength hb
  have hdata : b.data.toList = bytesAt image address size := by
    rw [hb]
    exact Image.Region.toList_eq _
  rw [record_eq, if_pos (by omega), hdata]
  unfold bytesAt
  rw [List.take_take, Nat.min_eq_left (by omega)]

/-! ### Machines -/

/-- The bytes of a file, as far as there are any to map. -/
def mapping? (content : List UInt8) : Option (List UInt8) :=
  if content.isEmpty then none else some content

/-- The bytes of a file. A file without bytes is not mapped. -/
def fileBytes? (content : List UInt8) : Option (List UInt8) :=
  if content.length = 0 then some [] else mapping? content

/-- The first position of a range in a source of `total` bytes and the first after it, on a machine
whose sizes are below `limit`. -/
def range (limit total address length : Nat) : Except OutOfRange (Nat × Nat) :=
  let start := if address < limit then some address else none
  let stop := start.bind fun start => if start + length < limit then some (start + length) else none
  match start, stop with
  | some start, some stop =>
    if stop ≤ total then .ok (start, stop) else .error ⟨address, length, total⟩
  | _, _ => .error ⟨address, length, total⟩

/-- Fills a buffer with the bytes from an address on: what is reported, and the buffer after it. -/
def fill? (limit : Nat) (bytes : List UInt8) (address : Nat) (buffer : List UInt8) :
    Option (Except OutOfRange Unit × List UInt8) :=
  match range limit bytes.length address buffer.length with
  | .error e => some (.error e, buffer)
  | .ok (start, stop) => do
    let found ← slice? bytes start stop
    let filled ← copy? buffer.length found
    return (.ok (), filled)

/-- The view of `length` bytes at an address. -/
def viewAt? (limit : Nat) (image : Image) (address length : Nat) :
    Option (Except OutOfRange Image.Region) :=
  match range limit image.size address length with
  | .error e => some (.error e)
  | .ok (start, stop) => do
    let r ← view? image start stop
    return .ok r

theorem fileBytes?_eq (content : List UInt8) : fileBytes? content = some content := by
  cases content <;> rfl

section Machines

variable {limit : Nat} {image : Image}

theorem range_eq {total : Nat} (htotal : total < limit) (address length : Nat) :
    range limit total address length =
      if address + length ≤ total then .ok (address, address + length)
      else .error ⟨address, length, total⟩ := by
  unfold range
  by_cases hstart : address < limit
  · by_cases hstop : address + length < limit
    · simp only [hstart, hstop, if_true, Option.bind_some]
    · have hout : ¬ address + length ≤ total := by omega
      simp only [hstart, hstop, hout, if_true, if_false, Option.bind_some]
  · have hout : ¬ address + length ≤ total := by omega
    simp only [hstart, hout, if_false, Option.bind_none]

/-- The buffer that is filled holds the copy, and a range that is outside leaves it as it was. -/
theorem fill?_eq (hsize : image.size < limit) (address : Nat) (buffer : List UInt8) :
    fill? limit image.toList address buffer = some (match image.record address buffer.length with
      | .ok found => (.ok (), found)
      | .error e => (.error e, buffer)) := by
  unfold fill?
  rw [Image.length_toList, range_eq hsize, record_eq]
  by_cases hle : address + buffer.length ≤ image.size
  · have hslice : slice? image.toList address (address + buffer.length)
        = some (bytesAt image address buffer.length) := slice?_range hle
    have hcopy : copy? buffer.length (bytesAt image address buffer.length)
        = some (bytesAt image address buffer.length) := if_pos (length_bytesAt hle)
    rw [if_pos hle, if_pos hle]
    simp only [hslice, hcopy, Option.bind_eq_bind, Option.bind_some, Option.pure_def]
  · rw [if_neg hle, if_neg hle]

theorem viewAt?_eq (hsize : image.size < limit) (address length : Nat) :
    viewAt? limit image address length = some (image.region address length) := by
  unfold viewAt? Image.region
  rw [range_eq hsize]
  by_cases hle : address + length ≤ image.size
  · rw [if_pos hle, dif_pos hle]
    simp only [view?_range hle, Option.bind_eq_bind, Option.bind_some, Option.pure_def]
  · rw [if_neg hle, dif_neg hle]

end Machines

/-- **Copies and views agree, and they compose.** Bytes in memory and a mapped file give the same
image. A range of it is copied, and viewed, exactly if it ends in the image; what is found are the
bytes at its addresses, and the error is the same for both. Two ranges that meet are viewed exactly
if their union is, and then the union shows the first and after it the second. A machine does the
same, whatever sizes it has, does not trap, and leaves the buffer as it was if it fails. -/
theorem accesses_agree {channel : Channel} {bytes : List UInt8}
    (hbytes : channel.content? = some bytes) :
    ∃ image, channel.image = .ok image ∧ image.toList = bytes ∧
      (∀ address length,
        (image.region address length).map Image.Region.toList = image.record address length ∧
        ((∃ found, image.record address length = .ok found) ↔
          address + length ≤ bytes.length) ∧
        (∀ found, image.record address length = .ok found →
          found.length = length ∧ ∀ i < length, found[i]? = bytes[address + i]?) ∧
        ∀ e, image.record address length = .error e → e = ⟨address, length, bytes.length⟩) ∧
      (∀ address m n,
        ((∃ r, image.region address (m + n) = .ok r) ↔
          (∃ r, image.region address m = .ok r) ∧ ∃ r, image.region (address + m) n = .ok r) ∧
        ∀ r r₁ r₂, image.region address (m + n) = .ok r → image.region address m = .ok r₁ →
          image.region (address + m) n = .ok r₂ → r.toList = r₁.toList ++ r₂.toList) ∧
      fileBytes? bytes = some bytes ∧
      ∀ limit, bytes.length < limit →
        (∀ address buffer, fill? limit bytes address buffer
          = some (match image.record address buffer.length with
            | .ok found => (.ok (), found)
            | .error e => (.error e, buffer))) ∧
        ∀ address length,
          viewAt? limit image address length = some (image.region address length) := by
  refine ⟨.ofList bytes, Channel.image_of_content hbytes, rfl, fun address length => ?_,
    fun address m n => ⟨region_add_iff, fun r r₁ r₂ => toList_region_add⟩, fileBytes?_eq bytes,
    fun limit hlimit => ?_⟩
  · refine ⟨map_toList_region .., record_ok_iff, fun found hfound => ?_, fun e he => ?_⟩
    · have hle := record_ok_iff.mp ⟨found, hfound⟩
      rw [record_eq, if_pos hle] at hfound
      cases hfound
      exact ⟨length_bytesAt hle, fun i hi => getElem?_bytesAt hi⟩
    · rw [record_eq] at he
      split at he
      · cases he
      · exact (Except.error.inj he).symm
  · have hsize : (Image.ofList bytes).size < limit := hlimit
    exact ⟨fill?_eq hsize, viewAt?_eq hsize⟩

/-- A file of ten bytes. -/
def tenBytes : Channel :=
  .mapped (fun _ => .ok (.file ⟨#[0, 1, 2, 3, 4, 5, 6, 7, 8, 9]⟩)) "ten"

/-- The end of the file is a range without bytes, and nothing is behind it. An address at the end of
all words is outside, and a buffer that is not filled keeps its bytes. -/
theorem ten_bytes_accessed :
    tenBytes.content? = some [0, 1, 2, 3, 4, 5, 6, 7, 8, 9] ∧
    ∃ image, tenBytes.image = .ok image ∧
      image.record 10 0 = .ok [] ∧ image.record 11 0 = .error ⟨11, 0, 10⟩ ∧
      (image.region 8 2).map Image.Region.toList = .ok [8, 9] ∧
      (image.region 8 3).map Image.Region.toList = .error ⟨8, 3, 10⟩ ∧
      fill? (2 ^ 64) image.toList (2 ^ 64 - 1) [1, 2, 3]
        = some (.error ⟨2 ^ 64 - 1, 3, 10⟩, [1, 2, 3]) := by
  have hcontent : tenBytes.content? = some [0, 1, 2, 3, 4, 5, 6, 7, 8, 9] := rfl
  obtain ⟨image, himage, hbytes, haccess, -, -, hmachine⟩ := accesses_agree hcontent
  have houtside : ∀ address length, ¬ address + length ≤ 10 →
      image.record address length = .error ⟨address, length, 10⟩ := by
    intro address length hout
    obtain ⟨-, hok, -, herror⟩ := haccess address length
    cases hrecord : image.record address length with
    | ok found => exact absurd (hok.mp ⟨found, hrecord⟩) hout
    | error e => rw [herror e hrecord]; rfl
  refine ⟨hcontent, image, himage, ?_, houtside 11 0 (by decide), ?_, ?_, ?_⟩
  · obtain ⟨-, hok, hfound, -⟩ := haccess 10 0
    obtain ⟨found, hrecord⟩ := hok.mpr (by decide)
    rw [hrecord, List.length_eq_zero_iff.mp (hfound found hrecord).1]
  · obtain ⟨hview, hok, hfound, -⟩ := haccess 8 2
    obtain ⟨found, hrecord⟩ := hok.mpr (by decide)
    obtain ⟨hlength, heach⟩ := hfound found hrecord
    obtain ⟨a, b, rfl⟩ := List.length_eq_two.mp hlength
    cases heach 0 (by decide)
    cases heach 1 (by decide)
    rw [hview, hrecord]
  · rw [(haccess 8 3).1, houtside 8 3 (by decide)]
  · rw [hbytes, (hmachine (2 ^ 64) (by decide)).1, houtside _ _ (by decide)]
    rfl

end DoublingHeap.Proofs.Accesses
