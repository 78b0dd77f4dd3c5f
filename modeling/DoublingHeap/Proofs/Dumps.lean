import DoublingHeap.Bytes.HexDump
import DoublingHeap.Proofs.Spelling

/-! # Reading a dump

The columns of a line are found by their places (`columns`): the position ends at the first blank,
the digits take as many characters on every line, and the text stands between two bars. So it does
not matter that a bar or a blank may also stand in the text.

A line of a dump shows its bytes twice (`ShowsLine`). The digits alone give the bytes back, and the
digits of all lines give the whole byte string back (`readBack_linesFrom`), by induction along the
recursion that writes the lines. -/

namespace DoublingHeap.Proofs.Dumps

open DoublingHeap.Bytes DoublingHeap.Bytes.HexDump DoublingHeap.Text
open DoublingHeap.Proofs.Digits DoublingHeap.Proofs.Spelling

attribute [local instance (high)] instPowNat

variable {bytes : List UInt8} {position : Nat}

/-! ### Columns -/

/-- The columns of a line. -/
structure Columns where
  position : List Char
  digits : List Char
  text : List Char

/-- The columns of a line by their places. Two blanks stand in front of the digits, and two blanks
and a bar in front of the text. -/
def columns (line : String) : Columns :=
  let rest := line.toList.dropWhile (· != ' ')
  ⟨line.toList.takeWhile (· != ' '), (rest.drop 2).take 47, (rest.drop 52).dropLast⟩

/-- The bytes in the digits of a line. -/
def bytesOf (line : String) : Except Hex.Fault (List UInt8) :=
  ByteString.parse (String.ofList (columns line).digits)

/-- The bytes in the digits of all lines, in order. -/
def readBack : List String → Except Hex.Fault (List UInt8)
  | [] => .ok []
  | line :: lines => do return (← bytesOf line) ++ (← readBack lines)

/-- A byte is shown by its character if it is a printable one, and by a dot otherwise. -/
def Stands (b : UInt8) (c : Char) : Prop :=
  if 0x20 ≤ b.toNat ∧ b.toNat ≤ 0x7e then c.toNat = b.toNat else c = '.'

/-- **What line `k` of a dump shows.** -/
structure ShowsLine (bytes : List UInt8) (k : Nat) (line : String) : Prop where
  /-- The line is its columns, with blanks and bars between them. -/
  whole : line.toList = (columns line).position ++ [' ', ' '] ++ (columns line).digits
    ++ [' ', ' ', '|'] ++ (columns line).text ++ ['|']
  /-- The position of the first byte, in base sixteen, with zeros in front up to eight digits. -/
  position : (columns line).position = (Nat.toDigits 16 (16 * k)).leftpad 8 '0'
  width : (columns line).digits.length = 47
  digits : bytesOf line = .ok ((bytes.drop (16 * k)).take 16)
  text : List.Forall₂ Stands ((bytes.drop (16 * k)).take 16) (columns line).text
  /-- The text begins at the same place on every line, as long as eight digits suffice. -/
  start : 16 * k < (2 : Nat) ^ (32 : Nat) → line.toList.drop 60 = (columns line).text ++ ['|']
  not_end : '\n' ∉ line.toList

/-! ### One line -/

/-- The digits of bytes, two for each, with a blank between bytes. -/
def spaced (bytes : List UInt8) : List Char := [' '].intercalate (bytes.map Hex.ofByte)

theorem toList_line (position : Nat) (bytes : List UInt8) :
    (line position bytes).toList = (Hex.ofNat position).leftpad 8 '0' ++ [' ', ' ']
      ++ (spaced bytes).rightpad 47 ' ' ++ [' ', ' ', '|'] ++ bytes.map printable ++ ['|'] := by
  have hspaced : (" ".intercalate (bytes.map fun b => String.ofList (Hex.ofByte b))).toList
      = spaced bytes := by
    rw [String.toList_intercalate, List.map_map]
    unfold spaced
    congr 1
    exact List.map_congr_left fun b _ => String.toList_ofList
  unfold line paddedPosition digitsColumn textColumn
  simp only [String.toList_append, String.toList_ofList, hspaced]
  rfl

theorem spaced_cons_cons (b b' : UInt8) (bytes : List UInt8) :
    spaced (b :: b' :: bytes) = Hex.ofByte b ++ ' ' :: spaced (b' :: bytes) := by
  unfold spaced
  rw [List.map_cons, List.map_cons, List.intercalate_cons_cons, List.append_assoc]
  rfl

theorem length_spaced (b : UInt8) (bytes : List UInt8) :
    (spaced (b :: bytes)).length = 3 * bytes.length + 2 := by
  induction bytes generalizing b with
  | nil => rfl
  | cons b' bytes ih =>
    have htwo : (Hex.ofByte b).length = 2 := rfl
    rw [spaced_cons_cons, List.length_append, List.length_cons, ih, List.length_cons, htwo]
    omega

theorem length_digits (hlen : bytes.length ≤ 16) :
    ((spaced bytes).rightpad 47 ' ').length = 47 := by
  rw [List.length_rightpad]
  cases bytes with
  | nil => rfl
  | cons b bytes =>
    have hspaced := length_spaced b bytes
    rw [List.length_cons] at hlen
    omega

theorem withoutSeparators_append (cs ds : List Char) :
    withoutSeparators (cs ++ ds) = withoutSeparators cs ++ withoutSeparators ds :=
  List.filter_append ..

theorem withoutSeparators_blanks (n : Nat) : withoutSeparators (List.replicate n ' ') = [] := by
  unfold withoutSeparators
  rw [List.filter_replicate, if_neg (by decide)]

theorem withoutSeparators_ofByte (b : UInt8) :
    withoutSeparators (Hex.ofByte b) = Hex.ofByte b := by
  have hdigits := (pairs_encode [b]).isDigit_of_mem
  refine List.filter_eq_self.mpr fun c hc => ?_
  obtain ⟨d, hd⟩ := hdigits c (by simpa [Hex.encode] using hc)
  simpa using not_separates_of_isDigit hd

theorem withoutSeparators_digits (bytes : List UInt8) :
    withoutSeparators ((spaced bytes).rightpad 47 ' ') = Hex.encode bytes := by
  unfold List.rightpad Hex.encode
  rw [withoutSeparators_append, withoutSeparators_blanks, List.append_nil]
  induction bytes with
  | nil => rfl
  | cons b bytes ih =>
    cases bytes with
    | nil =>
      rw [List.flatMap_singleton]
      exact withoutSeparators_ofByte b
    | cons b' bytes =>
      have hblank : withoutSeparators [' '] = [] := withoutSeparators_blanks 1
      rw [spaced_cons_cons, ← List.singleton_append, withoutSeparators_append,
        withoutSeparators_append, withoutSeparators_ofByte, hblank, ih, List.nil_append,
        List.flatMap_cons (x := b)]

theorem stands_printable (b : UInt8) : Stands b (printable b) := by
  have hcode : ∀ k : Fin 128, (Char.ofNat k).toNat = k := by decide +kernel
  have hiff : (0x20 ≤ b ∧ b ≤ 0x7e) ↔ (0x20 ≤ b.toNat ∧ b.toNat ≤ 0x7e) := Iff.rfl
  unfold Stands printable
  by_cases hb : 0x20 ≤ b.toNat ∧ b.toNat ≤ 0x7e
  · rw [if_pos hb, if_pos (hiff.mpr hb)]
    exact hcode ⟨b.toNat, by omega⟩
  · rw [if_neg hb, if_neg (mt hiff.mp hb)]

/-! ### Which characters are written -/

theorem ne_of_mem_position {c : Char} (hc : c ∈ (Hex.ofNat position).leftpad 8 '0') :
    c ≠ ' ' ∧ c ≠ '\n' := by
  rcases List.mem_append.mp hc with hc | hc
  · rw [List.eq_of_mem_replicate hc]
    decide
  · obtain ⟨d, hd, rfl⟩ := digit_of_mem positional_hex hc
    exact digit_ne hd

theorem ne_of_mem_ofByte {b : UInt8} {c : Char} (hc : c ∈ Hex.ofByte b) : c ≠ '\n' := by
  have hb : b.toNat < 256 := b.toNat_lt
  rcases List.mem_pair.mp hc with rfl | rfl
  · exact (digit_ne (by omega)).2
  · exact (digit_ne (by omega)).2

theorem ne_of_mem_spaced {c : Char} (hc : c ∈ spaced bytes) : c ≠ '\n' := by
  induction bytes with
  | nil => exact absurd hc List.not_mem_nil
  | cons b bytes ih =>
    cases bytes with
    | nil => exact ne_of_mem_ofByte hc
    | cons b' bytes =>
      rw [spaced_cons_cons] at hc
      rcases List.mem_append.mp hc with hc | hc
      · exact ne_of_mem_ofByte hc
      rcases List.mem_cons.mp hc with rfl | hc
      · decide
      · exact ih hc

theorem Stands.ne {b : UInt8} {c : Char} (h : Stands b c) : c ≠ '\n' := by
  rintro rfl
  unfold Stands at h
  split at h
  · rename_i hb
    have hcode : '\n'.toNat = 10 := rfl
    omega
  · exact absurd h (by decide)

/-- A line has no line end in it. -/
theorem not_end_of_line (position : Nat) (bytes : List UInt8) :
    '\n' ∉ (line position bytes).toList := by
  have hposition : '\n' ∉ (Hex.ofNat position).leftpad 8 '0' :=
    fun h => (ne_of_mem_position h).2 rfl
  have hdigits : '\n' ∉ (spaced bytes).rightpad 47 ' ' := by
    intro h
    rcases List.mem_append.mp h with h | h
    · exact ne_of_mem_spaced h rfl
    · exact absurd (List.eq_of_mem_replicate h) (by decide)
  have htext : '\n' ∉ bytes.map printable := by
    intro h
    obtain ⟨b, -, hb⟩ := List.mem_map.mp h
    exact (stands_printable b).ne hb
  rw [toList_line]
  simp only [List.mem_append, not_or]
  exact ⟨⟨⟨⟨⟨hposition, by decide⟩, hdigits⟩, by decide⟩, htext⟩, by decide⟩

/-! ### The columns of a line that is written -/

theorem columns_line (position : Nat) (hlen : bytes.length ≤ 16) :
    columns (line position bytes) = ⟨(Hex.ofNat position).leftpad 8 '0',
      (spaced bytes).rightpad 47 ' ', bytes.map printable⟩ := by
  have hposition : ∀ c ∈ (Hex.ofNat position).leftpad 8 '0', (c != ' ') = true :=
    fun c hc => bne_iff_ne.mpr (ne_of_mem_position hc).1
  have hwidth := length_digits hlen
  unfold columns
  rw [toList_line]
  generalize (spaced bytes).rightpad 47 ' ' = digits at hwidth
  simp only [List.append_assoc]
  rw [List.takeWhile_append_of_pos hposition, List.dropWhile_append_of_pos hposition]
  rw [Columns.mk.injEq]
  refine ⟨List.append_nil _, List.take_left' hwidth, ?_⟩
  -- what stands in front of the text is as wide as two blanks, the digits, two blanks and a bar
  have htext : (digits ++ ([' ', ' ', '|'] ++ (bytes.map printable ++ ['|']))).drop 50
      = bytes.map printable ++ ['|'] := by
    rw [← List.append_assoc]
    exact List.drop_left' (by rw [List.length_append, hwidth]; rfl)
  exact (congrArg List.dropLast htext).trans List.dropLast_concat

theorem bytesOf_line (position : Nat) (hlen : bytes.length ≤ 16) :
    bytesOf (line position bytes) = .ok bytes := by
  unfold bytesOf
  rw [columns_line position hlen, parse_eq_ok_iff, String.toList_ofList, withoutSeparators_digits]
  exact pairs_encode bytes

/-! ### All lines -/

theorem linesFrom_nil (position : Nat) : linesFrom position [] = [] := by
  rw [linesFrom]
  rfl

theorem linesFrom_of_ne_nil (position : Nat) (h : bytes ≠ []) :
    linesFrom position bytes = line position (bytes.take 16)
      :: linesFrom (position + 16) (bytes.drop 16) := by
  rw [linesFrom, if_neg (by simpa using h)]
  rfl

/-- **Each line shows the next sixteen bytes.** -/
theorem linesFrom_eq_map (position : Nat) (bytes : List UInt8) :
    linesFrom position bytes = (List.range ((bytes.length + 15) / 16)).map fun k =>
      line (position + 16 * k) ((bytes.drop (16 * k)).take 16) := by
  induction position, bytes using linesFrom.induct with
  | case1 position bytes hempty =>
    rw [List.isEmpty_iff.mp hempty, linesFrom_nil]
    rfl
  | case2 position bytes hempty ih =>
    have hnil : bytes ≠ [] := fun h => hempty (List.isEmpty_iff.mpr h)
    have hpos : 0 < bytes.length := List.length_pos_iff.mpr hnil
    have hcount : (bytes.length + 15) / 16 = ((bytes.drop 16).length + 15) / 16 + 1 := by
      rw [List.length_drop]
      omega
    rw [linesFrom_of_ne_nil position hnil, hcount, List.range_succ_eq_map, List.map_cons,
      List.map_map]
    refine congrArg₂ List.cons rfl (ih.trans ?_)
    refine List.map_congr_left fun k _ => ?_
    have hplace : position + 16 + 16 * k = position + 16 * (k + 1) := by omega
    have hbytes : (bytes.drop 16).drop (16 * k) = bytes.drop (16 * (k + 1)) := by
      rw [List.drop_drop]
      congr 1
      omega
    show line (position + 16 + 16 * k) (((bytes.drop 16).drop (16 * k)).take 16) = _
    rw [hplace, hbytes]
    rfl

/-- **The digits of all lines** are read back as the whole. -/
theorem readBack_linesFrom (position : Nat) (bytes : List UInt8) :
    readBack (linesFrom position bytes) = .ok bytes := by
  induction position, bytes using linesFrom.induct with
  | case1 position bytes hempty =>
    rw [List.isEmpty_iff.mp hempty, linesFrom_nil]
    rfl
  | case2 position bytes hempty ih =>
    have hnil : bytes ≠ [] := fun h => hempty (List.isEmpty_iff.mpr h)
    have hline : bytesOf (line position (bytes.take 16)) = .ok (bytes.take 16) :=
      bytesOf_line position (List.length_take_le ..)
    have hrest : readBack (linesFrom (position + 16) (bytes.drop 16)) = .ok (bytes.drop 16) := ih
    rw [linesFrom_of_ne_nil position hnil, readBack, hline, hrest]
    exact congrArg Except.ok (List.take_append_drop 16 bytes)

theorem length_lines (bytes : List UInt8) : (lines bytes).length = (bytes.length + 15) / 16 := by
  unfold lines
  rw [linesFrom_eq_map, List.length_map, List.length_range]

theorem getElem?_lines {k : Nat} {l : String} (h : (lines bytes)[k]? = some l) :
    l = line (16 * k) ((bytes.drop (16 * k)).take 16) := by
  unfold lines at h
  rw [linesFrom_eq_map, List.getElem?_map] at h
  obtain ⟨i, hi, rfl⟩ := Option.map_eq_some_iff.mp h
  obtain ⟨hk, rfl⟩ := List.getElem?_eq_some_iff.mp hi
  rw [List.getElem_range, Nat.zero_add]

theorem position_eq (n : Nat) :
    (Hex.ofNat n).leftpad 8 '0' = (Nat.toDigits 16 n).leftpad 8 '0' := by
  rw [positional_hex.unique (positional_toDigits (by decide) (by decide))]

/-- Eight digits suffice for positions of 32 bits. -/
theorem length_position {n : Nat} (hn : n < (2 : Nat) ^ (32 : Nat)) :
    ((Hex.ofNat n).leftpad 8 '0').length = 8 := by
  have hdigits : (Nat.toDigits 16 n).length ≤ 8 :=
    (Nat.length_toDigits_le_iff (by decide) (by decide)).mpr (by omega)
  rw [position_eq, List.length_leftpad]
  exact Nat.max_eq_left hdigits

theorem showsLine_line (bytes : List UInt8) (k : Nat) :
    ShowsLine bytes k (line (16 * k) ((bytes.drop (16 * k)).take 16)) := by
  have hlen : ((bytes.drop (16 * k)).take 16).length ≤ 16 := List.length_take_le ..
  have hcolumns := columns_line (16 * k) hlen
  have hwhole := toList_line (16 * k) ((bytes.drop (16 * k)).take 16)
  refine ⟨?_, ?_, ?_, bytesOf_line _ hlen, ?_, ?_, not_end_of_line _ _⟩
  · rw [hcolumns, hwhole]
  · rw [hcolumns, position_eq]
  · rw [hcolumns, length_digits hlen]
  · rw [hcolumns]
    exact List.forall₂_map_right_iff.mpr (List.forall₂_same.mpr fun b _ => stands_printable b)
  · intro hk
    have hfront := length_position hk
    have hwidth := length_digits hlen
    rw [hcolumns, hwhole, List.append_assoc]
    refine List.drop_left' ?_
    rw [List.length_append, List.length_append, List.length_append, hfront, hwidth]
    rfl

/-- **A dump loses nothing.** It has a line for every sixteen bytes, and one for those that are
left. Every line shows its position, its bytes in digits and its bytes as text, each in its place.
The digits of all lines give the bytes back, so different byte strings have different dumps. -/
theorem dump_keeps_bytes (bytes : List UInt8) :
    (lines bytes).length = (bytes.length + 15) / 16 ∧
    (∀ k l, (lines bytes)[k]? = some l → ShowsLine bytes k l) ∧
    readBack (lines bytes) = .ok bytes ∧
    ∀ other, lines other = lines bytes → other = bytes := by
  have hback : ∀ bytes, readBack (lines bytes) = .ok bytes := readBack_linesFrom 0
  refine ⟨length_lines bytes, fun k l hl => ?_, hback bytes, fun other hsame => ?_⟩
  · rw [getElem?_lines hl]
    exact showsLine_line bytes k
  · have hother := hback other
    rw [hsame, hback bytes] at hother
    exact (Except.ok.inj hother).symm

/-- Seventeen bytes, of which the last is shown as a bar between bars. -/
def barAtEnd : List UInt8 := List.replicate 16 0 ++ [0x7C]

/-- The bar is alone on the second line, and its column begins where that of the first line does. -/
theorem bar_is_shown :
    ∃ l, (lines barAtEnd)[1]? = some l ∧ 16 * 1 < (2 : Nat) ^ (32 : Nat) ∧
      (columns l).text = ['|'] ∧ l.toList.drop 60 = ['|', '|'] ∧
      bytesOf l = .ok [0x7C] ∧ readBack (lines barAtEnd) = .ok barAtEnd := by
  obtain ⟨hlength, hshows, hback, -⟩ := dump_keeps_bytes barAtEnd
  have hlines : 1 < (lines barAtEnd).length := by
    rw [hlength]
    decide
  have hl : (lines barAtEnd)[1]? = some (lines barAtEnd)[1] := List.getElem?_eq_getElem hlines
  have hshown := hshows 1 _ hl
  have hplace : 16 * 1 < (2 : Nat) ^ (32 : Nat) := by decide
  have hbytes : (barAtEnd.drop (16 * 1)).take 16 = [0x7C] := by decide
  have htext : (columns (lines barAtEnd)[1]).text = ['|'] := by
    have hstands := hshown.text
    rw [hbytes] at hstands
    obtain ⟨c, cs, hc, hcs, htext⟩ := List.forall₂_cons_left_iff.mp hstands
    rw [htext, List.forall₂_nil_left_iff.mp hcs]
    have hcode : c.toNat = '|'.toNat := hc
    rw [Char.toNat_inj.mp hcode]
  have hstart := hshown.start hplace
  rw [htext] at hstart
  exact ⟨_, hl, hplace, htext, hstart, hshown.digits, hback⟩

end DoublingHeap.Proofs.Dumps
