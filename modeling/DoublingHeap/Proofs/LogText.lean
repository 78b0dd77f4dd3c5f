import Mathlib.Data.List.Infix
import DoublingHeap.DirectBlock
import DoublingHeap.IndirectBlock
import DoublingHeap.Proofs.Digits

/-! # What lines of the log say

A line of the log is a text with numbers in it (`spell`), and a reader of the log looks for the
lines in which some words stand (`Mentions`). Words without digits stand in a text with numbers if
they stand in one of its pieces (`mentions_spell_iff`). So the lines about the header, about
indirect blocks, about direct blocks and about the whole heap are told apart by their words; what is
said of a direct block is also a part of what is said of an indirect one. A line about a direct
block has the numbers of the block (`offset_eq_of_directLine`). -/

namespace DoublingHeap.Proofs.LogText

open DoublingHeap.Text.Numeral DoublingHeap.Proofs.Digits

/-- A text with numbers in it, each in front of the next piece of the text. -/
def spell (piece : String) : List (Nat × String) → String
  | [] => piece
  | (n, next) :: rest => piece ++ toString n ++ spell next rest

/-- The line of a header. -/
def headerLine (h : Header) : String :=
  spell "TRACE heap header at "
    [(h.address, ": id_length="), (h.fields.idLength, " table_width="),
     (h.fields.tableWidth, " start="), (h.fields.startingBlockSize, " max_direct="),
     (h.fields.maxDirectBlockSize, "")]

/-- The line of an indirect block. -/
def indirectLine (b : IndirectBlock) : String :=
  spell "DEBUG Indirect block at "
    [(b.address, ": offset="), (b.offset, " rows="), (b.rows, " children="),
     (b.children.length, "")]

/-- The line of a direct block. -/
def directLine (b : DirectBlock) : String :=
  spell "TRACE direct block at " [(b.address, ": offset="), (b.offset, " size="), (b.size, "")]

/-- The line of a heap at an address, with so many blocks. -/
def loadedLine (address blocks : Nat) : String :=
  spell "DEBUG Read fractal heap at address "
    [(address, ", loaded "), (blocks, " direct blocks")]

/-- The words stand in a line. -/
def Mentions (words line : String) : Prop := words.toList <:+: line.toList

instance (words : String) : DecidablePred (Mentions words) := fun line =>
  inferInstanceAs (Decidable (words.toList <:+: line.toList))

/-! ### Texts with numbers -/

/-- Words that are not empty and have no digits. -/
def isPlain (words : String) : Bool :=
  !words.toList.isEmpty && words.toList.all fun c => (digitValue? 10 c).isNone

theorem isPlain_iff {words : String} :
    isPlain words = true ↔ words.toList ≠ [] ∧ ∀ c ∈ words.toList, digitValue? 10 c = none := by
  simp only [isPlain, Bool.and_eq_true, Bool.not_eq_true', List.isEmpty_eq_false_iff,
    List.all_eq_true, Option.isNone_iff_eq_none]

theorem digit_of_mem_number {n : Nat} {c : Char} (hc : c ∈ (toString n).toList) :
    ∃ d, digitValue? 10 c = some d := by
  rw [toList_toString] at hc
  obtain ⟨d, hd, rfl⟩ := digit_of_mem positional_decimal hc
  exact ⟨d, valueBelow_digit (by decide) hd⟩

theorem number_ne_nil (n : Nat) : (toString n).toList ≠ [] := by
  rw [toList_toString]
  exact write_ne_nil positional_decimal n

/-- What has no character in common with the middle of a list stands in front of it or behind. -/
theorem infix_around_iff {α : Type} {word front middle back : List α} (hword : word ≠ [])
    (hmiddle : middle ≠ []) (hapart : ∀ c ∈ middle, c ∉ word) :
    word <:+: front ++ (middle ++ back) ↔ word <:+: front ∨ word <:+: back := by
  constructor
  · intro h
    rcases List.infix_append_iff.mp h with hfront | hrest | ⟨before, after, rfl, hbefore, hafter⟩
    · exact .inl hfront
    · rcases List.infix_append_iff.mp hrest with hin | hback | ⟨before, after, rfl, hbefore, hafter⟩
      · obtain ⟨c, hc⟩ := List.exists_mem_of_ne_nil word hword
        exact absurd hc (hapart c (hin.subset hc))
      · exact .inr hback
      · cases before with
        | nil => exact .inr hafter.isInfix
        | cons c before =>
          exact absurd List.mem_cons_self (hapart c (hbefore.subset List.mem_cons_self))
    · cases after with
      | nil =>
        rw [List.append_nil]
        exact .inl hbefore.isInfix
      | cons c after =>
        obtain ⟨d, middle, rfl⟩ := List.exists_cons_of_ne_nil hmiddle
        cases (List.cons_prefix_cons.mp hafter).1
        exact absurd (List.mem_append_right _ List.mem_cons_self)
          (hapart c List.mem_cons_self)
  · rintro (hfront | hback)
    · exact List.infix_append_of_infix_left hfront
    · exact List.infix_append_of_infix_right (List.infix_append_of_infix_right hback)

/-- **Words without digits** stand in a text with numbers if they stand in one of its pieces. -/
theorem mentions_spell_iff {words : String} (hplain : isPlain words = true) {piece : String}
    {rest : List (Nat × String)} :
    Mentions words (spell piece rest) ↔ ∃ text ∈ piece :: rest.map (·.2), Mentions words text := by
  obtain ⟨hwords, hdigits⟩ := isPlain_iff.mp hplain
  induction rest generalizing piece with
  | nil => simp only [spell, List.map_nil, List.mem_singleton, exists_eq_left]
  | cons part rest ih =>
    obtain ⟨n, next⟩ := part
    have hapart : ∀ c ∈ (toString n).toList, c ∉ words.toList := by
      intro c hc hmem
      obtain ⟨d, hd⟩ := digit_of_mem_number hc
      cases (hdigits c hmem).symm.trans hd
    have haround : Mentions words (spell piece ((n, next) :: rest))
        ↔ Mentions words piece ∨ Mentions words (spell next rest) := by
      unfold Mentions
      rw [spell, String.toList_append, String.toList_append, List.append_assoc]
      exact infix_around_iff hwords (number_ne_nil n) hapart
    rw [haround, ih, List.map_cons, List.exists_mem_cons_iff (Mentions words) piece]

theorem exists_toList_spell (piece : String) (rest : List (Nat × String)) :
    ∃ more, (spell piece rest).toList = piece.toList ++ more := by
  cases rest with
  | nil => exact ⟨[], (List.append_nil _).symm⟩
  | cons part rest =>
    rw [spell, String.toList_append, String.toList_append, List.append_assoc]
    exact ⟨_, rfl⟩

theorem takeWhile_digits {n : Nat} {c : Char} {cs : List Char} (hc : digitValue? 10 c = none) :
    ((toString n).toList ++ c :: cs).takeWhile (fun c => (digitValue? 10 c).isSome)
      = (toString n).toList := by
  have hdigits : ∀ d ∈ (toString n).toList, (digitValue? 10 d).isSome = true := by
    intro d hd
    obtain ⟨k, hk⟩ := digit_of_mem_number hd
    rw [hk]
    rfl
  have hstop : ¬ (digitValue? 10 c).isSome = true := by
    rw [hc]
    exact Bool.false_ne_true
  rw [List.takeWhile_append_of_pos hdigits,
    List.takeWhile_cons_of_neg (p := fun c => (digitValue? 10 c).isSome) hstop, List.append_nil]

/-- **Texts that are the same** have the same numbers, where no digit follows a number. -/
theorem spell_inj {piece next : String} {m n : Nat} {rest rest' : List (Nat × String)} {c : Char}
    {cs : List Char} (hnext : next.toList = c :: cs) (hc : digitValue? 10 c = none)
    (heq : spell piece ((m, next) :: rest) = spell piece ((n, next) :: rest')) :
    m = n ∧ spell next rest = spell next rest' := by
  obtain ⟨more, hmore⟩ := exists_toList_spell next rest
  obtain ⟨more', hmore'⟩ := exists_toList_spell next rest'
  have htails : (toString m).toList ++ (spell next rest).toList
      = (toString n).toList ++ (spell next rest').toList := by
    have htexts := congrArg String.toList heq
    simp only [spell, String.toList_append, List.append_assoc] at htexts
    exact List.append_cancel_left htexts
  have hnumbers : (toString m).toList = (toString n).toList := by
    have htake := congrArg (List.takeWhile fun c => (digitValue? 10 c).isSome) htails
    rwa [hmore, hmore', hnext, List.cons_append, List.cons_append, takeWhile_digits hc,
      takeWhile_digits hc] at htake
  rw [hnumbers] at htails
  have hsame : some m = some n := by
    rw [← digits?_positional positional_decimal m, ← digits?_positional positional_decimal n,
      ← toList_toString, ← toList_toString, hnumbers]
  exact ⟨Option.some.inj hsame, String.toList_inj.mp (List.append_cancel_left htails)⟩

/-! ### Lines of events -/

theorem line_eq (event : Event) : event.line = event.level.label ++ " " ++ event.message := rfl

theorem trace_label : Level.trace.label = "TRACE" := by decide +kernel

theorem debug_label : Level.debug.label = "DEBUG" := by decide +kernel

theorem line_headerRead (h : Header) :
    (Event.headerRead h.address h.fields.idLength h.fields.tableWidth h.fields.startingBlockSize
      h.fields.maxDirectBlockSize).line = headerLine h := by
  rw [line_eq, Event.level, trace_label]
  unfold Event.message headerLine
  simp only [spell, toString, String.append_assoc, String.append_empty]
  rfl

theorem line_indirectBlockRead (b : IndirectBlock) :
    (Event.indirectBlockRead b.address b.offset b.rows b.children.length).line
      = indirectLine b := by
  rw [line_eq, Event.level, debug_label]
  unfold Event.message indirectLine
  simp only [spell, toString, String.append_assoc, String.append_empty]
  rfl

theorem line_directBlockRead (b : DirectBlock) :
    (Event.directBlockRead b.address b.offset b.size).line = directLine b := by
  rw [line_eq, Event.level, trace_label]
  unfold Event.message directLine
  simp only [spell, toString, String.append_assoc, String.append_empty]
  rfl

theorem line_heapLoaded (address blocks : Nat) :
    (Event.heapLoaded address blocks).line = loadedLine address blocks := by
  rw [line_eq, Event.level, debug_label]
  unfold Event.message loadedLine
  simp only [spell, toString, String.append_assoc]
  rfl

/-! ### Words by which lines are told apart -/

theorem plain_indirect : isPlain "Indirect block at" = true := by decide

theorem plain_direct : isPlain "direct block at" = true := by decide

theorem plain_loaded : isPlain "Read fractal heap" = true := by decide

theorem mentions_headerLine (h : Header) :
    ¬ Mentions "Indirect block at" (headerLine h) ∧ ¬ Mentions "direct block at" (headerLine h) ∧
      ¬ Mentions "Read fractal heap" (headerLine h) := by
  unfold headerLine
  simp only [mentions_spell_iff plain_indirect, mentions_spell_iff plain_direct,
    mentions_spell_iff plain_loaded, List.map_cons, List.map_nil]
  decide

theorem mentions_indirectLine (b : IndirectBlock) :
    Mentions "Indirect block at" (indirectLine b) ∧ Mentions "direct block at" (indirectLine b) ∧
      ¬ Mentions "Read fractal heap" (indirectLine b) := by
  unfold indirectLine
  simp only [mentions_spell_iff plain_indirect, mentions_spell_iff plain_direct,
    mentions_spell_iff plain_loaded, List.map_cons, List.map_nil]
  decide

theorem mentions_directLine (b : DirectBlock) :
    ¬ Mentions "Indirect block at" (directLine b) ∧ Mentions "direct block at" (directLine b) ∧
      ¬ Mentions "Read fractal heap" (directLine b) := by
  unfold directLine
  simp only [mentions_spell_iff plain_indirect, mentions_spell_iff plain_direct,
    mentions_spell_iff plain_loaded, List.map_cons, List.map_nil]
  decide

theorem mentions_loadedLine (address blocks : Nat) :
    ¬ Mentions "Indirect block at" (loadedLine address blocks) ∧
      ¬ Mentions "direct block at" (loadedLine address blocks) ∧
      Mentions "Read fractal heap" (loadedLine address blocks) := by
  unfold loadedLine
  simp only [mentions_spell_iff plain_indirect, mentions_spell_iff plain_direct,
    mentions_spell_iff plain_loaded, List.map_cons, List.map_nil]
  decide

/-- **The line of a direct block** tells its offset. -/
theorem offset_eq_of_directLine {b c : DirectBlock} (heq : directLine b = directLine c) :
    b.offset = c.offset := by
  obtain ⟨-, hrest⟩ := spell_inj (c := ':') rfl (by decide) heq
  exact (spell_inj (c := ' ') rfl (by decide) hrest).1

end DoublingHeap.Proofs.LogText
