import DoublingHeap.Command.Run
import DoublingHeap.Proofs.Digits

/-! # The text of a report

A report is one text (`reportText`): the failure after its mark, and under a heading what led to it.
A cause that is alone is indented by four places. Several causes have numbers in front of them, at
the end of five places, and their further lines are indented as far. The lines of a report are those
of its text (`lines_eq`). -/

namespace DoublingHeap.Proofs.ReportText

open DoublingHeap.Command DoublingHeap.Proofs.Digits

/-- A text whose lines after the first start with a margin. -/
def hanging (margin text : List Char) : List Char :=
  text.flatMap fun c => if c = '\n' then '\n' :: margin else [c]

/-- Blanks in so many places. -/
def blanks (places : Nat) : List Char := List.replicate places ' '

/-- The number of a cause, at the end of five places. -/
def numberText (n : Nat) : List Char :=
  blanks (5 - (toString n).length) ++ (toString n).toList ++ [':', ' ']

/-- Causes with their numbers, from `n` on, each in lines of its own. -/
def numberedText : Nat → List String → List Char
  | _, [] => []
  | n, cause :: rest =>
    '\n' :: numberText n ++ hanging (blanks 7) cause.toList ++ numberedText (n + 1) rest

/-- The heading of what led to a failure. -/
def heading : List Char := "\n\nCaused by:".toList

/-- What led to a failure, under its heading. -/
def causesText : List String → List Char
  | [] => []
  | [cause] => heading ++ ('\n' :: blanks 4 ++ hanging (blanks 4) cause.toList)
  | several => heading ++ numberedText 0 several

/-- The report on a failure. -/
def reportText (failure : Failure) : List Char :=
  "Error: ".toList ++ failure.text.toList ++ causesText failure.chain

/-! ### Lines -/

theorem splitOn_append_of_not_mem {front : List Char} (hfront : '\n' ∉ front) (text : List Char) :
    (front ++ text).splitOn '\n' = (text.splitOn '\n').modifyHead (front ++ ·) := by
  induction front with
  | nil =>
    rw [List.nil_append]
    cases text.splitOn '\n' <;> rfl
  | cons c front ih =>
    have hc : ¬ (c == '\n') = true := by
      rw [beq_iff_eq]
      rintro rfl
      exact hfront List.mem_cons_self
    rw [List.cons_append, List.splitOn_cons_eq_if_modifyHead, if_neg hc,
      ih fun hmem => hfront (List.mem_cons_of_mem _ hmem), List.modifyHead_modifyHead]
    rfl

theorem splitOn_hanging {margin : List Char} (hmargin : '\n' ∉ margin) (text : List Char) :
    (hanging margin text).splitOn '\n' = match text.splitOn '\n' with
      | [] => []
      | line :: rest => line :: rest.map (margin ++ ·) := by
  induction text with
  | nil => rfl
  | cons c text ih =>
    rw [hanging, List.flatMap_cons, List.splitOn_cons_eq_if_modifyHead]
    obtain ⟨line, rest, hsplit⟩ :=
      List.exists_cons_of_ne_nil (List.splitOn_ne_nil '\n' text)
    rw [hsplit] at ih ⊢
    by_cases hc : c = '\n'
    · rw [if_pos hc, if_pos (beq_iff_eq.mpr hc), List.cons_append,
        List.splitOn_cons_eq_if_modifyHead, if_pos (beq_self_eq_true _),
        splitOn_append_of_not_mem hmargin]
      show [] :: (List.splitOn '\n' (hanging margin text)).modifyHead _ = _
      rw [ih]
      rfl
    · rw [if_neg hc, if_neg (fun h => hc (beq_iff_eq.mp h)), List.singleton_append,
        List.splitOn_cons_eq_if_modifyHead, if_neg (fun h => hc (beq_iff_eq.mp h))]
      show (List.splitOn '\n' (hanging margin text)).modifyHead _ = _
      rw [ih]
      rfl

/-- **The lines of a text**, the first after `first` and the others after `other`. -/
theorem indented_eq {first other : String} (hfirst : '\n' ∉ first.toList)
    (hother : '\n' ∉ other.toList) (text : String) :
    (Report.indented first other text).map String.toList
      = (first.toList ++ hanging other.toList text.toList).splitOn '\n' := by
  rw [splitOn_append_of_not_mem hfirst, splitOn_hanging hother, Report.indented]
  cases text.toList.splitOn '\n' with
  | nil => rfl
  | cons line rest =>
    simp only [List.map_cons, List.map_map, List.modifyHead_cons, String.toList_append,
      String.toList_ofList, Function.comp_def]

theorem not_mem_numberText (n : Nat) : '\n' ∉ numberText n := by
  unfold numberText blanks
  simp only [List.mem_append, not_or, toList_toString]
  exact ⟨⟨fun h => absurd (List.eq_of_mem_replicate h) (by decide),
    not_mem_write positional_decimal n⟩, by decide⟩

theorem toList_marker (n : Nat) : (Report.marker n).toList = numberText n := by
  unfold Report.marker numberText blanks
  rw [String.toList_append, String.toList_ofList, List.leftpad, String.length_toList]
  rfl

theorem splitOn_numberedText (several : List String) (n : Nat) (text : List Char) :
    (text ++ numberedText n several).splitOn '\n'
      = text.splitOn '\n' ++ (Report.numbered n several).map String.toList := by
  induction several generalizing n text with
  | nil => rw [numberedText, Report.numbered, List.map_nil, List.append_nil, List.append_nil]
  | cons cause rest ih =>
    have hmarker : '\n' ∉ (Report.marker n).toList := by
      rw [toList_marker]
      exact not_mem_numberText n
    have hcause : (Report.indented (Report.marker n) "       " cause).map String.toList
        = (numberText n ++ hanging (blanks 7) cause.toList).splitOn '\n' := by
      rw [← toList_marker]
      exact indented_eq hmarker (by decide) cause
    rw [numberedText, Report.numbered, List.map_append, List.cons_append, List.cons_append,
      List.splitOn_append_cons_self, ih, hcause]

theorem splitOn_heading (text more : List Char) :
    (text ++ (heading ++ more)).splitOn '\n'
      = text.splitOn '\n' ++ [] :: ("Caused by:".toList ++ more).splitOn '\n' := by
  have hheading : heading = '\n' :: '\n' :: "Caused by:".toList := by decide
  rw [hheading, List.cons_append, List.cons_append, List.splitOn_append_cons_self,
    List.splitOn_cons_eq_if_modifyHead, if_pos (beq_self_eq_true _)]

theorem splitOn_causesText (chain : List String) (text : List Char) :
    (text ++ causesText chain).splitOn '\n'
      = text.splitOn '\n' ++ (Report.causes chain).map String.toList := by
  have hcaused : ("Caused by:".toList).splitOn '\n' = ["Caused by:".toList] :=
    List.splitOn_eq_singleton (by decide)
  match chain with
  | [] =>
    show (text ++ []).splitOn '\n' = text.splitOn '\n' ++ []
    rw [List.append_nil, List.append_nil]
  | [cause] =>
    have hcause : (Report.indented "    " "    " cause).map String.toList = _ :=
      indented_eq (by decide) (by decide) cause
    show (text ++ (heading ++ ('\n' :: blanks 4 ++ hanging (blanks 4) cause.toList))).splitOn '\n'
      = _ ++ (["", "Caused by:"] ++ Report.indented "    " "    " cause).map String.toList
    rw [splitOn_heading, List.cons_append, List.splitOn_append_cons_self, hcaused, List.map_append,
      hcause]
    rfl
  | first :: second :: rest =>
    show (text ++ (heading ++ numberedText 0 (first :: second :: rest))).splitOn '\n'
      = _ ++ (["", "Caused by:"] ++ Report.numbered 0 (first :: second :: rest)).map String.toList
    rw [splitOn_heading, splitOn_numberedText, hcaused, List.map_append]
    rfl

theorem hanging_nil (text : List Char) : hanging [] text = text := by
  have hchar : (fun c => if c = '\n' then '\n' :: [] else [c]) = fun c : Char => [c] := by
    funext c
    split
    · rename_i hc
      rw [hc]
    · rfl
  rw [hanging, hchar, List.flatMap_singleton']

/-- **The lines of a report** are those of its text. -/
theorem lines_eq (failure : Failure) :
    Report.lines failure.text failure.chain
      = ((reportText failure).splitOn '\n').map String.ofList := by
  have hfirst : (Report.indented "Error: " "" failure.text).map String.toList
      = ("Error: ".toList ++ failure.text.toList).splitOn '\n' := by
    rw [indented_eq (by decide) (by decide), String.toList_empty, hanging_nil]
  have hlines : (reportText failure).splitOn '\n'
      = (Report.lines failure.text failure.chain).map String.toList := by
    show ("Error: ".toList ++ failure.text.toList ++ causesText failure.chain).splitOn '\n' = _
    rw [splitOn_causesText, ← hfirst]
    exact List.map_append.symm
  rw [hlines, List.map_map]
  have hid : String.ofList ∘ String.toList = id := funext fun _ => String.ofList_toList
  rw [hid, List.map_id]

end DoublingHeap.Proofs.ReportText
