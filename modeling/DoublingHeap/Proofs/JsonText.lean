import Mathlib.Data.List.Basic
import DoublingHeap.Json
import DoublingHeap.Proofs.Digits

/-! # Reading JSON text

Lines of JSON text are read in two steps. A line is a run of tokens with blanks between them
(`lex`); the lexer goes through it character by character and is at each place in a `State`. The
tokens of the lines together are those of a value (`tokens`): lines *spell* a value (`Spells`) if
that is so.

`spells_lines` says that the lines of a value spell it, and `Spells.unique` that they spell nothing
else: the tokens of values are self-delimiting (`delimited_tokens`), so no two values have the same.
-/

namespace DoublingHeap.Proofs.JsonText

open DoublingHeap.Bytes DoublingHeap.Text.Numeral DoublingHeap.Proofs.Digits

/-! ### Tokens of a line -/

/-- The tokens of JSON text. -/
inductive Token where
  | openArray
  | closeArray
  | openObject
  | closeObject
  | comma
  | colon
  | flag (b : Bool)
  | number (n : Nat)
  | text (cs : List Char)
deriving DecidableEq, Repr

/-- Where in a line the lexer is. Characters that are kept stand in reverse order. -/
inductive State where
  | between
  /-- Inside a word. -/
  | word (letters : List Char)
  /-- Inside a number. -/
  | number (n : Nat)
  /-- Inside quotes. -/
  | text (cs : List Char)
  /-- Behind a backslash. -/
  | escape (cs : List Char)
  /-- Inside the number of a character, with some digits left. -/
  | code (cs : List Char) (left n : Nat)
deriving DecidableEq, Repr

/-- The token of a character that stands for itself. -/
def punctuation? : Char → Option Token
  | '[' => some .openArray
  | ']' => some .closeArray
  | '\x7b' => some .openObject
  | '\x7d' => some .closeObject
  | ',' => some .comma
  | ':' => some .colon
  | _ => none

/-- The token of a word, from its letters in reverse order. -/
def word? : List Char → Option Token
  | ['e', 'u', 'r', 't'] => some (.flag true)
  | ['e', 's', 'l', 'a', 'f'] => some (.flag false)
  | _ => none

/-- The character that a letter behind a backslash stands for. -/
def escaped? : Char → Option Char
  | '"' => some '"'
  | '\\' => some '\\'
  | '/' => some '/'
  | 'b' => some '\x08'
  | 'f' => some '\x0c'
  | 'n' => some '\n'
  | 'r' => some '\r'
  | 't' => some '\t'
  | _ => none

/-- Whether a character is a lower-case letter. -/
def isLetter (c : Char) : Bool := 'a' ≤ c && c ≤ 'z'

/-- Takes in a character between tokens. -/
def start (c : Char) : Option (State × List Token) :=
  if c = ' ' ∨ c = '\t' ∨ c = '\r' then some (.between, [])
  else if c = '"' then some (.text [], [])
  else if isLetter c then some (.word [c], [])
  else match digitValue? 10 c with
    | some d => some (.number d, [])
    | none => (punctuation? c).map fun token => (.between, [token])

/-- The tokens that end where the lexer is. -/
def finish : State → Option (List Token)
  | .between => some []
  | .number n => some [.number n]
  | .word letters => (word? letters).map ([·])
  | .text _ | .escape _ | .code .. => none

/-- Takes in a character behind tokens that end here. -/
def startAfter (s : State) (c : Char) : Option (State × List Token) := do
  let ended ← finish s
  let (s, ts) ← start c
  return (s, ended ++ ts)

/-- Takes in a character: where the lexer is then, and the tokens that are complete. -/
def step : State → Char → Option (State × List Token)
  | .between, c => start c
  | .word letters, c =>
    if isLetter c then some (.word (c :: letters), []) else startAfter (.word letters) c
  | .number n, c =>
    match digitValue? 10 c with
    | some d => some (.number (n * 10 + d), [])
    | none => startAfter (.number n) c
  | .text cs, c =>
    if c = '"' then some (.between, [.text cs.reverse])
    else if c = '\\' then some (.escape cs, [])
    else if c.toNat < 0x20 then none
    else some (.text (c :: cs), [])
  | .escape cs, c =>
    if c = 'u' then some (.code cs 3 0, [])
    else (escaped? c).map fun d => (.text (d :: cs), [])
  | .code cs left n, c =>
    match digitValue? 16 c with
    | none => none
    | some d =>
      match left with
      | left + 1 => some (.code cs left (n * 16 + d), [])
      | 0 =>
        if (n * 16 + d).isValidChar then some (.text (Char.ofNat (n * 16 + d) :: cs), []) else none

/-- Takes in characters. -/
def run : State → List Char → Option (State × List Token)
  | s, [] => some (s, [])
  | s, c :: cs => do
    let (s, ts) ← step s c
    let (s, more) ← run s cs
    return (s, ts ++ more)

/-- The tokens of a line. -/
def lex (line : String) : Option (List Token) := do
  let (s, ts) ← run .between line.toList
  let ended ← finish s
  return ts ++ ended

/-- The tokens of lines. -/
def lexAll : List String → Option (List Token)
  | [] => some []
  | line :: rest => do
    let ts ← lex line
    let more ← lexAll rest
    return ts ++ more

/-! ### Runs of the lexer -/

section Runs

variable {s s' s'' : State} {ts ts' : List Token} {cs ds : List Char}

theorem run_cons {c : Char} (hstep : step s c = some (s', ts))
    (hrun : run s' cs = some (s'', ts')) : run s (c :: cs) = some (s'', ts ++ ts') := by
  rw [run, hstep]
  simp only [Option.bind_eq_bind, Option.bind_some, hrun]
  rfl

theorem run_singleton {c : Char} (hstep : step s c = some (s', ts)) :
    run s [c] = some (s', ts) := by
  have hrun := run_cons hstep (rfl : run s' [] = some (s', []))
  rwa [List.append_nil] at hrun

theorem run_append (hcs : run s cs = some (s', ts)) (hds : run s' ds = some (s'', ts')) :
    run s (cs ++ ds) = some (s'', ts ++ ts') := by
  induction cs generalizing s ts with
  | nil =>
    cases hcs
    exact hds
  | cons c cs ih =>
    rw [run] at hcs
    obtain ⟨⟨s₁, ts₁⟩, hstep, hrest⟩ := Option.bind_eq_some_iff.mp hcs
    obtain ⟨⟨s₂, ts₂⟩, hrun, heq⟩ := Option.bind_eq_some_iff.mp hrest
    cases heq
    rw [List.cons_append, List.append_assoc]
    exact run_cons hstep (ih hrun)

theorem lex_eq_some {line : String} (hrun : run .between line.toList = some (s, ts))
    (hfinish : finish s = some ts') : lex line = some (ts ++ ts') := by
  unfold lex
  rw [hrun]
  simp only [Option.bind_eq_bind, Option.bind_some, hfinish]
  rfl

theorem lex_append {front line : String} (hfront : run .between front.toList = some (.between, ts))
    (hline : lex line = some ts') : lex (front ++ line) = some (ts ++ ts') := by
  unfold lex at hline
  obtain ⟨⟨s, ts₁⟩, hrun, hrest⟩ := Option.bind_eq_some_iff.mp hline
  obtain ⟨ended, hfinish, heq⟩ := Option.bind_eq_some_iff.mp hrest
  cases heq
  have happend : run .between (front ++ line).toList = some (s, ts ++ ts₁) := by
    rw [String.toList_append]
    exact run_append hfront hrun
  rw [lex_eq_some happend hfinish, List.append_assoc]

theorem step_comma (hfinish : finish s = some ts) :
    step s ',' = some (.between, ts ++ [.comma]) := by
  cases s with
  | between =>
    cases hfinish
    rfl
  | word letters =>
    have hstart : startAfter (.word letters) ',' = some (.between, ts ++ [.comma]) := by
      unfold startAfter
      rw [hfinish]
      rfl
    exact hstart
  | number n =>
    cases hfinish
    rfl
  | text | escape | code => cases hfinish

theorem lex_comma {line : String} (hline : lex line = some ts) :
    lex (line ++ ",") = some (ts ++ [.comma]) := by
  unfold lex at hline
  obtain ⟨⟨s, ts₁⟩, hrun, hrest⟩ := Option.bind_eq_some_iff.mp hline
  obtain ⟨ended, hfinish, heq⟩ := Option.bind_eq_some_iff.mp hrest
  cases heq
  have happend : run .between (line ++ ",").toList
      = some (.between, ts₁ ++ (ended ++ [.comma])) := by
    rw [String.toList_append]
    exact run_append hrun (run_singleton (step_comma hfinish))
  rw [lex_eq_some happend rfl, List.append_nil, List.append_assoc]

theorem not_mem_of_run (hrun : run s cs = some (s', ts)) : '\n' ∉ cs := by
  induction cs generalizing s s' ts with
  | nil => exact List.not_mem_nil
  | cons c cs ih =>
    rw [run] at hrun
    obtain ⟨⟨s₁, ts₁⟩, hstep, hrest⟩ := Option.bind_eq_some_iff.mp hrun
    obtain ⟨⟨s₂, ts₂⟩, hrun, -⟩ := Option.bind_eq_some_iff.mp hrest
    rw [List.mem_cons, not_or]
    refine ⟨?_, ih hrun⟩
    rintro rfl
    have hnone : step s '\n' = none := by
      cases s with
      | between | text | escape | code => rfl
      | number n => rfl
      | word letters =>
        show startAfter (.word letters) '\n' = none
        unfold startAfter
        cases finish (.word letters) <;> rfl
    cases hnone.symm.trans hstep

/-! ### Tokens as they are written -/

theorem run_number {n k : Nat} (hread : continueDigits? 10 cs k = some n) :
    run (.number k) cs = some (.number n, []) := by
  induction cs generalizing k with
  | nil =>
    cases hread
    rfl
  | cons c cs ih =>
    rw [continueDigits?] at hread
    obtain ⟨d, hd, hrest⟩ := Option.bind_eq_some_iff.mp hread
    have hstep : step (.number k) c = some (.number (k * 10 + d), []) := by
      unfold step
      simp only [hd]
    exact run_cons hstep (ih hrest)

theorem step_digit {d : Nat} (hd : d < 10) :
    step .between (Hex.digit d) = some (.number d, []) := by
  have hall : ∀ d : Fin 10, step .between (Hex.digit d) = some (.number d.val, []) := by decide
  exact hall ⟨d, hd⟩

theorem lex_number (n : Nat) : lex (toString n) = some [.number n] := by
  have hrun : run .between (toString n).toList = some (.number n, []) := by
    have hwrite : (toString n).toList = Nat.toDigits 10 n := Nat.toList_repr
    have hread := continueDigits?_positional positional_decimal n
    rw [hwrite]
    cases hdigits : Nat.toDigits 10 n with
    | nil => exact absurd hdigits (write_ne_nil positional_decimal n)
    | cons c cs =>
      obtain ⟨d, hd, rfl⟩ := digit_of_mem positional_decimal (n := n) (c := c) (by
        rw [hdigits]
        exact List.mem_cons_self ..)
      rw [hdigits, continueDigits?, valueBelow_digit (by decide) hd] at hread
      refine run_cons (step_digit hd) (run_number ?_)
      simpa using hread
  exact lex_eq_some hrun rfl

theorem step_code {c : Char} {left n d : Nat} (hd : digitValue? 16 c = some d) :
    step (.code cs (left + 1) n) c = some (.code cs left (n * 16 + d), []) := by
  unfold step
  simp only [hd]

theorem step_code_last {c c' : Char} {n d : Nat} (hd : digitValue? 16 c = some d)
    (hc : n * 16 + d = c'.toNat) : step (.code cs 0 n) c = some (.text (c' :: cs), []) := by
  have hvalid : c'.toNat.isValidChar := c'.valid
  unfold step
  simp only [hd, hc, if_pos hvalid, Char.ofNat_toNat]

theorem run_code {c : Char} (hc : c.toNat < 0x20) :
    run (.text cs) (['\\', 'u', '0', '0'] ++ Hex.ofByte (UInt8.ofNat c.toNat))
      = some (.text (c :: cs), []) := by
  have hbyte : (UInt8.ofNat c.toNat).toNat = c.toNat := by
    rw [UInt8.toNat_ofNat']
    omega
  have hzero : digitValue? 16 '0' = some 0 := by decide
  have hhigh := valueBelow_digit (Nat.le_refl 16) (d := c.toNat / 16) (by omega)
  have hlow := valueBelow_digit (Nat.le_refl 16) (d := c.toNat % 16) (by omega)
  have hmark : run (.text cs) ['\\', 'u'] = some (.code cs 3 0, []) := rfl
  have hzeros : run (.code cs 3 0) ['0', '0'] = some (.code cs 1 0, []) :=
    run_cons (step_code hzero) (run_singleton (step_code hzero))
  have hdigits : run (.code cs 1 0) [Hex.digit (c.toNat / 16), Hex.digit (c.toNat % 16)]
      = some (.text (c :: cs), []) :=
    run_cons (step_code hhigh) (run_singleton (step_code_last hlow (by omega)))
  unfold Hex.ofByte
  rw [hbyte]
  exact run_append (run_append hmark hzeros) hdigits

/-- **A character inside quotes** is read back. -/
theorem run_escape (cs : List Char) (c : Char) :
    run (.text cs) (Json.escape c) = some (.text (c :: cs), []) := by
  unfold Json.escape
  by_cases hquote : c = '"'
  · subst hquote
    rfl
  by_cases hbackslash : c = '\\'
  · subst hbackslash
    rfl
  by_cases hfeed : c = '\n'
  · subst hfeed
    rfl
  by_cases hreturn : c = '\r'
  · subst hreturn
    rfl
  by_cases htab : c = '\t'
  · subst htab
    rfl
  rw [if_neg hquote, if_neg hbackslash, if_neg hfeed, if_neg hreturn, if_neg htab]
  by_cases hback : c.toNat = 0x08
  · obtain rfl : c = '\x08' := Char.toNat_inj.mp hback
    rfl
  by_cases hform : c.toNat = 0x0c
  · obtain rfl : c = '\x0c' := Char.toNat_inj.mp hform
    rfl
  rw [if_neg hback, if_neg hform]
  split
  · rename_i hlow
    exact run_code hlow
  · rename_i hplain
    refine run_singleton ?_
    unfold step
    simp only [if_neg hquote, if_neg hbackslash, if_neg hplain]

theorem run_escapes (cs text : List Char) :
    run (.text cs) (text.flatMap Json.escape) = some (.text (text.reverse ++ cs), []) := by
  induction text generalizing cs with
  | nil => rfl
  | cons c text ih =>
    rw [List.flatMap_cons, List.reverse_cons, List.append_assoc]
    exact run_append (run_escape cs c) (ih (c :: cs))

theorem run_quote (s : String) :
    run .between (Json.quote s).toList = some (.between, [.text s.toList]) := by
  unfold Json.quote
  rw [String.toList_ofList]
  have hopen : run .between ['"'] = some (.text [], []) := rfl
  have hinside := run_append hopen (run_escapes [] s.toList)
  rw [List.append_nil] at hinside
  have hclose : run (.text s.toList.reverse) ['"'] = some (.between, [.text s.toList]) := by
    refine run_singleton ?_
    show some (State.between, [Token.text s.toList.reverse.reverse]) = _
    rw [List.reverse_reverse]
  exact run_append hinside hclose

theorem lex_quote (s : String) : lex (Json.quote s) = some [.text s.toList] :=
  lex_eq_some (run_quote s) rfl

theorem lex_flag (b : Bool) : lex (if b then "true" else "false") = some [.flag b] := by
  cases b <;> decide

end Runs

/-! ### Tokens of a value -/

/-- Groups of tokens with a comma between each two. -/
def separated : List (List Token) → List Token
  | [] => []
  | [group] => group
  | group :: next :: rest => group ++ .comma :: separated (next :: rest)

mutual

/-- The tokens of a value. -/
def tokens : Json → List Token
  | .flag b => [.flag b]
  | .number n => [.number n]
  | .text s => [.text s.toList]
  | .array items => .openArray :: (separated (itemTokens items) ++ [.closeArray])
  | .object members => .openObject :: (separated (memberTokens members) ++ [.closeObject])

/-- The tokens of each item. -/
def itemTokens : List Json → List (List Token)
  | [] => []
  | item :: rest => tokens item :: itemTokens rest

/-- The tokens of each member: the key, a colon, and the value. -/
def memberTokens : List (String × Json) → List (List Token)
  | [] => []
  | (key, value) :: rest => (.text key.toList :: .colon :: tokens value) :: memberTokens rest

end

/-- **Lines spell a value** if its tokens are theirs. -/
def Spells (lines : List String) (value : Json) : Prop := lexAll lines = some (tokens value)

/-- Lines that have tokens. There is at least one line. -/
structure HasTokens (lines : List String) (ts : List Token) : Prop where
  ne_nil : lines ≠ []
  lexAll_eq : lexAll lines = some ts

section Lines

variable {xs ys : List String} {ts us : List Token} {line : String}

theorem lexAll_cons (hline : lex line = some ts) (hrest : lexAll xs = some us) :
    lexAll (line :: xs) = some (ts ++ us) := by
  rw [lexAll, hline, hrest]
  rfl

theorem lexAll_cons_eq_some (h : lexAll (line :: xs) = some us) :
    ∃ ts more, lex line = some ts ∧ lexAll xs = some more ∧ us = ts ++ more := by
  rw [lexAll] at h
  obtain ⟨ts, hline, hrest⟩ := Option.bind_eq_some_iff.mp h
  obtain ⟨more, hmore, heq⟩ := Option.bind_eq_some_iff.mp hrest
  cases heq
  exact ⟨ts, more, hline, hmore, rfl⟩

theorem lexAll_append (hxs : lexAll xs = some ts) (hys : lexAll ys = some us) :
    lexAll (xs ++ ys) = some (ts ++ us) := by
  induction xs generalizing ts with
  | nil =>
    cases hxs
    exact hys
  | cons line xs ih =>
    obtain ⟨ts₁, ts₂, hline, hrest, rfl⟩ := lexAll_cons_eq_some hxs
    rw [List.cons_append, List.append_assoc]
    exact lexAll_cons hline (ih hrest)

theorem lexAll_singleton (hline : lex line = some ts) : lexAll [line] = some ts := by
  have h := lexAll_cons hline (rfl : lexAll [] = some [])
  rwa [List.append_nil] at h

theorem lexAll_indent (hxs : lexAll xs = some ts) : lexAll (xs.map ("  " ++ ·)) = some ts := by
  induction xs generalizing ts with
  | nil => exact hxs
  | cons line xs ih =>
    obtain ⟨ts₁, ts₂, hline, hrest, rfl⟩ := lexAll_cons_eq_some hxs
    have hblank : run .between "  ".toList = some (.between, []) := by decide
    exact lexAll_cons (lex_append hblank hline) (ih hrest)

theorem HasTokens.comma (h : HasTokens xs ts) :
    lexAll (xs.dropLast ++ (xs.getLast?.map (· ++ ",")).toList) = some (ts ++ [.comma]) := by
  obtain ⟨hne, hlex⟩ := h
  induction xs generalizing ts with
  | nil => exact absurd rfl hne
  | cons line xs ih =>
    obtain ⟨ts₁, ts₂, hline, hrest, rfl⟩ := lexAll_cons_eq_some hlex
    cases xs with
    | nil =>
      cases hrest
      rw [List.append_nil]
      exact lexAll_singleton (lex_comma hline)
    | cons next xs =>
      rw [List.dropLast_cons_cons, List.getLast?_cons_cons, List.cons_append, List.append_assoc]
      exact lexAll_cons hline (ih (List.cons_ne_nil _ _) hrest)

theorem separated_concat (before : List (List Token)) (last : List Token) :
    separated (before ++ [last]) = (before.map (· ++ [.comma])).flatten ++ last := by
  induction before with
  | nil => rfl
  | cons group rest ih =>
    rw [List.map_cons, List.flatten_cons, List.append_assoc, ← ih]
    cases rest with
    | nil => rw [List.nil_append, List.append_assoc]; rfl
    | cons next rest => rw [List.append_assoc]; rfl

variable {α : Type} {write : α → List String} {group : α → List Token}

theorem lexAll_commas {before : List α} (h : ∀ a ∈ before, HasTokens (write a) (group a)) :
    lexAll (before.map fun a =>
        (write a).dropLast ++ ((write a).getLast?.map (· ++ ",")).toList).flatten
      = some (before.map fun a => group a ++ [.comma]).flatten := by
  induction before with
  | nil => rfl
  | cons a rest ih =>
    obtain ⟨ha, hrest⟩ := List.forall_mem_cons.mp h
    exact lexAll_append ha.comma (ih hrest)

/-- **Lines between brackets** have the tokens of the brackets and, with commas between them, those
of the groups of lines. -/
theorem lexAll_bracketed {opening closing : String} {first final : Token}
    (hopen : lex opening = some [first]) (hclose : lex closing = some [final])
    (hboth : lex (opening ++ closing) = some [first, final]) {as : List α}
    (h : ∀ a ∈ as, HasTokens (write a) (group a)) :
    lexAll (Json.bracketed opening closing (as.map write))
      = some (first :: (separated (as.map group) ++ [final])) := by
  rcases List.eq_nil_or_concat as with rfl | ⟨before, last, rfl⟩
  · exact lexAll_singleton hboth
  · rw [List.concat_eq_append] at h ⊢
    have hbefore := lexAll_commas fun a ha => h a (List.mem_append_left _ ha)
    have hlast := (h last (List.mem_append_right _ (List.mem_singleton.mpr rfl))).lexAll_eq
    have hinner := lexAll_indent (lexAll_append hbefore hlast)
    have hlines := lexAll_cons hopen (lexAll_append hinner (lexAll_singleton hclose))
    have hgroups : separated ((before ++ [last]).map group)
        = (before.map fun a => group a ++ [.comma]).flatten ++ group last := by
      rw [List.map_append, List.map_singleton, separated_concat, List.map_map]
      rfl
    have hbracketed : Json.bracketed opening closing ((before ++ [last]).map write)
        = opening :: (((before.map fun a =>
            (write a).dropLast ++ ((write a).getLast?.map (· ++ ",")).toList).flatten
              ++ write last).map ("  " ++ ·) ++ [closing]) := by
      unfold Json.bracketed
      rw [List.map_append, List.map_singleton, List.reverse_append, List.reverse_singleton,
        List.singleton_append]
      simp only [List.reverse_reverse, List.map_map, List.flatten_append, List.flatten_singleton]
      rfl
    rw [hgroups, hbracketed]
    exact hlines

/-! ### Lines of a value -/

theorem itemLines_eq_map (items : List Json) : Json.itemLines items = items.map Json.lines := by
  induction items with
  | nil => rfl
  | cons item rest ih => rw [Json.itemLines, ih, List.map_cons]

theorem itemTokens_eq_map (items : List Json) : itemTokens items = items.map tokens := by
  induction items with
  | nil => rfl
  | cons item rest ih => rw [itemTokens, ih, List.map_cons]

/-- The lines of a member. -/
def linesOfMember (member : String × Json) : List String :=
  match member.2.lines with
  | [] => []
  | first :: more => (Json.quote member.1 ++ ": " ++ first) :: more

/-- The tokens of a member. -/
def tokensOfMember (member : String × Json) : List Token :=
  .text member.1.toList :: .colon :: tokens member.2

theorem memberLines_eq_map (members : List (String × Json)) :
    Json.memberLines members = members.map linesOfMember := by
  induction members with
  | nil => rfl
  | cons member rest ih =>
    rw [Json.memberLines, ih, List.map_cons]
    rfl

theorem memberTokens_eq_map (members : List (String × Json)) :
    memberTokens members = members.map tokensOfMember := by
  induction members with
  | nil => rfl
  | cons member rest ih =>
    rw [memberTokens, ih, List.map_cons]
    rfl

theorem bracketed_ne_nil (opening closing : String) (inner : List (List String)) :
    Json.bracketed opening closing inner ≠ [] := by
  unfold Json.bracketed
  split
  · exact List.cons_ne_nil _ _
  · exact List.cons_ne_nil _ _

theorem HasTokens.member {key : String} {value : Json}
    (h : HasTokens value.lines (tokens value)) :
    HasTokens (linesOfMember (key, value)) (tokensOfMember (key, value)) := by
  obtain ⟨hne, hlex⟩ := h
  unfold linesOfMember tokensOfMember
  cases hlines : value.lines with
  | nil => exact absurd hlines hne
  | cons first more =>
    rw [hlines] at hlex
    obtain ⟨ts, us, hfirst, hmore, heq⟩ := lexAll_cons_eq_some hlex
    have hcolon : run .between ": ".toList = some (.between, [.colon]) := by decide
    have hfront : run .between (Json.quote key ++ ": ").toList
        = some (.between, [.text key.toList, .colon]) := by
      rw [String.toList_append]
      exact run_append (run_quote key) hcolon
    refine ⟨List.cons_ne_nil _ _, ?_⟩
    simp only [heq]
    exact lexAll_cons (lex_append hfront hfirst) hmore

mutual

/-- **The lines of a value** have its tokens. -/
theorem hasTokens_lines : ∀ value : Json, HasTokens value.lines (tokens value)
  | .flag b => ⟨List.cons_ne_nil _ _, lexAll_singleton (lex_flag b)⟩
  | .number n => ⟨List.cons_ne_nil _ _, lexAll_singleton (lex_number n)⟩
  | .text s => ⟨List.cons_ne_nil _ _, lexAll_singleton (lex_quote s)⟩
  | .array items => by
    refine ⟨bracketed_ne_nil _ _ _, ?_⟩
    rw [Json.lines, tokens, itemLines_eq_map, itemTokens_eq_map]
    exact lexAll_bracketed (by decide) (by decide) (by decide) (hasTokens_items items)
  | .object members => by
    refine ⟨bracketed_ne_nil _ _ _, ?_⟩
    rw [Json.lines, tokens, memberLines_eq_map, memberTokens_eq_map]
    exact lexAll_bracketed (by decide) (by decide) (by decide) (hasTokens_members members)

theorem hasTokens_items : ∀ items : List Json, ∀ item ∈ items, HasTokens item.lines (tokens item)
  | [] => nofun
  | first :: rest => List.forall_mem_cons.mpr ⟨hasTokens_lines first, hasTokens_items rest⟩

theorem hasTokens_members : ∀ members : List (String × Json), ∀ member ∈ members,
    HasTokens (linesOfMember member) (tokensOfMember member)
  | [] => nofun
  | (_, value) :: rest =>
    List.forall_mem_cons.mpr ⟨(hasTokens_lines value).member, hasTokens_members rest⟩

end

theorem spells_lines (value : Json) : Spells value.lines value := (hasTokens_lines value).lexAll_eq

end Lines

/-! ### One value at most -/

section Delimited

variable {α : Type} {write : α → List Token}

/-- **Tokens that delimit themselves**: nothing else has tokens that start with them, whatever
follows. -/
def Delimited (write : α → List Token) (a : α) : Prop :=
  ∀ b r r', write a ++ r = write b ++ r' → a = b ∧ r = r'

theorem separated_cons (first : List Token) (rest : List (List Token)) :
    separated (first :: rest)
      = first ++ (match rest with
        | [] => []
        | next :: rest => .comma :: separated (next :: rest)) := by
  cases rest with
  | nil => rw [List.append_nil]; rfl
  | cons next rest => rfl

/-- Groups that delimit themselves, up to a token that none of them starts with. -/
theorem separated_inj {close : Token} (hcomma : close ≠ .comma)
    (hhead : ∀ a, ∃ t ts, write a = t :: ts ∧ t ≠ close) {as : List α}
    (has : ∀ a ∈ as, Delimited write a) {bs : List α} {r r' : List Token}
    (h : separated (as.map write) ++ close :: r = separated (bs.map write) ++ close :: r') :
    as = bs ∧ r = r' := by
  induction as generalizing bs with
  | nil =>
    cases bs with
    | nil => exact ⟨rfl, (List.cons.inj h).2⟩
    | cons b bs =>
      obtain ⟨t, ts, hb, hne⟩ := hhead b
      rw [List.map_cons, separated_cons, hb] at h
      exact absurd (List.cons.inj h).1.symm hne
  | cons a as ih =>
    obtain ⟨ha, has⟩ := List.forall_mem_cons.mp has
    cases bs with
    | nil =>
      obtain ⟨t, ts, ha, hne⟩ := hhead a
      rw [List.map_cons, separated_cons, ha] at h
      exact absurd (List.cons.inj h).1 hne
    | cons b bs =>
      rw [List.map_cons, List.map_cons, separated_cons, separated_cons, List.append_assoc,
        List.append_assoc] at h
      obtain ⟨rfl, hrest⟩ := ha b _ _ h
      cases as with
      | nil =>
        cases bs with
        | nil => exact ⟨rfl, (List.cons.inj hrest).2⟩
        | cons => exact absurd (List.cons.inj hrest).1 hcomma
      | cons next as =>
        cases bs with
        | nil => exact absurd (List.cons.inj hrest).1.symm hcomma
        | cons next' bs =>
          have hrest : separated ((next :: as).map write) ++ close :: r
              = separated ((next' :: bs).map write) ++ close :: r' := (List.cons.inj hrest).2
          obtain ⟨heq, hr⟩ := ih has hrest
          exact ⟨congrArg (a :: ·) heq, hr⟩

end Delimited

theorem head_tokens (value : Json) : ∃ t ts, tokens value = t :: ts ∧ t ≠ .closeArray := by
  cases value <;> exact ⟨_, _, rfl, nofun⟩

theorem head_tokensOfMember (member : String × Json) :
    ∃ t ts, tokensOfMember member = t :: ts ∧ t ≠ .closeObject := ⟨_, _, rfl, nofun⟩

theorem Delimited.member {key : String} {value : Json} (h : Delimited tokens value) :
    Delimited tokensOfMember (key, value) := by
  rintro ⟨key', value'⟩ r r' heq
  obtain ⟨htext, heq⟩ := List.cons.inj heq
  obtain ⟨rfl, rfl⟩ := h value' r r' (List.cons.inj heq).2
  cases String.toList_inj.mp (Token.text.inj htext)
  exact ⟨rfl, rfl⟩

mutual

/-- **The tokens of a value** delimit themselves. -/
theorem delimited_tokens : ∀ value : Json, Delimited tokens value
  | .flag b => by
    intro value' r r' h
    cases value' <;> cases h
    exact ⟨rfl, rfl⟩
  | .number n => by
    intro value' r r' h
    cases value' <;> cases h
    exact ⟨rfl, rfl⟩
  | .text s => by
    intro value' r r' h
    cases value' with
    | text s' =>
      obtain ⟨htext, hr⟩ := List.cons.inj h
      cases String.toList_inj.mp (Token.text.inj htext)
      exact ⟨rfl, hr⟩
    | flag | number | array | object => cases h
  | .array items => by
    intro value' r r' h
    cases value' with
    | array items' =>
      rw [tokens, tokens, itemTokens_eq_map, itemTokens_eq_map, List.cons_append, List.cons_append,
        List.append_assoc, List.append_assoc] at h
      have hinner := (List.cons.inj h).2
      obtain ⟨rfl, hr⟩ := separated_inj (nofun : Token.closeArray ≠ .comma) head_tokens
        (delimited_items items) hinner
      exact ⟨rfl, hr⟩
    | flag | number | text | object => cases h
  | .object members => by
    intro value' r r' h
    cases value' with
    | object members' =>
      rw [tokens, tokens, memberTokens_eq_map, memberTokens_eq_map, List.cons_append,
        List.cons_append, List.append_assoc, List.append_assoc] at h
      have hinner := (List.cons.inj h).2
      obtain ⟨rfl, hr⟩ := separated_inj (nofun : Token.closeObject ≠ .comma) head_tokensOfMember
        (delimited_members members) hinner
      exact ⟨rfl, hr⟩
    | flag | number | text | array => cases h

theorem delimited_items : ∀ items : List Json, ∀ item ∈ items, Delimited tokens item
  | [] => nofun
  | first :: rest => List.forall_mem_cons.mpr ⟨delimited_tokens first, delimited_items rest⟩

theorem delimited_members : ∀ members : List (String × Json), ∀ member ∈ members,
    Delimited tokensOfMember member
  | [] => nofun
  | (_, value) :: rest =>
    List.forall_mem_cons.mpr ⟨(delimited_tokens value).member, delimited_members rest⟩

end

/-- **Lines spell one value** at most. -/
theorem Spells.unique {lines : List String} {value value' : Json} (h : Spells lines value)
    (h' : Spells lines value') : value = value' := by
  have htokens := Option.some.inj (h.symm.trans h')
  exact (delimited_tokens value value' [] [] (congrArg (· ++ []) htokens)).1

theorem Spells.not_mem {lines : List String} {value : Json} (h : Spells lines value) :
    ∀ line ∈ lines, '\n' ∉ line.toList := by
  unfold Spells at h
  revert h
  generalize tokens value = ts
  intro h
  induction lines generalizing ts with
  | nil => exact nofun
  | cons line rest ih =>
    obtain ⟨ts₁, ts₂, hline, hrest, -⟩ := lexAll_cons_eq_some h
    obtain ⟨⟨s, ts⟩, hrun, -⟩ := Option.bind_eq_some_iff.mp hline
    exact List.forall_mem_cons.mpr ⟨not_mem_of_run hrun, ih _ hrest⟩

end DoublingHeap.Proofs.JsonText
