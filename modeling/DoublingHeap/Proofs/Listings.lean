import DoublingHeap.Proofs.Blocks
import DoublingHeap.Proofs.DistinctKeys
import DoublingHeap.Proofs.JsonText
import DoublingHeap.Proofs.Stages

/-! # Two forms of a listing

The blocks of a heap are listed as text or as JSON. Both forms are read back here: text line by line
(`readText`), and JSON from the value that the lines spell (`readValue`). What is read is a
`Listing`, the numbers of the heap and the places of its blocks.

Each form of a heap is read as the listing of the heap (`readText_inspectText`,
`readValue_inspectJson`). So the two forms of one run agree, and they come with the same exit code
and the same diagnostics: `forms_agree`. -/

namespace DoublingHeap.Proofs.Listings

open DoublingHeap.Command DoublingHeap.Bytes DoublingHeap.Text.Numeral
open DoublingHeap.Toml (Parser)
open DoublingHeap.Toml.Parser (word takeWhile1 complete)
open DoublingHeap.Proofs.Blocks DoublingHeap.Proofs.Digits DoublingHeap.Proofs.DistinctKeys
open DoublingHeap.Proofs.JsonText DoublingHeap.Proofs.Stages

/-- Where a block is, in the file and in the heap. -/
structure Place where
  address : Nat
  offset : Nat
  size : Nat
deriving DecidableEq, Repr

/-- The numbers of a heap, and the places of its blocks. -/
structure Listing where
  address : Nat
  idLength : Nat
  tinyObjects : Nat
  hugeObjects : Nat
  managedObjects : Nat
  places : List Place
deriving DecidableEq, Repr

/-- The place of a block. -/
def placeOf (b : DirectBlock) : Place := ⟨b.address, b.offset, b.size⟩

/-- The listing of a heap. -/
def listingOf (heap : Heap) : Listing where
  address := heap.address
  idLength := heap.header.fields.idLength
  tinyObjects := heap.header.fields.tinyObjects
  hugeObjects := heap.header.fields.hugeObjects
  managedObjects := heap.header.fields.managedObjects
  places := heap.blocks.map placeOf

/-! ### Reading text -/

/-- A number in a base. -/
def numeral (base : Nat) : Parser Nat :=
  (takeWhile1 fun c => (digitValue? base c).isSome).filterMap (digits? base)

/-- The first line, for the file of a name: the numbers of a heap, and how many blocks it has. -/
def readHeading (file : String) : Parser (Listing × Nat) := do
  word file
  word ": "
  word "FractalHeap [address="
  let address ← numeral 10
  word ", idLength="
  let idLength ← numeral 10
  word ", tinyObjects="
  let tinyObjects ← numeral 10
  word ", "
  word "hugeObjects="
  let hugeObjects ← numeral 10
  word ", managedObjects="
  let managedObjects ← numeral 10
  word ", "
  word "directBlocks="
  let count ← numeral 10
  word "]"
  return (⟨address, idLength, tinyObjects, hugeObjects, managedObjects, []⟩, count)

/-- The line of a block. -/
def readBlock : Parser Place := do
  word "  block @"
  word "0x"
  let address ← numeral 16
  word ": offset="
  let offset ← numeral 10
  word " size="
  let size ← numeral 10
  return ⟨address, offset, size⟩

/-- The listing in lines of text, for the file of a name, and how many blocks it announces. -/
def readText (file : String) : List String → Option (Listing × Nat)
  | [] => none
  | first :: rest => do
    let (listing, count) ← (readHeading file).complete first.toList
    let places ← rest.mapM fun line => readBlock.complete line.toList
    return ({ listing with places }, count)

/-! ### Reading JSON -/

/-- The value of a key in an object. -/
def member? (key : String) : Json → Option Json
  | .object members => Toml.find? key members
  | _ => none

/-- The number of a key in an object. -/
def number? (key : String) (value : Json) : Option Nat :=
  match member? key value with
  | some (.number n) => some n
  | _ => none

/-- The place in the object of a block. -/
def readPlace (value : Json) : Option Place := do
  return ⟨← number? "address" value, ← number? "block_offset" value, ← number? "size" value⟩

/-- The listing in a value. -/
def readValue (value : Json) : Option Listing := do
  let header ← member? "header" value
  let items ← member? "direct_blocks" value
  match items with
  | .array items =>
    return ⟨← number? "address" header, ← number? "id_length" header,
      ← number? "tiny_object_count" header, ← number? "huge_object_count" header,
      ← number? "managed_object_count" header, ← items.mapM readPlace⟩
  | _ => none

/-! ### Texts are read back -/

section Text

variable {α β : Type} {base : Nat} {write : Nat → List Char}

theorem bind_of_eq {p : Parser α} {f : α → Parser β} {s s' : List Char} {a : α}
    (h : p s = some (a, s')) : (p >>= f) s = f a s' := by
  show (p s).bind _ = _
  rw [h]
  rfl

theorem char_cons (c : Char) (cs : List Char) :
    Toml.Parser.char c (c :: cs) = some (c, cs) := if_pos (beq_self_eq_true c)

theorem run_append_chars (cs rest : List Char) :
    Toml.Parser.run cs (cs ++ rest) = some ((), rest) := by
  induction cs with
  | nil => rfl
  | cons c cs ih =>
    rw [Toml.Parser.run, List.cons_append, bind_of_eq (char_cons c _)]
    exact ih

theorem word_append (w : String) (rest : List Char) :
    word w (w.toList ++ rest) = some ((), rest) := run_append_chars _ _

theorem takeWhile1_append {isMember : Char → Bool} {cs rest : List Char} (hne : cs ≠ [])
    (hcs : ∀ c ∈ cs, isMember c = true) (hrest : ∀ c ∈ rest.head?, isMember c = false) :
    takeWhile1 isMember (cs ++ rest) = some (cs, rest) := by
  obtain ⟨c, cs, rfl⟩ := List.exists_cons_of_ne_nil hne
  obtain ⟨hc, hcs⟩ := List.forall_mem_cons.mp hcs
  have hfirst : Toml.Parser.satisfy isMember (c :: (cs ++ rest)) = some (c, cs ++ rest) :=
    if_pos hc
  have htake : rest.takeWhile isMember = [] ∧ rest.dropWhile isMember = rest := by
    cases rest with
    | nil => exact ⟨rfl, rfl⟩
    | cons d rest =>
      have hd : ¬ isMember d = true := by
        rw [hrest d rfl]
        exact Bool.false_ne_true
      exact ⟨List.takeWhile_cons_of_neg hd, List.dropWhile_cons_of_neg hd⟩
  have hmore : Toml.Parser.takeWhile isMember (cs ++ rest) = some (cs, rest) := by
    unfold Toml.Parser.takeWhile
    rw [List.takeWhile_append_of_pos hcs, List.dropWhile_append_of_pos hcs, htake.1, htake.2,
      List.append_nil]
  unfold takeWhile1
  rw [List.cons_append, bind_of_eq hfirst, bind_of_eq hmore]
  rfl

theorem numeral_append (h : Positional base write) (n : Nat) {rest : List Char}
    (hrest : ∀ c ∈ rest.head?, digitValue? base c = none) :
    numeral base (write n ++ rest) = some (n, rest) := by
  have hdigits : ∀ c ∈ write n, (digitValue? base c).isSome = true := by
    intro c hc
    obtain ⟨d, hd, rfl⟩ := digit_of_mem h hc
    rw [valueBelow_digit h.le_sixteen hd]
    rfl
  have hstop : ∀ c ∈ rest.head?, (digitValue? base c).isSome = false := fun c hc => by
    rw [hrest c hc]
    rfl
  have htake := takeWhile1_append (write_ne_nil h n) hdigits hstop
  unfold numeral Toml.Parser.filterMap
  rw [bind_of_eq htake, digits?_positional h n]
  rfl

theorem toList_hexNumber (n : Nat) :
    (toString (hexNumber n)).toList = "0x".toList ++ Hex.ofNat n := by
  have hdigits : (String.ofList (Hex.ofNat n)).toList = Hex.ofNat n := String.toList_ofList
  exact String.toList_append.trans (congrArg _ hdigits)

theorem bind_word {p : Unit → Parser β} (w : String) (rest : List Char) :
    (word w >>= p) (w.toList ++ rest) = p () rest := bind_of_eq (word_append w rest)

theorem bind_numeral_word (h : Positional base write) {p : Nat → Parser β} (n : Nat) (w : String)
    (rest : List Char) {c : Char} {cs : List Char} (hw : w.toList = c :: cs)
    (hc : digitValue? base c = none) :
    (numeral base >>= fun m => word w >>= fun _ => p m) (write n ++ (w.toList ++ rest))
      = p n rest := by
  have hnumber : numeral base (write n ++ (w.toList ++ rest)) = some (n, w.toList ++ rest) := by
    refine numeral_append h n fun d hd => ?_
    rw [hw] at hd
    cases hd
    exact hc
  rw [bind_of_eq hnumber]
  exact bind_word w rest

theorem readHeading_describe (file : String) (heap : Heap) :
    (readHeading file).complete (file ++ ": " ++ heap.describe).toList
      = some ({ listingOf heap with places := [] }, heap.blocks.length) := by
  have hread : readHeading file (file ++ ": " ++ heap.describe).toList
      = some (({ listingOf heap with places := [] }, heap.blocks.length), []) := by
    unfold Heap.describe
    rw [← List.append_nil (_ : String).toList]
    simp only [String.toList_append, List.append_assoc, toList_toString]
    refine (bind_word file _).trans ?_
    refine (bind_word ": " _).trans ?_
    refine (bind_word "FractalHeap [address=" _).trans ?_
    refine (bind_numeral_word positional_decimal _ ", idLength=" _ rfl (by decide)).trans ?_
    refine (bind_numeral_word positional_decimal _ ", tinyObjects=" _ rfl (by decide)).trans ?_
    refine (bind_numeral_word positional_decimal _ ", " _ rfl (by decide)).trans ?_
    refine (bind_word "hugeObjects=" _).trans ?_
    refine (bind_numeral_word positional_decimal _ ", managedObjects=" _ rfl (by decide)).trans ?_
    refine (bind_numeral_word positional_decimal _ ", " _ rfl (by decide)).trans ?_
    refine (bind_word "directBlocks=" _).trans ?_
    exact bind_numeral_word positional_decimal _ "]" _ rfl (by decide)
  unfold complete
  rw [hread]

theorem readBlock_blockLine (b : DirectBlock) :
    readBlock.complete (blockLine b).toList = some (placeOf b) := by
  have hread : readBlock (blockLine b).toList = some (placeOf b, []) := by
    unfold blockLine
    rw [← List.append_nil (_ : String).toList]
    simp only [String.toList_append, List.append_assoc, toList_toString, toList_hexNumber]
    refine (bind_word "  block @" _).trans ?_
    refine (bind_word "0x" _).trans ?_
    refine (bind_numeral_word positional_hex _ ": offset=" _ rfl (by decide)).trans ?_
    refine (bind_numeral_word positional_decimal _ " size=" _ rfl (by decide)).trans ?_
    exact bind_of_eq (numeral_append positional_decimal b.size nofun)
  unfold complete
  rw [hread]

theorem mapM_map_eq_some {γ : Type} (read : β → Option γ) {put : α → β} {get : α → γ}
    (h : ∀ a, read (put a) = some (get a)) (as : List α) :
    (as.map put).mapM read = some (as.map get) := by
  induction as with
  | nil => rfl
  | cons a as ih =>
    rw [List.map_cons, List.mapM_cons, h, ih]
    rfl

/-- **The form of text** is read as the listing of the heap, with the number of its blocks. -/
theorem readText_inspectText (file : String) (heap : Heap) :
    readText file (inspectText file heap) = some (listingOf heap, heap.blocks.length) := by
  have hplaces := mapM_map_eq_some (fun line : String => readBlock.complete line.toList)
    readBlock_blockLine heap.blocks
  unfold inspectText
  simp only [readText, readHeading_describe, hplaces]
  rfl

/-- **No line of text** has a line end in it, if the name of the file has none. -/
theorem not_mem_inspectText {file : String} (hfile : '\n' ∉ file.toList) (heap : Heap) :
    ∀ line ∈ inspectText file heap, '\n' ∉ line.toList := by
  have hdecimal := not_mem_write positional_decimal
  have hhex := not_mem_write positional_hex
  unfold inspectText
  refine List.forall_mem_cons.mpr ⟨?_, fun line hmem => ?_⟩
  · unfold Heap.describe
    simp only [String.toList_append, toList_toString, List.mem_append, not_or, hfile, hdecimal,
      not_false_eq_true, and_true, true_and]
    decide
  · obtain ⟨b, -, rfl⟩ := List.mem_map.mp hmem
    unfold blockLine
    simp only [String.toList_append, toList_toString, toList_hexNumber, List.mem_append, not_or,
      hdecimal, hhex, not_false_eq_true, and_true]
    decide

end Text

/-! ### JSON is read back -/

section Json

variable {members : List (String × Json)} {key : String} {value : Json}

theorem sortedItems_eq_map (items : List Json) :
    Json.sortedItems items = items.map Json.sorted := by
  induction items with
  | nil => rfl
  | cons item rest ih => rw [Json.sortedItems, ih, List.map_cons]

theorem sorted_array (items : List Json) :
    (Json.array items).sorted = .array (items.map Json.sorted) := by
  rw [Json.sorted, sortedItems_eq_map]

theorem sortedMembers_eq_map (members : List (String × Json)) :
    Json.sortedMembers members = members.map fun member => (member.1, member.2.sorted) := by
  induction members with
  | nil => rfl
  | cons member rest ih => rw [Json.sortedMembers, ih, List.map_cons]

/-- **The value of a key** is found wherever the member stands after sorting. -/
theorem member?_sorted (hkeys : (keys members).Nodup) (hmem : (key, value) ∈ members) :
    member? key (Json.object members).sorted = some value.sorted := by
  have hperm : (Json.sortMembers (Json.sortedMembers members)).Perm
      (members.map fun member => (member.1, member.2.sorted)) := by
    rw [← sortedMembers_eq_map]
    exact List.mergeSort_perm _ _
  have hkeys' : (keys (Json.sortMembers (Json.sortedMembers members))).Nodup := by
    refine ((hperm.map Prod.fst).nodup_iff).mpr ?_
    rw [List.map_map]
    exact hkeys
  unfold member?
  rw [Json.sorted]
  exact (find?_eq_some_iff hkeys').mpr
    (hperm.mem_iff.mpr (List.mem_map.mpr ⟨(key, value), hmem, rfl⟩))

theorem number?_sorted (hkeys : (keys members).Nodup) {n : Nat}
    (hmem : (key, .number n) ∈ members) :
    number? key (Json.object members).sorted = some n := by
  unfold number?
  rw [member?_sorted hkeys hmem, Json.sorted]

theorem readPlace_blockJson (b : DirectBlock) :
    readPlace (blockJson b).sorted = some (placeOf b) := by
  have hkeys : (keys [("address", Json.number b.address), ("block_offset", .number b.offset),
      ("size", .number b.size)]).Nodup :=
    (by decide : ["address", "block_offset", "size"].Nodup)
  have haddress := number?_sorted hkeys (n := b.address) (.head _)
  have hoffset := number?_sorted hkeys (n := b.offset) (.tail _ (.head _))
  have hsize := number?_sorted hkeys (n := b.size) (.tail _ (.tail _ (.head _)))
  unfold readPlace blockJson
  rw [haddress, hoffset, hsize]
  rfl

theorem nodup_listing (h : Header) : (keys h.listing).Nodup := by
  simp [keys, Header.listing]

theorem number?_header (h : Header) (key : String) (n : Nat) (hmem : (key, n) ∈ h.listing) :
    number? key (Json.object (h.listing.map fun (name, n) => (name, .number n))).sorted
      = some n := by
  refine number?_sorted ?_ (List.mem_map.mpr ⟨(key, n), hmem, rfl⟩)
  unfold keys
  rw [List.map_map]
  exact nodup_listing h

/-- **The form of JSON** is read as the listing of the heap. -/
theorem readValue_inspectJson (file : String) (heap : Heap) :
    readValue (inspectJson file heap).sorted = some (listingOf heap) := by
  have hkeys : (keys [("file", Json.text file),
      ("header", .object (heap.header.listing.map fun (name, n) => (name, .number n))),
      ("direct_blocks", .array (heap.blocks.map blockJson))]).Nodup :=
    (by decide : ["file", "header", "direct_blocks"].Nodup)
  have hheader := member?_sorted hkeys (.tail _ (.head _))
  have hblocks := member?_sorted hkeys (.tail _ (.tail _ (.head _)))
  have hplaces : (heap.blocks.map (Json.sorted ∘ blockJson)).mapM readPlace
      = some (heap.blocks.map placeOf) := mapM_map_eq_some readPlace readPlace_blockJson heap.blocks
  have haddress := number?_header heap.header "address" heap.header.address
    (by simp [Header.listing])
  have hidLength := number?_header heap.header "id_length" heap.header.fields.idLength
    (by simp [Header.listing])
  have htiny := number?_header heap.header "tiny_object_count" heap.header.fields.tinyObjects
    (by simp [Header.listing])
  have hhuge := number?_header heap.header "huge_object_count" heap.header.fields.hugeObjects
    (by simp [Header.listing])
  have hmanaged := number?_header heap.header "managed_object_count"
    heap.header.fields.managedObjects (by simp [Header.listing])
  unfold readValue inspectJson
  rw [hheader, hblocks, sorted_array, List.map_map]
  simp only [Option.bind_eq_bind, Option.bind_some, hplaces]
  rw [haddress, hidLength, htiny, hhuge, hmanaged]
  rfl

end Json

/-! ### The runs -/

/-- **Lines of text and lines of JSON that show one listing**, for the file of a name. -/
structure Agree (file : String) (text json : List String) (listing : Listing) : Prop where
  readsText : readText file text = some (listing, listing.places.length)
  /-- The first line is followed by one line for each block. -/
  count : text.length = listing.places.length + 1
  readsJson : ∃ value, Spells json value ∧ readValue value = some listing
  /-- The lines of JSON spell nothing else. -/
  unique : ∀ value value', Spells json value → Spells json value' → value = value'
  ascending : listing.places.Pairwise fun a b => a.offset < b.offset
  /-- No line is broken by a line end. -/
  unbroken : ∀ line ∈ text ++ json, '\n' ∉ line.toList

theorem agree_of_heap {file : String} (hfile : '\n' ∉ file.toList) (heap : Heap) :
    Agree file (inspectText file heap) (inspectJson file heap).pretty (listingOf heap) where
  readsText := (readText_inspectText file heap).trans (by simp [listingOf])
  count := by simp [inspectText, listingOf]
  readsJson := ⟨_, spells_lines _, readValue_inspectJson file heap⟩
  unique _ _ h h' := h.unique h'
  ascending := List.pairwise_map.mpr heap.index.ascending
  unbroken := by
    refine List.forall_mem_append.mpr ⟨not_mem_inspectText hfile heap, ?_⟩
    exact (spells_lines (inspectJson file heap).sorted).not_mem

section Runs

variable {files : Files} {env : Environment} {args : Arguments} {file : String} {address : Nat}

/-- The run of an inspection, in one form or the other. -/
def inspection (files : Files) (env : Environment) (args : Arguments) (file : String)
    (address : Nat) (json : Bool) : Outcome :=
  execute files env { args with action := .inspect file address json }

/-- What an inspection puts out for a heap. -/
def shown (file : String) (heap : Heap) (json : Bool) : List String :=
  if json then (inspectJson file heap).pretty else inspectText file heap

theorem inspection_of_unset {failure : Failure} (hs : settings files env args = .error failure)
    (json : Bool) : inspection files env args file address json = outcome [] (.error failure) := by
  -- the settings do not depend on the action
  have hsame : settings files env { args with action := .inspect file address json }
      = .error failure := hs
  unfold inspection execute
  rw [hsame]

theorem inspection_of_loadHeap {s : Settings} {events : List Event} {heap : Except Failure Heap}
    (hs : settings files env args = .ok s)
    (hload : loadHeap files s (threshold s args) file address = (events, heap)) (json : Bool) :
    inspection files env args file address json
      = outcome events (heap.map fun heap => shown file heap json) := by
  have hsame : settings files env { args with action := .inspect file address json } = .ok s := hs
  have hinspect : inspect files s (threshold s args) file address json
      = (events, heap.map fun heap => shown file heap json) := by
    unfold inspect
    rw [hload]
    rfl
  unfold inspection execute
  rw [hsame]
  exact congrArg (fun result => outcome result.1 result.2) hinspect

/-- The heap that an inspection finds. -/
def Finds (files : Files) (env : Environment) (args : Arguments) (file : String) (address : Nat)
    (heap : Heap) : Prop :=
  ∃ s events, settings files env args = .ok s ∧
    loadHeap files s (threshold s args) file address = (events, .ok heap)

theorem Finds.unique {heap heap' : Heap} (h : Finds files env args file address heap)
    (h' : Finds files env args file address heap') : heap = heap' := by
  obtain ⟨s, events, hs, hload⟩ := h
  obtain ⟨s', events', hs', hload'⟩ := h'
  cases hs.symm.trans hs'
  exact Except.ok.inj (Prod.mk.inj (hload.symm.trans hload')).2

/-- **An inspection** finds no heap and fails in the same way in both forms, or it finds a heap and
shows that. -/
theorem inspection_cases (files : Files) (env : Environment) (args : Arguments) (file : String)
    (address : Nat) :
    (∃ events failure, (∀ heap, ¬ Finds files env args file address heap) ∧
      ∀ json, inspection files env args file address json = outcome events (.error failure)) ∨
    ∃ events heap, Finds files env args file address heap ∧
      ∀ json, inspection files env args file address json
        = outcome events (.ok (shown file heap json)) := by
  cases hs : settings files env args with
  | error failure =>
    refine .inl ⟨[], failure, fun heap hfinds => ?_, inspection_of_unset hs⟩
    obtain ⟨s, -, hs', -⟩ := hfinds
    cases hs.symm.trans hs'
  | ok s =>
    rcases hload : loadHeap files s (threshold s args) file address with ⟨events, failure | heap⟩
    · refine .inl ⟨events, failure, fun heap hfinds => ?_, inspection_of_loadHeap hs hload⟩
      obtain ⟨s', events', hs', hload'⟩ := hfinds
      cases hs.symm.trans hs'
      cases hload.symm.trans hload'
    · exact .inr ⟨events, heap, ⟨s, events, hs, hload⟩, inspection_of_loadHeap hs hload⟩

end Runs

/-- **The two forms of an inspection agree.** Take two command lines that ask for the heap at an
address of a file, one for text and the other for JSON, and are alike otherwise. Their runs exit
with the same code and come with the same diagnostics. If no heap is found, they fail and neither
puts anything out. If a heap is found, they succeed, and the lines of text and those of JSON show
the listing of this heap. -/
theorem forms_agree (files : Files) (env : Environment) (args : Arguments)
    {words words' : List String} {file : String} {address : Nat} (hfile : '\n' ∉ file.toList)
    (htext : Arguments.parse words = .ok { args with action := .inspect file address false })
    (hjson : Arguments.parse words' = .ok { args with action := .inspect file address true }) :
    let text := Command.run files env words
    let json := Command.run files env words'
    text.exitCode = json.exitCode ∧ text.diagnostics = json.diagnostics ∧
      (text.exitCode = 0 ↔ ∃ heap, Finds files env args file address heap) ∧
      (text.exitCode ≠ 0 → text.output = [] ∧ json.output = []) ∧
      ∀ heap, Finds files env args file address heap →
        Agree file text.output json.output (listingOf heap) := by
  have hrunText : Command.run files env words = inspection files env args file address false :=
    run_of_parse files env htext
  have hrunJson : Command.run files env words' = inspection files env args file address true :=
    run_of_parse files env hjson
  rw [hrunText, hrunJson]
  rcases inspection_cases files env args file address with
    ⟨events, failure, hnone, hrun⟩ | ⟨events, heap, hfinds, hrun⟩
  · rw [hrun false, hrun true]
    exact ⟨rfl, rfl, ⟨nofun, fun ⟨heap, hfinds⟩ => absurd hfinds (hnone heap)⟩,
      fun _ => ⟨rfl, rfl⟩, fun heap hfinds => absurd hfinds (hnone heap)⟩
  · rw [hrun false, hrun true]
    refine ⟨rfl, rfl, ⟨fun _ => ⟨heap, hfinds⟩, fun _ => rfl⟩, fun hfailed => absurd rfl hfailed,
      fun heap' hfinds' => ?_⟩
    rw [← hfinds.unique hfinds']
    exact agree_of_heap hfile heap

/-- Two blocks are listed in both forms. -/
theorem two_blocks_listed :
    let text := Command.run oneFile {}
      ["inspect", "heap", "-a0", "--size-of-offsets=1", "--size-of-lengths=1"]
    let json := Command.run oneFile {}
      ["inspect", "--json", "heap", "-a0", "--size-of-offsets=1", "--size-of-lengths=1"]
    text.exitCode = 0 ∧ text.diagnostics = json.diagnostics ∧
      Agree "heap" text.output json.output ⟨0, 3, 0, 0, 0, [⟨50, 0, 8⟩, ⟨58, 8, 8⟩]⟩ := by
  let args : Arguments := ⟨.inspect "heap" 0 false, none, some 1, some 1, false⟩
  have hname : '\n' ∉ "heap".toList := by decide
  have htext : Arguments.parse
      ["inspect", "heap", "-a0", "--size-of-offsets=1", "--size-of-lengths=1"] = .ok args := by rfl
  have hjson : Arguments.parse
      ["inspect", "--json", "heap", "-a0", "--size-of-offsets=1", "--size-of-lengths=1"]
        = .ok { args with action := .inspect "heap" 0 true } := by rfl
  have hfound : (loadHeap oneFile ⟨1, 1, false, .info⟩ .info "heap" 0).2.toOption.map listingOf
      = some ⟨0, 3, 0, 0, 0, [⟨50, 0, 8⟩, ⟨58, 8, 8⟩]⟩ := by decide +kernel
  obtain ⟨heap, hheap, hlisting⟩ := Option.map_eq_some_iff.mp hfound
  have hfinds : Finds oneFile {} args "heap" 0 heap :=
    ⟨⟨1, 1, false, .info⟩, _, rfl, Prod.ext rfl (eq_ok_of_toOption hheap)⟩
  obtain ⟨-, hdiagnostics, hzero, -, hagree⟩ := forms_agree oneFile {} args hname htext hjson
  rw [← hlisting]
  exact ⟨hzero.mpr ⟨heap, hfinds⟩, hdiagnostics, hagree heap hfinds⟩

end DoublingHeap.Proofs.Listings
