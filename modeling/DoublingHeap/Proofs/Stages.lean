import DoublingHeap.Proofs.Overlap
import DoublingHeap.Proofs.ReportText

/-! # The stages of getting an object

To get an object, a run finds its settings, reads the digits of the identifier, makes a superblock
of the widths, opens the file, loads the heap, compares the length of the identifier, and resolves
it. Each `Stage` can fail on its own account (`Fails`), whether or not others fail too: digits may
be wrong and the file missing. A run goes through the stages in order and ends in one of two ways
(`outcome_cases`): no stage fails and the bytes of the object are put out, or nothing is put out and
the report is that of the first stage that fails (`FirstFailure`).

There is no choice in this: a stage fails in one way (`Fails.unique`), so a request has one first
failure at most (`FirstFailure.unique`), and none if it succeeds (`Succeeds.not_fails`). -/

namespace DoublingHeap.Proofs.Stages

open DoublingHeap.Command
open DoublingHeap.Proofs.Blocks DoublingHeap.Proofs.Descent DoublingHeap.Proofs.Overlap
open DoublingHeap.Proofs.ReportText

/-- The stages, in the order in which a run goes through them. -/
inductive Stage where
  | settings
  | digits
  | widths
  | file
  | heap
  | length
  | object
deriving DecidableEq, Repr

/-- The place of a stage in the order. -/
def Stage.rank : Stage → Nat
  | settings => 0
  | digits => 1
  | widths => 2
  | file => 3
  | heap => 4
  | length => 5
  | object => 6

theorem Stage.eq_of_rank {a b : Stage} (h : a.rank = b.rank) : a = b := by
  cases a <;> cases b <;> cases h <;> rfl

/-- A command line that asks for an object, and what it is run on. -/
structure Request where
  files : Files
  env : Environment
  args : Arguments
  file : String
  address : Nat
  id : String
  asks : args.action = .get file address id

namespace Request

variable (r : Request)

/-- What the run of the request leaves behind. -/
def outcome : Outcome := execute r.files r.env r.args

/-- The settings that are found, with the widths of the command line. -/
def HasSettings (s : Settings) : Prop :=
  ∃ found, Settings.load r.files r.env r.args.config = .ok found ∧
    s = found.withWidths r.args.offsetWidth r.args.lengthWidth

/-- With these settings, the heap in the file has been loaded or has not, and this was logged. -/
inductive Loads (s : Settings) (events : List Event) (x : Except HeapError Heap) : Prop
  | intro {superblock : Superblock} {content : ByteArray} (settings : r.HasSettings s)
      (widths : s.superblock = .ok superblock) (file : r.files r.file = .ok (.file content))
      (heap : Heap.load ⟨content⟩ superblock r.address s.heapOptions (threshold s r.args)
        = (events, x))

/-- **A stage fails**, after these events have been logged. The stages that it depends on have to
succeed, all others may fail as well. -/
inductive Fails : Stage → List Event → Failure → Prop
  | settings {e : SettingsError} (hload : Settings.load r.files r.env r.args.config = .error e) :
      Fails .settings [] ⟨"Failed to load config", e.message :: e.sources⟩
  | digits {fault : Bytes.Hex.Fault} (hid : Text.ByteString.parse r.id = .error fault) :
      Fails .digits [] ⟨"invalid hex '" ++ r.id ++ "': " ++ fault.message, []⟩
  | widths {s : Settings} {e : SettingsError} (hs : r.HasSettings s)
      (hwidths : s.superblock = .error e) : Fails .widths [] ⟨e.message, e.sources⟩
  | directory (hfile : r.files r.file = .ok .directory) :
      Fails .file [] ⟨"Failed to open: " ++ r.file, [OsError.noDevice.message]⟩
  | unserved {e : OsError} (hfile : r.files r.file = .error e) :
      Fails .file [] ⟨"Failed to open: " ++ r.file, [e.message]⟩
  | heap {s : Settings} {events : List Event} {e : HeapError}
      (hload : r.Loads s events (.error e)) :
      Fails .heap events
        ⟨s!"Failed to read heap at {r.address} in {r.file}", e.message :: e.sources⟩
  | length {s : Settings} {events : List Event} {heap : Heap} {raw : List UInt8}
      (hload : r.Loads s events (.ok heap)) (hid : Text.ByteString.parse r.id = .ok raw)
      (hlength : raw.length ≠ heap.header.fields.idLength) :
      Fails .length events
        ⟨s!"heap identifiers are {heap.header.fields.idLength} bytes, got {raw.length}", []⟩
  | object {s : Settings} {events more : List Event} {heap : Heap} {raw : List UInt8}
      {e : HeapError} (hload : r.Loads s events (.ok heap))
      (hid : Text.ByteString.parse r.id = .ok raw)
      (hobject : heap.resolve raw (threshold s r.args) = (more, .error e)) :
      Fails .object (events ++ more) ⟨"Failed to resolve identifier", e.message :: e.sources⟩

/-- **All stages succeed**, with these events logged and these bytes found. -/
inductive Succeeds : List Event → List UInt8 → Prop
  | intro {s : Settings} {events more : List Event} {heap : Heap} {raw bytes : List UInt8}
      (hload : r.Loads s events (.ok heap)) (hid : Text.ByteString.parse r.id = .ok raw)
      (hlength : raw.length = heap.header.fields.idLength)
      (hobject : heap.resolve raw (threshold s r.args) = (more, .ok bytes)) :
      Succeeds (events ++ more) bytes

/-- No stage before the one of this rank fails. -/
def Passes (rank : Nat) : Prop := ∀ stage events f, r.Fails stage events f → rank ≤ stage.rank

/-- **The first stage that fails.** -/
structure FirstFailure (stage : Stage) (events : List Event) (f : Failure) : Prop where
  fails : r.Fails stage events f
  first : r.Passes stage.rank

variable {r}

/-! ### There is one result of a stage -/

theorem HasSettings.unique {s s' : Settings} (h : r.HasSettings s) (h' : r.HasSettings s') :
    s = s' := by
  obtain ⟨found, hload, rfl⟩ := h
  obtain ⟨found', hload', rfl⟩ := h'
  cases hload.symm.trans hload'
  rfl

theorem Loads.unique {s s' : Settings} {events events' : List Event} {x x' : Except HeapError Heap}
    (h : r.Loads s events x) (h' : r.Loads s' events' x') :
    s = s' ∧ events = events' ∧ x = x' := by
  obtain ⟨hs, hwidths, hfile, hload⟩ := h
  obtain ⟨hs', hwidths', hfile', hload'⟩ := h'
  cases hs.unique hs'
  cases hwidths.symm.trans hwidths'
  cases hfile.symm.trans hfile'
  cases hload.symm.trans hload'
  exact ⟨rfl, rfl, rfl⟩

theorem Fails.unique {stage : Stage} {events events' : List Event} {f f' : Failure}
    (h : r.Fails stage events f) (h' : r.Fails stage events' f') : events = events' ∧ f = f' := by
  cases h with
  | settings hload =>
    cases h' with
    | settings hload' =>
      cases hload.symm.trans hload'
      exact ⟨rfl, rfl⟩
  | digits hid =>
    cases h' with
    | digits hid' =>
      cases hid.symm.trans hid'
      exact ⟨rfl, rfl⟩
  | widths hs hwidths =>
    cases h' with
    | widths hs' hwidths' =>
      cases hs.unique hs'
      cases hwidths.symm.trans hwidths'
      exact ⟨rfl, rfl⟩
  | directory hfile =>
    cases h' with
    | directory hfile' => exact ⟨rfl, rfl⟩
    | unserved hfile' => cases hfile.symm.trans hfile'
  | unserved hfile =>
    cases h' with
    | directory hfile' => cases hfile.symm.trans hfile'
    | unserved hfile' =>
      cases hfile.symm.trans hfile'
      exact ⟨rfl, rfl⟩
  | heap hload =>
    cases h' with
    | heap hload' =>
      obtain ⟨-, rfl, heq⟩ := hload.unique hload'
      cases heq
      exact ⟨rfl, rfl⟩
  | length hload hid _ =>
    cases h' with
    | length hload' hid' _ =>
      obtain ⟨-, rfl, heq⟩ := hload.unique hload'
      cases heq
      cases hid.symm.trans hid'
      exact ⟨rfl, rfl⟩
  | object hload hid hobject =>
    cases h' with
    | object hload' hid' hobject' =>
      obtain ⟨rfl, rfl, heq⟩ := hload.unique hload'
      cases heq
      cases hid.symm.trans hid'
      cases hobject.symm.trans hobject'
      exact ⟨rfl, rfl⟩

/-- **There is one first failure** at most. -/
theorem FirstFailure.unique {stage stage' : Stage} {events events' : List Event} {f f' : Failure}
    (h : r.FirstFailure stage events f) (h' : r.FirstFailure stage' events' f') :
    events = events' ∧ f = f' := by
  have hle := h.first _ _ _ h'.fails
  have hge := h'.first _ _ _ h.fails
  cases Stage.eq_of_rank (Nat.le_antisymm hle hge)
  exact h.fails.unique h'.fails

/-! ### Stages that succeed do not fail -/

section Succeeding

variable {s : Settings} {superblock : Superblock} {content : ByteArray} {heap : Heap}
  {raw bytes : List UInt8} {events events' : List Event} {f : Failure}

theorem not_fails_settings {found : Settings}
    (hfound : Settings.load r.files r.env r.args.config = .ok found) :
    ¬ r.Fails .settings events f := by
  intro hfails
  cases hfails with
  | settings hload => cases hfound.symm.trans hload

theorem not_fails_digits (hraw : Text.ByteString.parse r.id = .ok raw) :
    ¬ r.Fails .digits events f := by
  intro hfails
  cases hfails with
  | digits hid => cases hraw.symm.trans hid

theorem not_fails_widths (hsettings : r.HasSettings s)
    (hsuperblock : s.superblock = .ok superblock) : ¬ r.Fails .widths events f := by
  intro hfails
  cases hfails with
  | widths hs hwidths =>
    cases hsettings.unique hs
    cases hsuperblock.symm.trans hwidths

theorem not_fails_file (hcontent : r.files r.file = .ok (.file content)) :
    ¬ r.Fails .file events f := by
  intro hfails
  cases hfails with
  | directory hfile => cases hcontent.symm.trans hfile
  | unserved hfile => cases hcontent.symm.trans hfile

theorem not_fails_heap (hheap : r.Loads s events (.ok heap)) : ¬ r.Fails .heap events' f := by
  intro hfails
  cases hfails with
  | heap hload => cases (hheap.unique hload).2.2

theorem not_fails_length (hheap : r.Loads s events (.ok heap))
    (hraw : Text.ByteString.parse r.id = .ok raw)
    (hsame : raw.length = heap.header.fields.idLength) : ¬ r.Fails .length events' f := by
  intro hfails
  cases hfails with
  | length hload hid hlength =>
    cases (hheap.unique hload).2.2
    cases hraw.symm.trans hid
    exact hlength hsame

theorem Succeeds.not_fails {stage : Stage} (h : r.Succeeds events bytes) :
    ¬ r.Fails stage events' f := by
  obtain ⟨hload, hid, hlength, hobject⟩ := h
  have ⟨hs, hwidths, hfile, _⟩ := hload
  have ⟨_, hfound, _⟩ := hs
  cases stage with
  | settings => exact not_fails_settings hfound
  | digits => exact not_fails_digits hid
  | widths => exact not_fails_widths hs hwidths
  | file => exact not_fails_file hfile
  | heap => exact not_fails_heap hload
  | length => exact not_fails_length hload hid hlength
  | object =>
    intro hfails
    cases hfails with
    | object hload' hid' hobject' =>
      obtain ⟨rfl, -, heq⟩ := hload.unique hload'
      cases heq
      cases hid.symm.trans hid'
      cases hobject.symm.trans hobject'

theorem Succeeds.unique {bytes' : List UInt8} (h : r.Succeeds events bytes)
    (h' : r.Succeeds events' bytes') : events = events' ∧ bytes = bytes' := by
  obtain ⟨hload, hid, -, hobject⟩ := h
  obtain ⟨hload', hid', -, hobject'⟩ := h'
  obtain ⟨rfl, rfl, heq⟩ := hload.unique hload'
  cases heq
  cases hid.symm.trans hid'
  cases hobject.symm.trans hobject'
  exact ⟨rfl, rfl⟩

theorem passes_zero : r.Passes 0 := fun _ _ _ _ => Nat.zero_le _

theorem Passes.next {stage : Stage} (h : r.Passes stage.rank)
    (hnot : ∀ events f, ¬ r.Fails stage events f) : r.Passes (stage.rank + 1) := by
  intro stage' events f hfails
  have hle := h stage' events f hfails
  rcases Nat.lt_or_eq_of_le hle with hlt | heq
  · exact hlt
  · cases Stage.eq_of_rank heq
    exact absurd hfails (hnot events f)

end Succeeding

/-! ### The run -/

section Run

variable {s : Settings} {events : List Event} {raw : List UInt8}

/-- What the command does once there are settings. -/
def body (r : Request) (s : Settings) : List Event × Except Failure (List String) :=
  Command.get r.files s (threshold s r.args) r.file r.address r.id

theorem outcome_of_settings (hs : r.HasSettings s) :
    r.outcome = Command.outcome (r.body s).1 (r.body s).2 := by
  obtain ⟨found, hfound, rfl⟩ := hs
  unfold outcome execute settings
  rw [hfound, r.asks]
  rfl

theorem loadHeap_of_loads {x : Except HeapError Heap} (h : r.Loads s events x) :
    loadHeap r.files s (threshold s r.args) r.file r.address
      = (events, x.mapError (.ofHeapError s!"Failed to read heap at {r.address} in {r.file}")) := by
  obtain ⟨-, hwidths, hfile, hload⟩ := h
  unfold loadHeap openImage
  simp only [hwidths, hfile, hload]

theorem identifierBytes_of_ok (hid : Text.ByteString.parse r.id = .ok raw) :
    identifierBytes r.id = .ok raw := by
  unfold identifierBytes
  rw [hid]
  rfl

theorem body_of_loads {heap : Heap} (hid : Text.ByteString.parse r.id = .ok raw)
    (hload : r.Loads s events (.ok heap)) :
    r.body s =
      if raw.length ≠ heap.header.fields.idLength then
        (events, .error
          ⟨s!"heap identifiers are {heap.header.fields.idLength} bytes, got {raw.length}", []⟩)
      else
        (events ++ (heap.resolve raw (threshold s r.args)).1,
          ((heap.resolve raw (threshold s r.args)).2.mapError
            (.ofHeapError "Failed to resolve identifier")).map Bytes.HexDump.lines) := by
  have hheap : loadHeap r.files s (threshold s r.args) r.file r.address = (events, .ok heap) :=
    loadHeap_of_loads hload
  unfold body Command.get
  rw [identifierBytes_of_ok hid, hheap]
  rfl

theorem body_of_unloaded {f : Failure} (hid : Text.ByteString.parse r.id = .ok raw)
    (hheap : loadHeap r.files s (threshold s r.args) r.file r.address = (events, .error f)) :
    r.body s = (events, .error f) := by
  unfold body Command.get
  rw [identifierBytes_of_ok hid, hheap]

/-- **Loading** comes to a heap, or to the first failure of one of its stages. -/
theorem loads_or_fails (hs : r.HasSettings s) (hpassed : r.Passes Stage.widths.rank) :
    (∃ events heap, r.Loads s events (.ok heap) ∧ r.Passes Stage.length.rank) ∨
      ∃ stage events f, r.FirstFailure stage events f ∧
        loadHeap r.files s (threshold s r.args) r.file r.address = (events, .error f) := by
  cases hsuper : s.superblock with
  | error e =>
    refine .inr ⟨_, _, _, ⟨.widths hs hsuper, hpassed⟩, ?_⟩
    unfold loadHeap
    rw [hsuper]
  | ok superblock =>
  have hwidths : r.Passes Stage.file.rank := hpassed.next fun _ _ => not_fails_widths hs hsuper
  cases hfile : r.files r.file with
  | error e =>
    refine .inr ⟨_, _, _, ⟨.unserved hfile, hwidths⟩, ?_⟩
    unfold loadHeap openImage
    rw [hsuper, hfile]
  | ok entry =>
  cases entry with
  | directory =>
    refine .inr ⟨_, _, _, ⟨.directory hfile, hwidths⟩, ?_⟩
    unfold loadHeap openImage
    rw [hsuper, hfile]
  | file content =>
  have hopened : r.Passes Stage.heap.rank := hwidths.next fun _ _ => not_fails_file hfile
  cases hheap : Heap.load ⟨content⟩ superblock r.address s.heapOptions (threshold s r.args) with
  | mk events x =>
  have hload : r.Loads s events x := ⟨hs, hsuper, hfile, hheap⟩
  cases x with
  | error e => exact .inr ⟨_, _, _, ⟨.heap hload, hopened⟩, loadHeap_of_loads hload⟩
  | ok heap => exact .inl ⟨events, heap, hload, hopened.next fun _ _ => not_fails_heap hload⟩

/-- What is left behind where an object is shown. -/
def shown (events : List Event) (bytes : List UInt8) : Outcome :=
  ⟨0, Bytes.HexDump.lines bytes, events.map (·.line)⟩

/-- What is left behind where a failure is reported. -/
def reported (events : List Event) (f : Failure) : Outcome :=
  ⟨1, [], events.map (·.line) ++ Report.lines f.text f.chain⟩

/-- **A run ends in one of two ways**: it shows an object, or reports the first failure. -/
theorem outcome_cases (r : Request) :
    (∃ events bytes, r.Succeeds events bytes ∧ r.outcome = shown events bytes) ∨
      ∃ stage events f, r.FirstFailure stage events f ∧ r.outcome = reported events f := by
  have hnone : r.Passes Stage.settings.rank := passes_zero
  cases hfound : Settings.load r.files r.env r.args.config with
  | error e =>
    refine .inr ⟨_, _, _, ⟨.settings hfound, hnone⟩, ?_⟩
    unfold outcome execute settings
    rw [hfound]
    rfl
  | ok found =>
  obtain ⟨s, hs⟩ : ∃ s, r.HasSettings s := ⟨_, found, hfound, rfl⟩
  have hsettings : r.Passes Stage.digits.rank := hnone.next fun _ _ => not_fails_settings hfound
  rw [outcome_of_settings hs]
  cases hid : Text.ByteString.parse r.id with
  | error fault =>
    refine .inr ⟨_, _, _, ⟨.digits hid, hsettings⟩, ?_⟩
    unfold body Command.get identifierBytes
    rw [hid]
    rfl
  | ok raw =>
  rcases loads_or_fails hs (hsettings.next fun _ _ => not_fails_digits hid) with
    ⟨events, heap, hload, hloaded⟩ | ⟨stage, events, f, hfirst, hheap⟩
  · rw [body_of_loads hid hload]
    by_cases hlength : raw.length = heap.header.fields.idLength
    · have hpassed : r.Passes Stage.object.rank :=
        hloaded.next fun _ _ => not_fails_length hload hid hlength
      rw [if_neg (not_not_intro hlength)]
      cases hobject : heap.resolve raw (threshold s r.args) with
      | mk more y =>
      cases y with
      | error e => exact .inr ⟨_, _, _, ⟨.object hload hid hobject, hpassed⟩, rfl⟩
      | ok bytes => exact .inl ⟨_, _, .intro hload hid hlength hobject, rfl⟩
    · rw [if_pos hlength]
      exact .inr ⟨_, _, _, ⟨.length hload hid hlength, hloaded⟩, rfl⟩
  · rw [body_of_unloaded hid hheap]
    exact .inr ⟨stage, events, f, hfirst, rfl⟩

end Run

end Request

/-- One file, with two blocks of a heap next to each other. -/
def oneFile : Files := fun path =>
  if path = "heap" then .ok (.file adjacent.bytes) else .error .notFound

/-- Asks for a missing file with digits that are none and a width that is too large. -/
def threeFaults : Request where
  files := oneFile
  env := {}
  args := ⟨.get "missing" 0 "zz", none, some 9, none, false⟩
  file := "missing"
  address := 0
  id := "zz"
  asks := rfl

/-- Asks for three bytes of the second block. -/
def threeBytes : Request where
  files := oneFile
  env := {}
  args := ⟨.get "heap" 0 "00 09 03", none, some 1, some 1, false⟩
  file := "heap"
  address := 0
  id := "00 09 03"
  asks := rfl

theorem threeBytes_succeeds : threeBytes.Succeeds [] [0x48, 0x44, 0x42] := by
  have hwidths : Settings.superblock ⟨1, 1, false, .info⟩ = .ok narrow := rfl
  have hfile : oneFile "heap" = .ok (.file adjacent.bytes) := if_pos rfl
  have hraw : Text.ByteString.parse "00 09 03" = .ok [0, 9, 3] := by rfl
  -- nothing is logged, and the bytes are found
  have hquiet : (Heap.load ⟨adjacent.bytes⟩ narrow 0 {} >>= fun heap =>
      heap.resolve [0, 9, 3]).events .info = [] := by decide +kernel
  have hfound : (((Heap.load ⟨adjacent.bytes⟩ narrow 0 {} >>= fun heap =>
      heap.resolve [0, 9, 3]).result .info).toOption) = some [0x48, 0x44, 0x42] := by decide +kernel
  obtain ⟨heap, hheap, hobject⟩ := Logged.result_bind_eq_ok.mp (eq_ok_of_toOption hfound)
  rw [Logged.events_bind, hheap] at hquiet
  obtain ⟨hbefore, hafter⟩ := List.append_eq_nil_iff.mp hquiet
  have hload : threeBytes.Loads ⟨1, 1, false, .info⟩ [] (.ok heap) :=
    ⟨⟨_, rfl, rfl⟩, hwidths, hfile, Prod.ext hbefore hheap⟩
  have hlength : [0, 9, 3].length = heap.header.fields.idLength := by
    rw [header_of_adjacent hheap]
    rfl
  exact .intro hload hraw hlength (Prod.ext hafter hobject)

/-- Command lines that ask for an object, each with the report on what fails first, stage by
stage. -/
def reports : List (List String × List String) :=
  [(["get", "missing", "-a0", "--id=zz", "--config=none"],
    ["Error: Failed to load config", "", "Caused by:",
     "    0: IO error reading none: No such file or directory (os error 2)",
     "    1: No such file or directory (os error 2)"]),
   (["get", "missing", "-a0", "--id=zz", "--size-of-offsets=9"],
    ["Error: invalid hex 'zz': Invalid character 'z' at position 0"]),
   (["get", "missing", "-a0", "--id=00", "--size-of-offsets=9"],
    ["Error: Invalid field widths: malformed structure at address 0: size of offsets must be " ++
       "1..=8 bytes, got 9", "", "Caused by:",
     "    malformed structure at address 0: size of offsets must be 1..=8 bytes, got 9"]),
   (["get", "missing", "-a0", "--id=00"],
    ["Error: Failed to open: missing", "", "Caused by:",
     "    No such file or directory (os error 2)"]),
   (["get", "heap", "-a1", "--id=00", "--size-of-offsets=1", "--size-of-lengths=1"],
    ["Error: Failed to read heap at 1 in heap", "", "Caused by:",
     "    0: error reading fractal heap at address 1",
     "    1: signature 'FRHP' not matched at address 1 (found [52, 48, 50, 00])"]),
   (["get", "heap", "-a0", "--id=00", "--size-of-offsets=1", "--size-of-lengths=1"],
    ["Error: heap identifiers are 3 bytes, got 1"]),
   (["get", "heap", "-a0", "--id=00ff01", "--size-of-offsets=1", "--size-of-lengths=1"],
    ["Error: Failed to resolve identifier", "", "Caused by:",
     "    corrupt reference at address 0: object at heap offset 255 of 1 bytes is outside the " ++
       "8 byte block at offset 8"])]

end DoublingHeap.Proofs.Stages
