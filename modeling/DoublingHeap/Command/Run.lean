import DoublingHeap.Bytes.HexDump
import DoublingHeap.Settings.Location
import DoublingHeap.Command.Arguments

/-! # Running a command

A run turns a command line, an environment and a view of files into an `Outcome`: the exit code, the
lines of the output, and the lines of log and report. The stages of a run follow each other in a
fixed order and the first that fails is reported; nothing is put out then. The settings come first,
whatever the command; an identifier is read before any heap file is opened.

A failure is told as a chain of texts: what failed, and below it what led to that, outermost first.
The report (`Report.lines`) shows the first text on a line of its own and the others indented after
a heading; if there are several they are numbered. Lines of one text stay below each other. -/

namespace DoublingHeap.Command.Report

/-- A number at the end of five places, with a colon. -/
def marker (n : Nat) : String := String.ofList ((toString n).toList.leftpad 5 ' ') ++ ": "

/-- The lines of a text, the first after `first` and the others after `other`. -/
def indented (first other text : String) : List String :=
  match text.toList.splitOn '\n' with
  | [] => []
  | line :: rest => (first ++ String.ofList line) :: rest.map (other ++ String.ofList ·)

/-- The lines of several texts with their numbers, from `n` on. -/
def numbered : Nat → List String → List String
  | _, [] => []
  | n, text :: rest => indented (marker n) "       " text ++ numbered (n + 1) rest

/-- The lines about what led to a failure. -/
def causes : List String → List String
  | [] => []
  | [cause] => ["", "Caused by:"] ++ indented "    " "    " cause
  | several => ["", "Caused by:"] ++ numbered 0 several

/-- The lines of the report on a failure and what led to it. -/
def lines (failure : String) (chain : List String) : List String :=
  indented "Error: " "" failure ++ causes chain

end DoublingHeap.Command.Report

namespace DoublingHeap.Command

/-- What a run leaves behind. -/
structure Outcome where
  exitCode : Nat
  output : List String
  /-- The lines of the log, and after them those of a report. -/
  diagnostics : List String
deriving DecidableEq, Repr

/-- A failure and what led to it, outermost first. -/
structure Failure where
  text : String
  chain : List String
deriving DecidableEq, Repr

namespace Failure

/-- The failure of a stage because of an error in a heap. -/
def ofHeapError (stage : String) (e : HeapError) : Failure := ⟨stage, e.message :: e.sources⟩

/-- The failure of a stage because of an error in the settings. -/
def ofSettingsError (stage : String) (e : SettingsError) : Failure :=
  ⟨stage, e.message :: e.sources⟩

end Failure

/-- The name of the program and its version. -/
def versionLine : String := "frhp 0.1.0"

/-- The image in the file at a path. A directory has no bytes to map. -/
def openImage (files : Files) (path : String) : Except Failure Image :=
  match files path with
  | .ok (.file content) => .ok ⟨content⟩
  | .ok .directory => .error ⟨"Failed to open: " ++ path, [OsError.noDevice.message]⟩
  | .error e => .error ⟨"Failed to open: " ++ path, [e.message]⟩

/-- The settings of a run: those of the file, with the widths of the command line. -/
def settings (files : Files) (env : Environment) (args : Arguments) : Except Failure Settings :=
  ((Settings.load files env args.config).mapError (.ofSettingsError "Failed to load config")).map
    fun s => s.withWidths args.offsetWidth args.lengthWidth

/-- The least severity that is logged. -/
def threshold (s : Settings) (args : Arguments) : Level := if args.verbose then .debug else s.level

/-- The heap at an address of a file, and what was logged while it was loaded. -/
def loadHeap (files : Files) (s : Settings) (level : Level) (file : String) (address : Nat) :
    List Event × Except Failure Heap :=
  match s.superblock with
  | .error e => ([], .error ⟨e.message, e.sources⟩)
  | .ok superblock =>
    match openImage files file with
    | .error failure => ([], .error failure)
    | .ok image =>
      let (events, heap) := Heap.load image superblock address s.heapOptions level
      (events, heap.mapError (.ofHeapError s!"Failed to read heap at {address} in {file}"))

/-! ### Inspecting a heap -/

/-- A number in base sixteen with its mark. -/
def hexNumber (n : Nat) : String := "0x" ++ String.ofList (Bytes.Hex.ofNat n)

/-- The line of a block. -/
def blockLine (b : DirectBlock) : String :=
  s!"  block @{hexNumber b.address}: offset={b.offset} size={b.size}"

/-- The heap and its blocks as text, a line for each. -/
def inspectText (file : String) (heap : Heap) : List String :=
  (file ++ ": " ++ heap.describe) :: heap.blocks.map blockLine

/-- A block as a JSON object. -/
def blockJson (b : DirectBlock) : Json :=
  .object
    [("address", .number b.address),
     ("block_offset", .number b.offset),
     ("size", .number b.size)]

/-- The heap and its blocks as a JSON object. -/
def inspectJson (file : String) (heap : Heap) : Json :=
  .object
    [("file", .text file),
     ("header", .object (heap.header.listing.map fun (name, n) => (name, .number n))),
     ("direct_blocks", .array (heap.blocks.map blockJson))]

/-- Lists a heap and its blocks. -/
def inspect (files : Files) (s : Settings) (level : Level) (file : String) (address : Nat)
    (json : Bool) : List Event × Except Failure (List String) :=
  let (events, heap) := loadHeap files s level file address
  (events, heap.map fun heap =>
    if json then (inspectJson file heap).pretty else inspectText file heap)

/-! ### Getting an object -/

/-- The bytes of an identifier that a text spells. -/
def identifierBytes (id : String) : Except Failure (List UInt8) :=
  (Text.ByteString.parse id).mapError fun e => ⟨"invalid hex '" ++ id ++ "': " ++ e.message, []⟩

/-- Shows the object that an identifier names. -/
def get (files : Files) (s : Settings) (level : Level) (file : String) (address : Nat)
    (id : String) : List Event × Except Failure (List String) :=
  match identifierBytes id with
  | .error failure => ([], .error failure)
  | .ok raw =>
    match loadHeap files s level file address with
    | (events, .error failure) => (events, .error failure)
    | (events, .ok heap) =>
      if raw.length ≠ heap.layout.idLength then
        (events, .error
          ⟨s!"heap identifiers are {heap.layout.idLength} bytes, got {raw.length}", []⟩)
      else
        let (more, bytes) := heap.resolve raw level
        (events ++ more,
          (bytes.mapError (.ofHeapError "Failed to resolve identifier")).map Bytes.HexDump.lines)

/-! ### The run -/

/-- What a command logs and puts out. -/
def perform (files : Files) (s : Settings) (level : Level) :
    Action → List Event × Except Failure (List String)
  | .inspect file address json => inspect files s level file address json
  | .get file address id => get files s level file address id
  | .version => ([], .ok [versionLine])

/-- The outcome of a run that logged events and came to a result. -/
def outcome (events : List Event) : Except Failure (List String) → Outcome
  | .ok output => ⟨0, output, events.map (·.line)⟩
  | .error failure => ⟨1, [], events.map (·.line) ++ Report.lines failure.text failure.chain⟩

/-- The run of a command line that has been understood. -/
def execute (files : Files) (env : Environment) (args : Arguments) : Outcome :=
  match settings files env args with
  | .error failure => outcome [] (.error failure)
  | .ok s =>
    let (events, result) := perform files s (threshold s args) args.action
    outcome events result

/-- How to use the program. -/
def usage : List String :=
  ["Usage: frhp [OPTIONS] <COMMAND>",
   "",
   "Commands:",
   "  inspect <FILE> --address <ADDRESS> [--json]        list the blocks of a heap",
   "  get <FILE> --address <ADDRESS> --id <ID>           show the object of an identifier",
   "  version                                            name the version",
   "",
   "Options:",
   "      --config <PATH>                settings to use instead of the user's",
   "      --size-of-offsets <BYTES>      width of addresses",
   "      --size-of-lengths <BYTES>      width of lengths",
   "  -v, --verbose                      log what is read",
   "  -h, --help                         show this text",
   "  -V, --version                      name the version"]

/-- The run of a command line. -/
def run (files : Files) (env : Environment) (words : List String) : Outcome :=
  match Arguments.parse words with
  | .ok args => execute files env args
  | .error .help => ⟨0, usage, []⟩
  | .error .version => ⟨0, [versionLine], []⟩
  | .error .misuse => ⟨2, [], usage⟩

theorem run_of_parse (files : Files) (env : Environment) {words : List String} {args : Arguments}
    (hparse : Arguments.parse words = .ok args) : run files env words = execute files env args := by
  unfold run
  rw [hparse]

/-- The paths that a run may ask for. -/
def paths (env : Environment) (words : List String) : List String :=
  match Arguments.parse words with
  | .error _ => []
  | .ok args =>
    let settings := (args.config.or env.configPath?).toList
    match args.action with
    | .inspect file _ _ => settings ++ [file]
    | .get file _ _ => settings ++ [file]
    | .version => settings

end DoublingHeap.Command
