import DoublingHeap.Files
import DoublingHeap.Heap

/-! # Settings

What a heap file does not say comes from settings: the widths of its superblock, how identifiers of
the unassigned addressing mode are read, and how much is logged. Widths are numbers below 256 here;
`Settings.superblock` tests whether they are widths of a superblock. -/

namespace DoublingHeap

/-- How heap files are read. -/
structure Settings where
  offsetWidth : Nat
  lengthWidth : Nat
  legacyInlineIds : Bool
  level : Level
deriving DecidableEq, Repr

/-- Why there are no settings. -/
inductive SettingsError where
  /-- The file at a path cannot be read. -/
  | unreadable (path : String) (cause : OsError)
  /-- The file holds bytes that are no text. -/
  | notText (path : String)
  /-- The text is no TOML document. -/
  | notDocument
  /-- A section or a value of the document is not of the kind that it has to be. -/
  | wrongKind
  /-- The widths are not those of a superblock. -/
  | widths (cause : HeapError)
deriving DecidableEq, Repr

namespace SettingsError

/-- The texts of what led to an error, outermost first. For a document, a text here stands in for
the message of the library that reads TOML, which also tells the place in the text. -/
def sources : SettingsError → List String
  | unreadable _ cause => [cause.message]
  | notText _ => ["stream did not contain valid UTF-8"]
  | notDocument => ["not a TOML document"]
  | wrongKind => ["a setting is of the wrong kind"]
  | widths cause => cause.message :: cause.sources

/-- What an error is about. -/
def subject : SettingsError → String
  | unreadable path _ | notText path => "IO error reading " ++ path
  | notDocument | wrongKind => "Config parse error"
  | widths _ => "Invalid field widths"

/-- The text of an error. -/
def message (e : SettingsError) : String := e.subject ++ ": " ++ e.sources.headD ""

end SettingsError

namespace Settings

/-- The settings that hold where nothing else is said. -/
def default : Settings := ⟨8, 8, false, .info⟩

instance : Inhabited Settings := ⟨default⟩

/-- The settings with other widths, where they are given. -/
def withWidths (s : Settings) (offsets lengths : Option Nat) : Settings :=
  { s with offsetWidth := offsets.getD s.offsetWidth, lengthWidth := lengths.getD s.lengthWidth }

/-- The superblock with the widths of the settings. -/
def superblock (s : Settings) : Except SettingsError Superblock :=
  (Superblock.ofWidths s.offsetWidth s.lengthWidth).mapError .widths

/-- How a heap is to be loaded. -/
def heapOptions (s : Settings) : Heap.Options := ⟨s.legacyInlineIds⟩

/-- The settings as a JSON object of sections. -/
def toJson (s : Settings) : Json :=
  .object
    [("format", .object
        [("size_of_offsets", .number s.offsetWidth), ("size_of_lengths", .number s.lengthWidth)]),
     ("heap", .object [("legacy_inline_ids", .flag s.legacyInlineIds)]),
     ("log", .object [("level", .text s.level.name)])]

end Settings

end DoublingHeap
