import DoublingHeap.Settings.Basic
import DoublingHeap.Toml.Document

/-! # Settings in a TOML document

The document has three sections, `format`, `heap` and `log`, which are tables with a key for each
setting. A section may also be an array of its values in order. What the document leaves out has its
default, and keys without a meaning are passed over; a value of the wrong kind makes the whole
document an error. -/

namespace DoublingHeap.Settings

open Toml (Value)

/-- A section of the document: values by key, or values in order. -/
inductive Section where
  | keyed (entries : List (String × Value))
  | listed (items : List Value)

/-- The section of a name. A section that is left out has no values, nor has a moment. -/
def section? (name : String) (document : List (String × Value)) : Option Section :=
  match Toml.find? name document with
  | none => some (.keyed [])
  | some (.table entries) => some (.keyed entries)
  | some (.array items) => some (.listed items)
  | some (.moment _) => some (.keyed [])
  | some _ => none

/-- The value of a setting, by its key or by its place. -/
def Section.value? (s : Section) (key : String) (place : Nat) : Option Value :=
  match s with
  | .keyed entries => Toml.find? key entries
  | .listed items => items[place]?

/-- A width: a whole number below 256. -/
def width? : Value → Option Nat
  | .integer n => if 0 ≤ n ∧ n < 256 then some n.toNat else none
  | _ => none

/-- A choice between yes and no. -/
def flag? : Value → Option Bool
  | .boolean b => some b
  | _ => none

/-- Whether a value has nothing in it. -/
def isVoid : Value → Bool
  | .table [] => true
  | .array [] => true
  | _ => false

/-- A level by its name: a text, or a table whose only key is the name and has nothing in it. -/
def level? : Value → Option Level
  | .text name => Level.ofName? name
  | .table [(name, value)] => if isVoid value then Level.ofName? name else none
  | _ => none

/-- The setting that a value stands for; a setting that is left out has its default. -/
def orDefault {α : Type} (read : Value → Option α) (default : α) : Option Value → Option α
  | none => some default
  | some value => read value

/-- The settings of a document. -/
def ofDocument? (document : List (String × Value)) : Option Settings := do
  let format ← section? "format" document
  let heap ← section? "heap" document
  let log ← section? "log" document
  return {
    offsetWidth := ← orDefault width? default.offsetWidth (format.value? "size_of_offsets" 0)
    lengthWidth := ← orDefault width? default.lengthWidth (format.value? "size_of_lengths" 1)
    legacyInlineIds := ← orDefault flag? default.legacyInlineIds (heap.value? "legacy_inline_ids" 0)
    level := ← orDefault level? default.level (log.value? "level" 0) }

/-- The settings that a text describes. -/
def parse (text : String) : Except SettingsError Settings :=
  match Toml.parse text with
  | none => .error .notDocument
  | some document =>
    match ofDocument? document with
    | none => .error .wrongKind
    | some settings => .ok settings

end DoublingHeap.Settings
