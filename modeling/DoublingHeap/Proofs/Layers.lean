import DoublingHeap.Command.Run
import DoublingHeap.Proofs.DistinctKeys

/-! # Layers of settings

A `Setting` has a key in a section of the document, values that it may have there, and a default.
Its effective value is the one of the command line, or else the one that the document holds, or else
the default (`Setting.Effective`). A document *holds* a value if the value stands at its key,
wherever that is (`Holds`), so neither the order nor anything else in the document counts.

`settings_layered` says that the settings of a run are made of the effective values, one by one. A
value of the wrong kind makes the whole document an error, even if it would not be effective
(`Setting.Wrong`); whether the effective widths are those of a superblock is another question, which
comes after it. -/

namespace DoublingHeap.Proofs.Layers

open DoublingHeap.Toml (Value)
open DoublingHeap.Settings DoublingHeap.Command
open DoublingHeap.Proofs.DistinctKeys

/-- The entries of a document. -/
abbrev Document : Type := List (String × Value)

/-- A value stands at a key of a section. -/
def Holds (document : Document) (name key : String) (v : Value) : Prop :=
  ∃ entries, (name, .table entries) ∈ document ∧ (key, v) ∈ entries

/-- The sections of the settings are tables, as far as there are any. -/
def Sectioned (document : Document) : Prop :=
  ∀ name ∈ ["format", "heap", "log"], ∀ v, (name, v) ∈ document → ∃ entries, v = .table entries

/-! ### Settings one by one -/

/-- What there is to say about one of the settings. -/
structure Setting (α : Type) where
  table : String
  key : String
  /-- What a value in the document stands for. -/
  Means : Value → α → Prop
  default : α

namespace Setting

variable {α : Type} (setting : Setting α) (document : Document)

/-- The document holds a value that stands for nothing. -/
def Wrong : Prop :=
  ∃ v, Holds document setting.table setting.key v ∧ ∀ a, ¬ setting.Means v a

/-- **The effective value of a setting**, where the command line may give one. -/
inductive Effective (given : Option α) : α → Prop
  | given {a : α} (ha : given = some a) : Effective given a
  | held {v : Value} {a : α} (hnone : given = none)
      (hv : Holds document setting.table setting.key v) (ha : setting.Means v a) :
      Effective given a
  | default (hnone : given = none) (h : ∀ v, ¬ Holds document setting.table setting.key v) :
      Effective given setting.default

end Setting

/-- A width is a whole number below 256. -/
inductive IsWidth : Value → Nat → Prop
  | intro (n : Nat) (hn : n < 256) : IsWidth (.integer n) n

/-- A choice is one of the truth values. -/
inductive IsChoice : Value → Bool → Prop
  | intro (b : Bool) : IsChoice (.boolean b) b

/-- A level is given by its name, as a text or as the only key of a table. -/
inductive IsLevel : Value → Level → Prop
  | name (l : Level) : IsLevel (.text l.name) l
  | key (l : Level) {v : Value} (hvoid : isVoid v = true) : IsLevel (.table [(l.name, v)]) l

/-- The width of addresses. -/
def offsets : Setting Nat := ⟨"format", "size_of_offsets", IsWidth, 8⟩

/-- The width of lengths. -/
def lengths : Setting Nat := ⟨"format", "size_of_lengths", IsWidth, 8⟩

/-- How identifiers of the unassigned mode are read. -/
def inlineIds : Setting Bool := ⟨"heap", "legacy_inline_ids", IsChoice, false⟩

/-- How much is logged. -/
def level : Setting Level := ⟨"log", "level", IsLevel, .info⟩

/-- One of the settings is wrong in the document. -/
def AnyWrong (document : Document) : Prop :=
  offsets.Wrong document ∨ lengths.Wrong document ∨ inlineIds.Wrong document ∨
    level.Wrong document

/-- The places of the settings in a document. -/
def places : List (String × String) :=
  [("format", "size_of_offsets"), ("format", "size_of_lengths"), ("heap", "legacy_inline_ids"),
    ("log", "level")]

/-! ### What values stand for -/

theorem width?_eq_some_iff {v : Value} {n : Nat} : width? v = some n ↔ IsWidth v n := by
  constructor
  · intro h
    unfold width? at h
    split at h
    · rename_i i
      split at h
      · rename_i hi
        cases h
        have hn : ((i.toNat : Nat) : Int) = i := Int.toNat_of_nonneg hi.1
        have hwidth := IsWidth.intro i.toNat (by omega)
        rwa [hn] at hwidth
      · cases h
    · cases h
  · rintro ⟨n, hn⟩
    have hrange : (0 : Int) ≤ n ∧ (n : Int) < 256 := by omega
    simp only [width?, if_pos hrange, Int.toNat_natCast]

theorem flag?_eq_some_iff {v : Value} {b : Bool} : flag? v = some b ↔ IsChoice v b := by
  constructor
  · intro h
    unfold flag? at h
    split at h
    · cases h
      exact .intro _
    · cases h
  · rintro ⟨b⟩
    rfl

theorem name_of_ofName? {name : String} {l : Level} (h : Level.ofName? name = some l) :
    l.name = name := by
  unfold Level.ofName? at h
  have hname := List.find?_some h
  exact eq_of_beq hname

theorem level?_eq_some_iff {v : Value} {l : Level} : level? v = some l ↔ IsLevel v l := by
  constructor
  · intro h
    unfold level? at h
    split at h
    · rw [← name_of_ofName? h]
      exact .name l
    · split at h
      · rename_i hvoid
        rw [← name_of_ofName? h]
        exact .key l hvoid
      · cases h
    · cases h
  · intro h
    cases h with
    | name => exact Level.ofName?_name l
    | key _ hvoid => exact (if_pos hvoid).trans (Level.ofName?_name l)

/-! ### Settings of a document -/

section Document

variable {document document' : Document} {α : Type}

/-- At one place there is one value at most. -/
theorem holds_unique (hproper : Proper (.table document)) {name key : String} {v v' : Value}
    (h : Holds document name key v) (h' : Holds document name key v') : v = v' := by
  obtain ⟨entries, hsection, hmem⟩ := h
  obtain ⟨entries', hsection', hmem'⟩ := h'
  cases hproper with
  | table hkeys hvalues =>
    have hsame := ((find?_eq_some_iff hkeys).mpr hsection).symm.trans
      ((find?_eq_some_iff hkeys).mpr hsection')
    cases hsame
    cases hvalues _ hsection with
    | table hkeys =>
      exact Option.some.inj (((find?_eq_some_iff hkeys).mpr hmem).symm.trans
        ((find?_eq_some_iff hkeys).mpr hmem'))

theorem exists_section (hproper : Proper (.table document)) {name : String}
    (htable : ∀ v, (name, v) ∈ document → ∃ entries, v = .table entries) :
    ∃ entries, section? name document = some (.keyed entries) ∧
      ∀ key v, Toml.find? key entries = some v ↔ Holds document name key v := by
  cases hproper with
  | table hkeys hvalues =>
    unfold section?
    cases hfind : Toml.find? name document with
    | none =>
      refine ⟨[], rfl, fun key v => ⟨nofun, fun ⟨entries, hmem, _⟩ => ?_⟩⟩
      cases hfind.symm.trans ((find?_eq_some_iff hkeys).mpr hmem)
    | some value =>
      have hmem := mem_of_find? hfind
      obtain ⟨entries, rfl⟩ := htable value hmem
      refine ⟨entries, rfl, fun key v => ?_⟩
      cases hvalues _ hmem with
      | table hkeys' =>
        rw [find?_eq_some_iff hkeys']
        refine ⟨fun hv => ⟨entries, hmem, hv⟩, fun ⟨entries', hmem', hv⟩ => ?_⟩
        cases hfind.symm.trans ((find?_eq_some_iff hkeys).mpr hmem')
        exact hv

theorem orDefault_eq_some_iff (setting : Setting α) {read : Value → Option α}
    (hread : ∀ {v a}, read v = some a ↔ setting.Means v a) {o : Option Value}
    (ho : ∀ v, o = some v ↔ Holds document setting.table setting.key v) {a : α} :
    orDefault read setting.default o = some a ↔ setting.Effective document none a := by
  cases o with
  | none =>
    have hnone : ∀ v, ¬ Holds document setting.table setting.key v :=
      fun v hv => nomatch (ho v).mpr hv
    constructor
    · intro h
      cases h
      exact .default rfl hnone
    · intro h
      cases h with
      | given ha => cases ha
      | held _ hv => exact absurd hv (hnone _)
      | default => rfl
  | some v =>
    have hv := (ho v).mp rfl
    constructor
    · exact fun h => .held rfl hv (hread.mp h)
    · intro h
      cases h with
      | given ha => cases ha
      | held _ hv' ha =>
        cases (ho _).mpr hv'
        exact hread.mpr ha
      | default _ hnone => exact absurd hv (hnone v)

/-- The settings that a document describes are its effective values. -/
structure Describes (document : Document) (s : Settings) : Prop where
  offsets : offsets.Effective document none s.offsetWidth
  lengths : lengths.Effective document none s.lengthWidth
  inlineIds : inlineIds.Effective document none s.legacyInlineIds
  level : level.Effective document none s.level

/-- **Settings are read** from a document exactly if it describes them. -/
theorem ofDocument?_eq_some_iff (hproper : Proper (.table document))
    (hsections : Sectioned document) {s : Settings} :
    ofDocument? document = some s ↔ Describes document s := by
  obtain ⟨format, hformat, hinFormat⟩ :=
    exists_section hproper (hsections "format" (by decide))
  obtain ⟨heap, hheap, hinHeap⟩ := exists_section hproper (hsections "heap" (by decide))
  obtain ⟨log, hlog, hinLog⟩ := exists_section hproper (hsections "log" (by decide))
  have hoffsets {n : Nat} := orDefault_eq_some_iff offsets width?_eq_some_iff
    (hinFormat "size_of_offsets") (a := n)
  have hlengths {n : Nat} := orDefault_eq_some_iff lengths width?_eq_some_iff
    (hinFormat "size_of_lengths") (a := n)
  have hinline {b : Bool} := orDefault_eq_some_iff inlineIds flag?_eq_some_iff
    (hinHeap "legacy_inline_ids") (a := b)
  have hlevel {l : Level} := orDefault_eq_some_iff level level?_eq_some_iff
    (hinLog "level") (a := l)
  unfold ofDocument?
  simp only [hformat, hheap, hlog, Section.value?, Option.bind_eq_bind, Option.bind_some,
    Option.bind_eq_some_iff]
  constructor
  · rintro ⟨o, ho, n, hn, b, hb, l, hl, heq⟩
    cases heq
    exact ⟨hoffsets.mp ho, hlengths.mp hn, hinline.mp hb, hlevel.mp hl⟩
  · rintro ⟨ho, hn, hb, hl⟩
    exact ⟨_, hoffsets.mpr ho, _, hlengths.mpr hn, _, hinline.mpr hb, _, hlevel.mpr hl, rfl⟩

theorem exists_effective_iff (hproper : Proper (.table document)) {setting : Setting α} :
    (∃ a, setting.Effective document none a) ↔ ¬ setting.Wrong document := by
  constructor
  · rintro ⟨a, heffective⟩ ⟨v, hv, hwrong⟩
    cases heffective with
    | given ha => cases ha
    | held _ hv' ha =>
      cases holds_unique hproper hv hv'
      exact hwrong a ha
    | default _ hnone => exact hnone v hv
  · intro hright
    by_cases hheld : ∃ v, Holds document setting.table setting.key v
    · obtain ⟨v, hv⟩ := hheld
      by_cases hmeans : ∃ a, setting.Means v a
      · obtain ⟨a, ha⟩ := hmeans
        exact ⟨a, .held rfl hv ha⟩
      · exact absurd ⟨v, hv, not_exists.mp hmeans⟩ hright
    · exact ⟨_, .default rfl (not_exists.mp hheld)⟩

theorem exists_describes_iff (hproper : Proper (.table document)) :
    (∃ s, Describes document s) ↔ ¬ AnyWrong document := by
  unfold AnyWrong
  rw [not_or, not_or, not_or, ← exists_effective_iff hproper, ← exists_effective_iff hproper,
    ← exists_effective_iff hproper, ← exists_effective_iff hproper]
  constructor
  · rintro ⟨s, ho, hn, hb, hl⟩
    exact ⟨⟨_, ho⟩, ⟨_, hn⟩, ⟨_, hb⟩, ⟨_, hl⟩⟩
  · rintro ⟨⟨o, ho⟩, ⟨n, hn⟩, ⟨b, hb⟩, ⟨l, hl⟩⟩
    exact ⟨⟨o, n, b, l⟩, ho, hn, hb, hl⟩

theorem effective_congr (setting : Setting α)
    (hsame : ∀ v, Holds document' setting.table setting.key v ↔
      Holds document setting.table setting.key v) {a : α} :
    setting.Effective document' none a ↔ setting.Effective document none a := by
  constructor
  · intro h
    cases h with
    | given ha => exact .given ha
    | held hnone hv ha => exact .held hnone ((hsame _).mp hv) ha
    | default hnone h => exact .default hnone fun v hv => h v ((hsame v).mpr hv)
  · intro h
    cases h with
    | given ha => exact .given ha
    | held hnone hv ha => exact .held hnone ((hsame _).mpr hv) ha
    | default hnone h => exact .default hnone fun v hv => h v ((hsame v).mp hv)

theorem describes_congr
    (hsame : ∀ place ∈ places, ∀ v,
      Holds document' place.1 place.2 v ↔ Holds document place.1 place.2 v) {s : Settings} :
    Describes document' s ↔ Describes document s := by
  have ho := effective_congr offsets (hsame ("format", "size_of_offsets") (by decide))
    (a := s.offsetWidth)
  have hn := effective_congr lengths (hsame ("format", "size_of_lengths") (by decide))
    (a := s.lengthWidth)
  have hb := effective_congr inlineIds (hsame ("heap", "legacy_inline_ids") (by decide))
    (a := s.legacyInlineIds)
  have hl := effective_congr level (hsame ("log", "level") (by decide)) (a := s.level)
  exact ⟨fun ⟨h₁, h₂, h₃, h₄⟩ => ⟨ho.mp h₁, hn.mp h₂, hb.mp h₃, hl.mp h₄⟩,
    fun ⟨h₁, h₂, h₃, h₄⟩ => ⟨ho.mpr h₁, hn.mpr h₂, hb.mpr h₃, hl.mpr h₄⟩⟩

end Document

/-! ### Settings of a run -/

theorem Setting.Effective.override {α : Type} {setting : Setting α} {document : Document} {a : α}
    (h : setting.Effective document none a) (given : Option α) :
    setting.Effective document given (given.getD a) := by
  cases given with
  | none => exact h
  | some b => exact .given rfl

/-- Widths of a superblock. -/
def Fits (s : Settings) : Prop :=
  (1 ≤ s.offsetWidth ∧ s.offsetWidth ≤ 8) ∧ 1 ≤ s.lengthWidth ∧ s.lengthWidth ≤ 8

theorem superblock_of_fits {s : Settings} (h : Fits s) :
    ∃ superblock, s.superblock = .ok superblock ∧ superblock.offsetWidth = s.offsetWidth ∧
      superblock.lengthWidth = s.lengthWidth := by
  unfold Settings.superblock Superblock.ofWidths
  rw [dif_pos h.1, dif_pos h.2]
  exact ⟨_, rfl, rfl, rfl⟩

theorem superblock_of_not_fits {s : Settings} (h : ¬ Fits s) :
    ∃ cause, s.superblock = .error (.widths cause) := by
  unfold Settings.superblock Superblock.ofWidths
  split
  · rename_i ho
    rw [dif_neg fun hl => h ⟨ho, hl⟩]
    exact ⟨_, rfl⟩
  · exact ⟨_, rfl⟩

theorem loadHeap_of_widths {s : Settings} {cause : HeapError}
    (h : s.superblock = .error (.widths cause)) (files : Files) (t : Level) (file : String)
    (address : Nat) :
    loadHeap files s t file address
      = ([], .error
          ⟨"Invalid field widths: " ++ cause.message, cause.message :: cause.sources⟩) := by
  unfold loadHeap
  rw [h]
  rfl

section Parsing

variable {text text' : String} {document document' : Document}

theorem load_eq_parse {files : Files} {env : Environment} {config : Option String} {path : String}
    (hsource : source? files env config = some path) (hread : readText files path = .ok text) :
    Settings.load files env config = Settings.parse text := by
  unfold load Settings.read
  rw [hsource]
  simp only [hread]
  rfl

theorem parse_of_wrong (hparse : Toml.parse text = some document) (hsections : Sectioned document)
    (hwrong : AnyWrong document) : Settings.parse text = .error .wrongKind := by
  have hproper := proper_of_parse hparse
  have hnone : ofDocument? document = none := by
    refine Option.eq_none_iff_forall_ne_some.mpr fun s hs => ?_
    have hdescribes := (ofDocument?_eq_some_iff hproper hsections).mp hs
    exact (exists_describes_iff hproper).mp ⟨s, hdescribes⟩ hwrong
  unfold Settings.parse
  simp only [hparse, hnone]

theorem parse_of_not_wrong (hparse : Toml.parse text = some document)
    (hsections : Sectioned document) (hright : ¬ AnyWrong document) :
    ∃ s, Settings.parse text = .ok s ∧ Describes document s := by
  have hproper := proper_of_parse hparse
  obtain ⟨s, hdescribes⟩ := (exists_describes_iff hproper).mpr hright
  have hsome := (ofDocument?_eq_some_iff hproper hsections).mpr hdescribes
  refine ⟨s, ?_, hdescribes⟩
  unfold Settings.parse
  simp only [hparse, hsome]

theorem parse_congr (hparse : Toml.parse text = some document)
    (hparse' : Toml.parse text' = some document') (hsections : Sectioned document)
    (hsections' : Sectioned document')
    (hsame : ∀ place ∈ places, ∀ v,
      Holds document' place.1 place.2 v ↔ Holds document place.1 place.2 v) :
    Settings.parse text' = Settings.parse text := by
  have hdocuments : ofDocument? document' = ofDocument? document := by
    refine Option.ext fun s => ?_
    rw [ofDocument?_eq_some_iff (proper_of_parse hparse') hsections',
      ofDocument?_eq_some_iff (proper_of_parse hparse) hsections]
    exact describes_congr hsame
  unfold Settings.parse
  simp only [hparse, hparse', hdocuments]

end Parsing

/-- **Settings are layered, one by one.** Let the settings of a run be in a TOML document whose
sections, as far as there are any, are tables. If a value that the document holds for a setting is
of the wrong kind, there are no settings, whatever the command line gives. Otherwise there are
settings, and each of them is the value of the command line, or else the one that the document
holds, or else the default; heaps are loaded with the option for identifiers among them. If the
widths are those of a superblock there is one with them, and else heaps are not loaded for that
reason.

All documents that hold the same values for the settings, in whatever order and with whatever else,
have the same settings. -/
theorem settings_layered (files : Files) (env : Environment) (args : Arguments)
    {path text : String} {document : Document} (hsource : source? files env args.config = some path)
    (hread : readText files path = .ok text) (hparse : Toml.parse text = some document)
    (hsections : Sectioned document) :
    (AnyWrong document →
      Command.settings files env args
        = .error (.ofSettingsError "Failed to load config" .wrongKind)) ∧
    (¬ AnyWrong document → ∃ s, Command.settings files env args = .ok s ∧
      offsets.Effective document args.offsetWidth s.offsetWidth ∧
      lengths.Effective document args.lengthWidth s.lengthWidth ∧
      inlineIds.Effective document none s.legacyInlineIds ∧
      level.Effective document none s.level ∧
      s.heapOptions.legacyInlineIds = s.legacyInlineIds ∧
      (Fits s → ∃ superblock, s.superblock = .ok superblock ∧
        superblock.offsetWidth = s.offsetWidth ∧ superblock.lengthWidth = s.lengthWidth) ∧
      (¬ Fits s → ∃ cause : HeapError, ∀ t file address, loadHeap files s t file address
        = ([], .error ⟨"Invalid field widths: " ++ cause.message,
            cause.message :: cause.sources⟩))) ∧
    ∀ text' document', Toml.parse text' = some document' → Sectioned document' →
      (∀ place ∈ places, ∀ v,
        Holds document' place.1 place.2 v ↔ Holds document place.1 place.2 v) →
      Settings.parse text' = Settings.parse text := by
  have hload := load_eq_parse hsource hread
  refine ⟨fun hwrong => ?_, fun hright => ?_, fun _ _ hparse' hsections' hsame =>
    parse_congr hparse hparse' hsections hsections' hsame⟩
  · unfold Command.settings
    rw [hload, parse_of_wrong hparse hsections hwrong]
    rfl
  · obtain ⟨s, hs, hdescribes⟩ := parse_of_not_wrong hparse hsections hright
    refine ⟨s.withWidths args.offsetWidth args.lengthWidth, ?_, hdescribes.offsets.override _,
      hdescribes.lengths.override _, hdescribes.inlineIds, hdescribes.level, rfl,
      superblock_of_fits, fun hfits => ?_⟩
    · unfold Command.settings
      rw [hload, hs]
      rfl
    · obtain ⟨cause, hcause⟩ := superblock_of_not_fits hfits
      exact ⟨cause, loadHeap_of_widths hcause files⟩

/-! ### A document -/

mutual

/-- Whether two values are the same. -/
def sameValue : Value → Value → Bool
  | .integer m, .integer n => m == n
  | .float s, .float t => s == t
  | .boolean b, .boolean c => b == c
  | .text s, .text t => s == t
  | .moment s, .moment t => s == t
  | .array items, .array items' => sameItems items items'
  | .table entries, .table entries' => sameEntries entries entries'
  | _, _ => false

/-- Whether two arrays have the same items. -/
def sameItems : List Value → List Value → Bool
  | [], [] => true
  | v :: rest, v' :: rest' => sameValue v v' && sameItems rest rest'
  | _, _ => false

/-- Whether two tables have the same entries, in the same order. -/
def sameEntries : Document → Document → Bool
  | [], [] => true
  | (key, v) :: rest, (key', v') :: rest' =>
    key == key' && sameValue v v' && sameEntries rest rest'
  | _, _ => false

end

theorem eq_of_same :
    (∀ v w, sameValue v w = true → v = w) ∧
      (∀ entries entries', sameEntries entries entries' = true → entries = entries') ∧
      ∀ items items', sameItems items items' = true → items = items' := by
  apply sameValue.mutual_induct
  case case10 =>
    intro v rest v' rest' hvalue hrest hsame
    obtain ⟨hv, hr⟩ := Bool.and_eq_true_iff.mp hsame
    rw [hvalue hv, hrest hr]
  case case13 =>
    intro key v rest key' v' rest' hvalue hrest hsame
    obtain ⟨hhead, hr⟩ := Bool.and_eq_true_iff.mp hsame
    obtain ⟨hkey, hv⟩ := Bool.and_eq_true_iff.mp hhead
    rw [beq_iff_eq.mp hkey, hvalue hv, hrest hr]
  -- the other cases have no rest, or are not the same
  all_goals simp_all [sameValue, sameItems, sameEntries]

/-- A text that describes settings, with something that is none of them, and a width that is too
large. -/
def mixed : String :=
  "log.level = \"debug\"\n[heap]\nother = 1\n[format]\nsize_of_lengths = 4\nsize_of_offsets = 9\n"

/-- The entries of the text. -/
def mixedEntries : Document :=
  [("log", .table [("level", .text "debug")]), ("heap", .table [("other", .integer 1)]),
    ("format", .table [("size_of_lengths", .integer 4), ("size_of_offsets", .integer 9)])]

/-- The text in a file. -/
def mixedFile : Files := fun path =>
  if path = "mixed.toml" then .ok (.file mixed.toUTF8) else .error .notFound

/-- Asks for the version, with settings of the file and a width for addresses. -/
def narrowed : Arguments := ⟨.version, some "mixed.toml", some 2, none, false⟩

/-- A width that is too large is none of the effective ones where another is given. -/
theorem mixed_layered :
    source? mixedFile {} narrowed.config = some "mixed.toml" ∧
      readText mixedFile "mixed.toml" = .ok mixed ∧ Toml.parse mixed = some mixedEntries ∧
      Sectioned mixedEntries ∧ ¬ AnyWrong mixedEntries ∧
      Command.settings mixedFile {} narrowed = .ok ⟨2, 4, false, .debug⟩ ∧
      offsets.Effective mixedEntries (some 2) 2 ∧ lengths.Effective mixedEntries none 4 ∧
      inlineIds.Effective mixedEntries none false ∧ level.Effective mixedEntries none .debug := by
  have hread : readText mixedFile "mixed.toml" = .ok mixed := by decide +kernel
  have hsame : (Toml.parse mixed).any (sameEntries mixedEntries) = true := by decide +kernel
  obtain ⟨document, hparse, hdocument⟩ := (Option.any_eq_true ..).mp hsame
  cases eq_of_same.2.1 _ _ hdocument
  have hsections : Sectioned mixedEntries := by
    have htables : ∀ entry ∈ mixedEntries, ∃ entries, entry.2 = .table entries := by
      simp [mixedEntries]
    exact fun name _ v hmem => htables (name, v) hmem
  have hright : ¬ AnyWrong mixedEntries := by
    refine (exists_describes_iff (proper_of_parse hparse)).mp ⟨⟨9, 4, false, .debug⟩, ?_⟩
    exact (ofDocument?_eq_some_iff (proper_of_parse hparse) hsections).mp rfl
  have hsettings : Command.settings mixedFile {} narrowed = .ok ⟨2, 4, false, .debug⟩ := by
    decide +kernel
  obtain ⟨-, hlayers, -⟩ := settings_layered mixedFile {} narrowed rfl hread hparse hsections
  obtain ⟨s, hs, ho, hn, hb, hl, -⟩ := hlayers hright
  cases hsettings.symm.trans hs
  exact ⟨rfl, hread, hparse, hsections, hright, hsettings, ho, hn, hb, hl⟩

end DoublingHeap.Proofs.Layers
