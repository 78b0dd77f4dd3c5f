import Mathlib.Data.List.Basic
import DoublingHeap.Settings.Location

/-! # Where the user's settings are looked up

The settings of a user may be in one of two places, below the directory for configuration or below
the home directory (`candidates`). They are documented to be those in the first place where
something is, and the defaults if nothing is in either (`documented`). What is there and cannot be
used is an error, for one of five reasons (`Unusable`).

The search for the directory ends with the first variable that is set. So the documented settings
are found, except where the first place is empty and the second is not (`Shadowed`): there the
settings in the home directory are passed over, and the defaults hold. -/

namespace DoublingHeap.Proofs.Lookup

open DoublingHeap.Settings

variable {files : Files} {env : Environment} {path : String} {e : SettingsError}

/-- The path of the settings below a directory. -/
def settingsBelow (directory : String) : String :=
  Path.join (Path.join directory "frhp") "config.toml"

/-- The paths where the user's settings may be, in the order in which they count. -/
def candidates (env : Environment) : List String :=
  (env.configHome.map settingsBelow).toList
    ++ (env.home.map fun home => settingsBelow (Path.join home ".config")).toList

/-- The settings of the first candidate where something is, or else the defaults. -/
def documented (files : Files) (env : Environment) : Except SettingsError Settings :=
  match (candidates env).find? files.occupied with
  | some path => read files path
  | none => .ok .default

/-- Nothing is at the first candidate, but something is at one behind it. -/
def Shadowed (files : Files) (env : Environment) : Prop :=
  ∃ first rest, candidates env = first :: rest ∧ files.occupied first = false ∧
    ∃ path ∈ rest, files.occupied path = true

/-- **Something is at a path, but there are no settings in it**, for the reason that is given. -/
inductive Unusable (files : Files) (path : String) : SettingsError → Prop
  | unreadable {cause : OsError} (hpath : files path = .error (.unreadable cause)) :
      Unusable files path (.unreadable path (.unreadable cause))
  | directory (hpath : files path = .ok .directory) :
      Unusable files path (.unreadable path .isDirectory)
  | notText {content : ByteArray} (hpath : files path = .ok (.file content))
      (htext : Bytes.Utf8.decode? content = none) : Unusable files path (.notText path)
  | notDocument {content : ByteArray} {text : String} (hpath : files path = .ok (.file content))
      (htext : Bytes.Utf8.decode? content = some text) (hparse : Toml.parse text = none) :
      Unusable files path .notDocument
  | wrongKind {content : ByteArray} {text : String} {document : List (String × Toml.Value)}
      (hpath : files path = .ok (.file content))
      (htext : Bytes.Utf8.decode? content = some text) (hparse : Toml.parse text = some document)
      (hkind : ofDocument? document = none) : Unusable files path .wrongKind

/-! ### Reading a file of settings -/

theorem parse_eq_error_iff {text : String} :
    parse text = .error e ↔
      (Toml.parse text = none ∧ e = .notDocument) ∨
      ∃ document, Toml.parse text = some document ∧ ofDocument? document = none ∧
        e = .wrongKind := by
  unfold parse
  cases hparse : Toml.parse text with
  | none => simp [eq_comm]
  | some document =>
    cases hkind : ofDocument? document with
    | none => simp [hkind, eq_comm]
    | some s => simp [hkind]

theorem Unusable.read_eq (h : Unusable files path e) : read files path = .error e := by
  unfold Settings.read readText
  cases h with
  | unreadable hpath => rw [hpath]; rfl
  | directory hpath => rw [hpath]; rfl
  | notText hpath htext =>
    simp only [hpath, htext]
    rfl
  | notDocument hpath htext hparse =>
    simp only [hpath, htext]
    exact parse_eq_error_iff.mpr (.inl ⟨hparse, rfl⟩)
  | wrongKind hpath htext hparse hkind =>
    simp only [hpath, htext]
    exact parse_eq_error_iff.mpr (.inr ⟨_, hparse, hkind, rfl⟩)

/-- **Reading what is at a path** fails exactly if it is unusable, and for that reason. -/
theorem read_eq_error_iff (hthere : files.occupied path = true) :
    read files path = .error e ↔ Unusable files path e := by
  refine ⟨fun hread => ?_, Unusable.read_eq⟩
  unfold Files.occupied at hthere
  unfold Settings.read readText at hread
  cases hpath : files path with
  | error cause =>
    rw [hpath] at hthere hread
    cases cause with
    | unreadable cause =>
      cases hread
      exact .unreadable hpath
    | notFound | permissionDenied | noDevice | notDirectory | isDirectory | nameTooLong | nulInName
    | other => cases hthere
  | ok entry =>
    cases entry with
    | directory =>
      rw [hpath] at hread
      cases hread
      exact .directory hpath
    | file content =>
      cases htext : Bytes.Utf8.decode? content with
      | none =>
        simp only [hpath, htext] at hread
        cases hread
        exact .notText hpath htext
      | some text =>
        simp only [hpath, htext] at hread
        rcases parse_eq_error_iff.mp hread with ⟨hparse, rfl⟩ | ⟨document, hparse, hkind, rfl⟩
        · exact .notDocument hpath htext hparse
        · exact .wrongKind hpath htext hparse hkind

theorem read_congr {files' : Files} (hpath : files' path = files path) :
    read files' path = read files path := by
  unfold Settings.read readText
  rw [hpath]

/-! ### The user's settings -/

theorem configPath?_eq_head? (hdata : env.appData = none) :
    env.configPath? = (candidates env).head? := by
  unfold Environment.configPath? Environment.configDirectory? candidates
  rw [hdata]
  cases env.configHome <;> cases env.home <;> rfl

theorem load_none (hdata : env.appData = none) :
    load files env none = match (candidates env).head?.filter files.occupied with
      | some path => read files path
      | none => .ok .default := by
  rw [← configPath?_eq_head? hdata]
  rfl

/-- The first candidate is the one that counts, unless it is empty and another is not. -/
theorem find?_eq_filter_head? (hclear : ¬ Shadowed files env) :
    (candidates env).find? files.occupied = (candidates env).head?.filter files.occupied := by
  cases hpaths : candidates env with
  | nil => rfl
  | cons first rest =>
    rw [List.find?_cons, List.head?_cons, Option.filter_some]
    cases hfirst : files.occupied first with
    | true => rfl
    | false =>
      refine List.find?_eq_none.mpr fun path hmem hthere => hclear ?_
      exact ⟨first, rest, hpaths, hfirst, path, hmem, hthere⟩

/-- **Settings that are not shadowed** are found as it is documented. -/
theorem load_eq_documented (hdata : env.appData = none) (hclear : ¬ Shadowed files env) :
    load files env none = documented files env := by
  unfold documented
  rw [load_none hdata, find?_eq_filter_head? hclear]

theorem load_of_shadowed (hdata : env.appData = none) (hshadowed : Shadowed files env) :
    load files env none = .ok .default ∧
      ∃ path, (candidates env).find? files.occupied = some path ∧
        documented files env = read files path := by
  obtain ⟨first, rest, hpaths, hfirst, path, hmem, hthere⟩ := hshadowed
  constructor
  · rw [load_none hdata, hpaths, List.head?_cons, Option.filter_some, hfirst]
    rfl
  · obtain ⟨found, hfound⟩ : ∃ found, (candidates env).find? files.occupied = some found := by
      rw [hpaths, ← Option.isSome_iff_exists, List.find?_isSome]
      exact ⟨path, List.mem_cons_of_mem _ hmem, hthere⟩
    refine ⟨found, hfound, ?_⟩
    unfold documented
    rw [hfound]

/-- **Where settings come from.** A given file is read, and nothing else counts then. Without one,
in an environment whose variables for configuration are the directory for configuration and the home
directory, the documented settings are found: those of the first candidate where something is, or
the defaults where nothing is; and if what is there cannot be used, for whatever reason, the result
is that error and nothing takes its place.

The exception are settings in the home directory where the other variable leads to nothing. They are
passed over, and the defaults hold whatever the settings say. -/
theorem settings_looked_up (files : Files) (env : Environment) (hdata : env.appData = none) :
    (∀ path, load files env (some path) = read files path ∧
      ∀ files' env', files' path = files path →
        load files' env' (some path) = load files env (some path)) ∧
    (¬ Shadowed files env →
      load files env none = documented files env ∧
      ∀ path, (candidates env).find? files.occupied = some path →
        load files env none = read files path ∧
        ∀ e, load files env none = .error e ↔ Unusable files path e) ∧
    (Shadowed files env →
      load files env none = .ok .default ∧
      ∃ path, (candidates env).find? files.occupied = some path ∧
        documented files env = read files path) := by
  refine ⟨fun path => ⟨rfl, fun files' env' hpath => read_congr hpath⟩, fun hclear => ?_,
    load_of_shadowed hdata⟩
  have hload := load_eq_documented hdata hclear
  refine ⟨hload, fun path hfound => ?_⟩
  have hread : load files env none = read files path := by
    rw [hload]
    unfold documented
    rw [hfound]
  refine ⟨hread, fun e => ?_⟩
  rw [hread]
  exact read_eq_error_iff (List.find?_some hfound)

/-- An environment with a directory for configuration and a home directory. -/
def bothPlaces : Environment where
  configHome := some "xdg"
  home := some "home"

/-- Settings in the home directory. -/
def atHome : Files := fun path =>
  if path = "home/.config/frhp/config.toml" then
    .ok (.file "[format]\nsize_of_offsets = 4\n".toUTF8)
  else .error .notFound

/-- Settings in the home directory, and a directory where the other settings would be. -/
def blocked : Files := fun path =>
  if path = "xdg/frhp/config.toml" then .ok .directory else atHome path

/-- A directory in the first place is an error, and the settings behind it are not read. -/
theorem blocked_settings_fail :
    bothPlaces.appData = none ∧ ¬ Shadowed blocked bothPlaces ∧
      load blocked bothPlaces none
        = .error (.unreadable "xdg/frhp/config.toml" .isDirectory) := by
  have hpaths : candidates bothPlaces
      = ["xdg/frhp/config.toml", "home/.config/frhp/config.toml"] := by decide +kernel
  have hthere : blocked.occupied "xdg/frhp/config.toml" = true := by decide +kernel
  have hclear : ¬ Shadowed blocked bothPlaces := by
    rintro ⟨first, rest, hfirst, hempty, -⟩
    cases hpaths.symm.trans hfirst
    cases hthere.symm.trans hempty
  have hfound : (candidates bothPlaces).find? blocked.occupied = some "xdg/frhp/config.toml" := by
    rw [hpaths]
    exact List.find?_cons_of_pos hthere
  obtain ⟨-, hloads, -⟩ := settings_looked_up blocked bothPlaces rfl
  have hunusable : Unusable blocked "xdg/frhp/config.toml"
      (.unreadable "xdg/frhp/config.toml" .isDirectory) := .directory (if_pos rfl)
  exact ⟨rfl, hclear, (((hloads hclear).2 _ hfound).2 _).mpr hunusable⟩

/-- Settings in the home directory are passed over, where they ought to be found. -/
theorem home_settings_passed_over :
    Shadowed atHome bothPlaces ∧
      documented atHome bothPlaces = .ok ⟨4, 8, false, .info⟩ ∧
      load atHome bothPlaces none = .ok ⟨8, 8, false, .info⟩ ∧
      load atHome bothPlaces none ≠ documented atHome bothPlaces := by
  have hpaths : candidates bothPlaces
      = ["xdg/frhp/config.toml", "home/.config/frhp/config.toml"] := by decide +kernel
  have hdocumented : documented atHome bothPlaces = .ok ⟨4, 8, false, .info⟩ := by decide +kernel
  have hload : load atHome bothPlaces none = .ok ⟨8, 8, false, .info⟩ := by decide +kernel
  refine ⟨⟨_, _, hpaths, by decide +kernel, _, List.mem_singleton.mpr rfl, by decide +kernel⟩,
    hdocumented, hload, fun hsame => ?_⟩
  rw [hdocumented, hload] at hsame
  cases hsame

end DoublingHeap.Proofs.Lookup
