import DoublingHeap.Bytes.Utf8
import DoublingHeap.Settings.Document

/-! # Where settings are found

The settings of a user are in a file `config.toml` in the user's configuration directory, which the
environment names. `Settings.load` reads a given file, or else the user's. A user without such a
file has the defaults; a given file has to be there. -/

namespace DoublingHeap

/-- The variables of the environment that name a place for configuration, where they are set. -/
structure Environment where
  configHome : Option String := none
  home : Option String := none
  appData : Option String := none
deriving DecidableEq, Repr, Inhabited

namespace Environment

/-- The user's configuration directory. The first variable that is set decides, even if it leads
nowhere. -/
def configDirectory? (env : Environment) : Option String :=
  match env.configHome, env.home, env.appData with
  | some directory, _, _ => some (Path.join directory "frhp")
  | none, some home, _ => some (Path.join (Path.join home ".config") "frhp")
  | none, none, some data => some (Path.join data "frhp")
  | none, none, none => none

/-- The path of the user's settings. -/
def configPath? (env : Environment) : Option String :=
  env.configDirectory?.map fun directory => Path.join directory "config.toml"

end Environment

namespace Settings

/-- The text of the file at a path. -/
def readText (files : Files) (path : String) : Except SettingsError String :=
  match files path with
  | .error cause => .error (.unreadable path cause)
  | .ok .directory => .error (.unreadable path .isDirectory)
  | .ok (.file content) =>
    match Bytes.Utf8.decode? content with
    | some text => .ok text
    | none => .error (.notText path)

/-- The settings in the file at a path. -/
def read (files : Files) (path : String) : Except SettingsError Settings :=
  (readText files path).bind parse

/-- The path of the settings to be read: the given one, or else the user's if something is there. -/
def source? (files : Files) (env : Environment) : Option String → Option String
  | some path => some path
  | none => env.configPath?.filter files.occupied

/-- The settings in the given file, or else the user's, or else the defaults. -/
def load (files : Files) (env : Environment) (given : Option String) :
    Except SettingsError Settings :=
  match source? files env given with
  | some path => read files path
  | none => .ok default

end Settings

end DoublingHeap
