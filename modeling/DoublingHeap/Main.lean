import DoublingHeap.Command.Run

/-! # The program

Reads what a run may ask for, runs it, and writes its outcome. -/

open DoublingHeap

namespace DoublingHeap.Command

/-- The reason for which the system does not serve a path. -/
def reasonOf : IO.Error → OsError
  | .noFileOrDirectory .. => .notFound
  | .permissionDenied .. => .permissionDenied
  | .inappropriateType .. => .notDirectory
  | e => .other (toString e)

/-- What an open file holds; what can be opened and not read is a directory. -/
def contentOf (handle : IO.FS.Handle) : IO Entry :=
  try return .file (← handle.readBinToEnd) catch _ => return .directory

/-- Whether a path leads anywhere on the system. -/
def leadsSomewhere (path : String) : IO Bool :=
  try
    let _ ← IO.FS.realPath path
    return true
  catch _ => return false

/-- What a path leads to on the system. -/
def entryAt (path : String) : IO (Except OsError Entry) :=
  if path.isEmpty then return .error .notFound
  else
    try return .ok (← contentOf (← IO.FS.Handle.mk path .read))
    catch e =>
      let reason := reasonOf e
      return .error (if ← leadsSomewhere path then .unreadable reason else reason)

end DoublingHeap.Command

/-- Runs the command line. -/
def main (words : List String) : IO UInt32 := do
  let env : Environment :=
    ⟨← IO.getEnv "XDG_CONFIG_HOME", ← IO.getEnv "HOME", ← IO.getEnv "APPDATA"⟩
  let entries ← (Command.paths env words).mapM fun path =>
    return (path, ← Command.entryAt path)
  let files : Files := fun path =>
    ((entries.find? (·.1 == path)).map (·.2)).getD (.error .notFound)
  let outcome := Command.run files env words
  outcome.diagnostics.forM fun line => IO.eprintln line
  outcome.output.forM fun line => IO.println line
  return UInt32.ofNat outcome.exitCode
