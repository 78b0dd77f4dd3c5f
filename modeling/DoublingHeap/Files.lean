/-! # Files

A program sees files by their paths: a path leads to a file, to a directory, or to nothing that can
be read, for a reason (`OsError`). `Files` is this view, and `Files.occupied` tells whether anything
is at a path at all. A `FileTree` is a directory of files and gives such a view, relative to its
root. -/

namespace DoublingHeap

/-- Why the system does not serve a path. -/
inductive OsError where
  | notFound
  | permissionDenied
  | noDevice
  | notDirectory
  | isDirectory
  | nameTooLong
  | nulInName
  /-- Something is there, but it cannot be read, for this reason. -/
  | unreadable (cause : OsError)
  /-- Any other reason, in the system's words. -/
  | other (text : String)
deriving DecidableEq, Repr

/-- The system's words. -/
def OsError.message : OsError → String
  | .notFound => "No such file or directory (os error 2)"
  | .permissionDenied => "Permission denied (os error 13)"
  | .noDevice => "No such device (os error 19)"
  | .notDirectory => "Not a directory (os error 20)"
  | .isDirectory => "Is a directory (os error 21)"
  | .nameTooLong => "File name too long (os error 36)"
  | .nulInName => "file name contained an unexpected NUL byte"
  | .unreadable cause => cause.message
  | .other text => text

/-- What stands at a path. -/
inductive Entry where
  | file (content : ByteArray)
  | directory

/-- What each path leads to. -/
abbrev Files : Type := String → Except OsError Entry

/-- Whether something is at a path, be it readable or not. -/
def Files.occupied (files : Files) (path : String) : Bool :=
  match files path with
  | .ok _ => true
  | .error (.unreadable _) => true
  | .error _ => false

namespace Path

/-- The path of an entry of a directory. A path that starts with a slash stays as it is. -/
def join (directory entry : String) : String :=
  if entry.startsWith "/" then entry
  else if directory.isEmpty || directory.endsWith "/" then directory ++ entry
  else directory ++ "/" ++ entry

/-- The names in a path, between the slashes. Two slashes in a row have an empty name between them.
-/
def names (path : String) : List String := path.splitOn "/"

end Path

/-- The files below a directory, the root of the tree: the entries by their places. A place is the
run of names that leads to an entry from the root; it starts with two dots for each directory that
lies above the root on the way. Every directory on the way to an entry is an entry itself, and of
two entries at one place the first counts. -/
structure FileTree where
  entries : List (List String × Entry)

namespace FileTree

/-- The tree without files. -/
def empty : FileTree := ⟨[]⟩

/-- Whether a place is the root of a tree or a directory above it. -/
def isAbove (here : List String) : Bool := here.all (· == "..")

/-- The entry at a place. The directories above the tree are there, whatever their names. -/
def get? (tree : FileTree) (here : List String) : Option Entry :=
  if isAbove here then some .directory else (tree.entries.find? (·.1 == here)).map (·.2)

/-- The place that a name leads to. An empty name and a dot stay where they are and two dots lead
one directory up, but not from the topmost directory. -/
def next (topmost : Bool) (here : List String) (name : String) : List String :=
  if name == "" || name == "." then here
  else if name != ".." then here ++ [name]
  else if isAbove here then if topmost then here else here ++ [name]
  else here.dropLast

/-- The tree with an entry at the end of names that start at a place. The directories on the way to
it are made. -/
def insertFrom (tree : FileTree) (here : List String) : List String → Entry → FileTree
  | [], entry => ⟨(here, entry) :: tree.entries⟩
  | name :: rest, entry =>
    insertFrom ⟨(here, .directory) :: tree.entries⟩ (next false here name) rest entry

/-- The tree with an entry at the end of names that start at its root. -/
def insert (tree : FileTree) (names : List String) (entry : Entry) : FileTree :=
  tree.insertFrom [] names entry

/-- The usual directories of a system, right below the topmost one. -/
def usualDirectories : List String :=
  ["bin", "dev", "etc", "home", "lib", "proc", "root", "sbin", "sys", "tmp", "usr", "var"]

/-- The tree below the topmost directory, as far as all systems agree: the usual directories, and
the null device, which reads as an empty file. -/
def system : FileTree :=
  (usualDirectories.foldl (fun tree name => tree.insert [name] .directory) empty).insert
    ["dev", "null"] (.file .empty)

/-- The most bytes of a name. -/
def maxNameSize : Nat := 255

/-- Follows names from a place. Only directories have names below them. -/
def follow (tree : FileTree) (topmost : Bool) : List String → List String → Except OsError Entry
  | here, [] => (tree.get? here).elim (.error .notFound) .ok
  | here, name :: rest =>
    match tree.get? here with
    | none => .error .notFound
    | some (.file _) => .error .notDirectory
    | some .directory =>
      if maxNameSize < name.utf8ByteSize then .error .nameTooLong
      else follow tree topmost (next topmost here name) rest

/-- What a path leads to. Relative paths start at the root of the tree, and absolute paths at the
topmost directory of the system. -/
def lookup (tree : FileTree) : Files := fun path =>
  if path.contains '\x00' then .error .nulInName
  else if path.isEmpty then .error .notFound
  else if 4096 ≤ path.utf8ByteSize then .error .nameTooLong
  else if path.startsWith "/" then system.follow true [] (Path.names path)
  else tree.follow false [] (Path.names path)

end FileTree

end DoublingHeap
