/-!
The files of a machine as seen from a working directory, and the ways in which
reading and writing one of them can fail. A path is followed name by name, from
the root if it begins with a slash; every name but the last has to lead to a
directory, and a name is only judged where it is looked up.
-/

namespace BareBones.CommandLine

inductive FileError where
  | notFound
  | notDirectory
  | isDirectory
  | nameTooLong
  /-- The content is no UTF-8 text. -/
  | notText
  | other (cause : String)
deriving DecidableEq

def FileError.cause : FileError → String
  | notFound => "No such file or directory (os error 2)"
  | notDirectory => "Not a directory (os error 20)"
  | isDirectory => "Is a directory (os error 21)"
  | nameTooLong => "File name too long (os error 36)"
  | notText => "stream did not contain valid UTF-8"
  | other cause => cause

/-- Names on the way down from the root. -/
abbrev Place := List String

inductive Entry where
  | file (content : ByteArray)
  | directory
  /-- Reads as an empty file and keeps nothing that is written to it. -/
  | null

structure FileTree where
  /-- All entries but the root, each with the directories it stands in. -/
  entries : List (Place × Entry) := []
  /-- The working directory, where paths without a leading slash begin. -/
  here : Place := []

/-- The longest name an entry can have, in bytes. -/
def maxNameBytes : Nat := 255

/-- The longest path that is followed at all, in bytes. -/
def maxPathBytes : Nat := 4095

/-- The parts of a path between its slashes. -/
def pathSteps (path : String) : List String :=
  (path.toList.splitOnP (· = '/')).map String.ofList

/-- A path that ends in a slash can only name a directory. -/
def namesDirectory (path : String) : Bool := path.toList.getLast? = some '/'

namespace FileTree

/-- What stands at a place, if its last name can be looked up. -/
def lookup (t : FileTree) (place : Place) : Except FileError (Option Entry) :=
  match place.getLast? with
  | none => .ok (some .directory)
  | some name =>
    if maxNameBytes < name.utf8ByteSize then .error .nameTooLong
    else .ok (t.entries.lookup place)

/-- Follows steps from `start`, which has to be a directory for each of them. The
directory above the root is the root. -/
def resolve (t : FileTree) (start : Place) : List String → Except FileError Place
  | [] => .ok start
  | step :: rest =>
    match t.lookup start with
    | .error e => .error e
    | .ok none => .error .notFound
    | .ok (some .directory) =>
      if step = "" ∨ step = "." then t.resolve start rest
      else if step = ".." then t.resolve start.dropLast rest
      else t.resolve (start ++ [step]) rest
    | .ok (some _) => .error .notDirectory

/-- The place of a path, whether or not something is there. -/
def find (t : FileTree) (path : String) : Except FileError Place :=
  if maxPathBytes < path.utf8ByteSize then .error .nameTooLong
  else
    let start := if path.toList.head? = some '/' then [] else t.here
    t.resolve start ((pathSteps path).reverse.dropWhile (· = "")).reverse

/-- The text of a file. -/
def read (t : FileTree) (path : String) : Except FileError String := do
  match ← t.lookup (← t.find path) with
  | none => throw .notFound
  | some .directory => throw .isDirectory
  | some entry =>
    if namesDirectory path then throw .notDirectory
    match entry with
    | .file content =>
      match String.fromUTF8? content with
      | some text => return text
      | none => throw .notText
    | _ => return ""

/-- The tree with `entry` at `place`, in the position of what was there before. -/
def insert (t : FileTree) (place : Place) (entry : Entry) : FileTree :=
  if (t.entries.lookup place).isSome then
    { t with entries := t.entries.map fun e => if e.1 = place then (place, entry) else e }
  else { t with entries := t.entries ++ [(place, entry)] }

/-- Creates a file or replaces its content. -/
def write (t : FileTree) (path : String) (text : String) : Except FileError FileTree := do
  let place ← t.find path
  if namesDirectory path then throw .isDirectory
  match ← t.lookup place with
  | some .directory => throw .isDirectory
  | some .null => return t
  | _ => return t.insert place (.file text.toUTF8)

/-- Adds the directories on the way to `place` and `place` itself. -/
def addDirectories (t : FileTree) (place : Place) : FileTree :=
  (List.range place.length).foldl (fun t n => t.insert (place.take (n + 1)) .directory) t

/-- Adds a file and the directories it stands in. -/
def addFile (t : FileTree) (place : Place) (content : ByteArray) : FileTree :=
  (t.addDirectories place.dropLast).insert place (.file content)

/-- An empty working directory, on a machine with no other places than those that
every one has. -/
def fresh : FileTree :=
  { entries := [(["dev"], .directory), (["dev", "null"], .null), (["tmp"], .directory),
      (["tmp", "work"], .directory)]
    here := ["tmp", "work"] }

/-- The files below the working directory that are new in `t` or differ from those
of `old`, by their places below it. -/
def changedSince (t old : FileTree) : List (Place × ByteArray) :=
  (t.entries.filter fun e => t.here.isPrefixOf e.1).filterMap fun e =>
    match e.2, old.entries.lookup e.1 with
    | .file content, some (.file before) =>
      if content == before then none else some (e.1.drop t.here.length, content)
    | .file content, _ => some (e.1.drop t.here.length, content)
    | _, _ => none

end FileTree

end BareBones.CommandLine
