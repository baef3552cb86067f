import ShiftReduce.Text.Input

/-!
# File systems

Plain files that are written and opened by their paths. A place is the list of names that lead to it
from the root. The working directory and everything above it and above a file are directories;
writing makes files, but no directories.

A path is followed name by name, from the root if it begins with a slash and otherwise from the
working directory (`follow`). Every step starts from a directory, so a path that goes on after a file
leads nowhere, be it only with a slash. An empty path leads nowhere either, and neither does one that
is too long (`longestPath`), whatever its names are, or that has too long a name (`longestName`).
-/

namespace ShiftReduce

/-- Names from the root down. -/
abbrev Place := List Bytes

/-- What opening a source comes to. A directory can be opened, but not read. -/
inductive Opening where
  | opened (input : Input)
  | directory
  | missing
deriving DecidableEq, Repr

structure FileSystem where
  workingDirectory : Place := []
  files : List (Place × Bytes) := []

namespace FileSystem

/-- The byte that separates the names of a path. -/
def separator : UInt8 := 0x2F

/-- The names of a path. Separators that meet have an empty name between them. -/
def names (path : Bytes) : List Bytes := path.splitOn separator

/-- The name of the directory that it is used in. -/
def here : Bytes := .ofAscii "."

/-- The name of the directory above the one that it is used in. -/
def above : Bytes := .ofAscii ".."

/-- The number of bytes in the longest name that a file can have. -/
def longestName : Nat := 255

/-- The number of bytes in the longest path that is followed: one less than 4096, which has room for
the zero byte that ends it. -/
def longestPath : Nat := 4095

def isDirectory (fs : FileSystem) (place : Place) : Bool :=
  place.isPrefixOf fs.workingDirectory ||
    fs.files.any fun (file, _) => place.isPrefixOf file && place != file

/-- Follows names from a place. The root is above itself. -/
def follow (fs : FileSystem) (place : Place) : List Bytes → Option Place
  | [] => some place
  | name :: names =>
    if !fs.isDirectory place ∨ longestName < name.length then none
    else if name = [] ∨ name = here then follow fs place names
    else if name = above then follow fs place.dropLast names
    else follow fs (place ++ [name]) names

/-- The place that a path leads to, whether there is anything or not. A zero byte ends the path. -/
def resolve (fs : FileSystem) (path : Bytes) : Option Place :=
  let path := path.beforeZero
  let start := if path.head? = some separator then [] else fs.workingDirectory
  if path = [] ∨ longestPath < path.length then none else fs.follow start (names path)

def openPath (fs : FileSystem) (path : Bytes) : Opening :=
  match fs.resolve path with
  | none => .missing
  | some place =>
    if fs.isDirectory place then .directory
    else
      match fs.files.lookup place with
      | some content => .opened { rest := content }
      | none => .missing

/-- Writes a file, in place of the one that was there. Where a path leads to a directory or nowhere
nothing is written. -/
def write (fs : FileSystem) (path content : Bytes) : FileSystem :=
  match fs.resolve path with
  | none => fs
  | some place =>
    if fs.isDirectory place then fs else { fs with files := (place, content) :: fs.files }

end FileSystem

end ShiftReduce
