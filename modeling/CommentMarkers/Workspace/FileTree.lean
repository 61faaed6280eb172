import CommentMarkers.Bytes
import CommentMarkers.Text.Path
import CommentMarkers.Text.Quoted

/-!
# File trees

A file tree holds files and directories. A directory is there if it was made, or if something is
below it. Paths are followed component by component: each component but the last one has to be a
directory, and `..` leads back to the directory above.

Main results:

- Theorem `file?_put`: a file that is put at a location changes nothing elsewhere.
-/

namespace CommentMarkers

/-! ## Failures -/

/-- Why a path leads to no file. -/
inductive FileFault where
  | missing (path : String)
  | isDirectory (path : String)
  | notDirectory (path : String)
  deriving DecidableEq, Repr

/-- The message for a failure. -/
def FileFault.message : FileFault → String
  | missing path => "[Errno 2] No such file or directory: " ++ Text.quoted path
  | isDirectory path => "[Errno 21] Is a directory: " ++ Text.quoted path
  | notDirectory path => "[Errno 20] Not a directory: " ++ Text.quoted path

/-! ## Trees -/

/-- The components of the way from the root to a file or directory. -/
abbrev Location := List String

/-- Files and directories by their locations. -/
structure FileTree where
  files : List (Location × Bytes)
  directories : List Location
  deriving DecidableEq, Repr

namespace FileTree

/-- The tree without files. -/
def empty : FileTree := ⟨[], []⟩

/-- The contents of the file at a location. -/
def file? (tree : FileTree) (place : Location) : Option Bytes :=
  tree.files.lookup place

/-- Holds if a directory is at a location. -/
def isDirectory (tree : FileTree) (place : Location) : Bool :=
  place.isEmpty || tree.directories.any place.isPrefixOf
    || tree.files.any fun (other, _) => place.isPrefixOf other && place != other

/-- Follows components from a location on. Answers whether something that is no directory stands
in the way, and otherwise the location. -/
def follow (tree : FileTree) (place : Location) : List String → Except Bool Location
  | [] => .ok place
  | component :: rest =>
    if tree.isDirectory place then
      if component = ".." then follow tree place.dropLast rest
      else follow tree (place ++ [component]) rest
    else .error (tree.file? place).isSome

/-- The location that a path leads to. -/
def locate (tree : FileTree) (path : String) : Except FileFault Location :=
  if Text.Path.isAbsolute path then .error (.missing (Text.Path.normal path))
  else
    (tree.follow [] (Text.Path.components path)).mapError fun blocked =>
      if blocked then .notDirectory (Text.Path.normal path) else .missing (Text.Path.normal path)

/-- The contents of the file that a path leads to. -/
def read (tree : FileTree) (path : String) : Except FileFault Bytes := do
  let place ← tree.locate path
  match tree.file? place with
  | some contents => return contents
  | none =>
    if tree.isDirectory place then throw (.isDirectory (Text.Path.normal path))
    else throw (.missing (Text.Path.normal path))

/-- Puts a file at a location in place of an earlier one. -/
def put (tree : FileTree) (place : Location) (contents : Bytes) : FileTree :=
  { tree with files := (place, contents) :: tree.files.filter fun (other, _) => other != place }

/-- The files at other locations are found without those at one location as well. -/
private theorem lookup_filter_of_ne {place other : Location} (hne : other ≠ place)
    (files : List (Location × Bytes)) :
    (files.filter fun (found, _) => found != place).lookup other = files.lookup other := by
  induction files with
  | nil => rfl
  | cons entry rest ih =>
    obtain ⟨found, contents⟩ := entry
    by_cases hsame : found = place
    · subst hsame
      rw [List.filter_cons_of_neg (by simp), ih, List.lookup_cons, beq_false_of_ne hne]
    · rw [List.filter_cons_of_pos (by simpa using hsame), List.lookup_cons, List.lookup_cons, ih]

/-- A file that is put at a location is found there, and the other locations hold what they held. -/
theorem file?_put (tree : FileTree) (place other : Location) (contents : Bytes) :
    (tree.put place contents).file? other
      = if other = place then some contents else tree.file? other := by
  rw [file?, put, List.lookup_cons]
  by_cases hsame : other = place
  · simp [hsame]
  · rw [if_neg hsame, beq_false_of_ne hsame, lookup_filter_of_ne hsame, file?]

/-- Writes a file, with the directories that lead to it. -/
def write (tree : FileTree) (path : String) (contents : Bytes) : FileTree :=
  tree.put (Text.Path.resolved path) contents

/-- Makes a directory, with the directories that lead to it. -/
def makeDirectory (tree : FileTree) (path : String) : FileTree :=
  { tree with directories := Text.Path.resolved path :: tree.directories }

/-- The names in a directory, in order. -/
def names (tree : FileTree) (directory : Location) : List String :=
  let below (place : Location) : Option String :=
    if directory.isPrefixOf place then (place.drop directory.length).head? else none
  let found := (tree.files.map (·.1) ++ tree.directories).filterMap below
  found.eraseDups.mergeSort fun first second => first ≤ second

/-- The names in the directory that a path leads to; none if it leads to no directory. -/
def list (tree : FileTree) (path : String) : List String :=
  match tree.locate path with
  | .ok place => if tree.isDirectory place then tree.names place else []
  | .error _ => []

end FileTree

end CommentMarkers
