/-!
# Paths

Paths are texts with slashes between their components. Their normal form has no empty component
and no `.` component; `..` stays, because what it means depends on the files.

Main results:

- Theorem `components_ne`: the components of a path are neither empty nor a single dot.
-/

namespace CommentMarkers.Text.Path

/-- The pieces between the slashes. -/
def pieces (path : String) : List (List Char) :=
  path.toList.splitOn '/'

/-- The components of a path: the pieces that lead somewhere. -/
def components (path : String) : List String :=
  ((pieces path).map String.ofList).filter fun piece => piece != "" && piece != "."

/-- The components of a path are neither empty nor a single dot. -/
theorem components_ne {path component : String} (hcomponent : component ∈ components path) :
    component ≠ "" ∧ component ≠ "." := by
  have hkept := (List.mem_filter.1 hcomponent).2
  simpa using hkept

/-- Holds of paths that start at the root of all files. -/
def isAbsolute (path : String) : Bool :=
  path.toList.head? == some '/'

/-- The path without superfluous pieces; a single dot if nothing is left. -/
def normal (path : String) : String :=
  let inner := "/".intercalate (components path)
  if isAbsolute path then "/" ++ inner
  else if inner = "" then "." else inner

/-- A path below another one. Nothing stands for the current directory. -/
def join (directory name : String) : String :=
  if directory = "" then normal name else normal (directory ++ "/" ++ name)

/-- The components that are left when each `..` has taken the one in front of it away. -/
def resolved (path : String) : List String :=
  (components path).foldl
    (fun place component => if component = ".." then place.dropLast else place ++ [component]) []

/-- What stands behind the last slash. -/
def baseName (path : String) : String :=
  String.ofList ((pieces path).getLastD [])

/-- The extension of a name: its last dot and what follows, unless only dots stand in front. -/
def extension (name : String) : String :=
  let inner := name.toList.dropWhile (· == '.')
  if inner.contains '.' then
    String.ofList ('.' :: (inner.reverse.takeWhile (· != '.')).reverse)
  else ""

/-- The name without its last dot and what follows, unless that dot is its first or its last
character. -/
def stem (name : String) : String :=
  let chars := name.toList
  let ending := (chars.reverse.takeWhile (· != '.')).length
  let front := chars.length - ending - 1
  if ending < chars.length && 0 < front && 0 < ending then String.ofList (chars.take front)
  else name

end CommentMarkers.Text.Path
