/-!
# Paths

Paths of files, with segments divided by slashes. Empty segments and single points name nothing; two
points name the directory above.
-/

namespace RowRecipe.Text

/-- The segments of a path that name something. -/
def segments (path : String) : List String :=
  ((path.toList.splitOn '/').map String.ofList).filter fun s => !s.isEmpty && s != "."

/-- The path without segments that name nothing. -/
def tidyPath (path : String) : String :=
  let root :=
    if path.startsWith "//" && !path.startsWith "///" then "//"
    else if path.startsWith "/" then "/" else ""
  let rest := "/".intercalate (segments path)
  if root.isEmpty && rest.isEmpty then "." else root ++ rest

/-- Adds a segment to a path that is kept in reverse; two points take the last segment away. -/
def descend (reversed : List String) (segment : String) : List String :=
  match segment, reversed with
  | "..", s :: rest => if s = ".." then ".." :: s :: rest else rest
  | s, rest => s :: rest

/-- A path relative to the working directory, without detours. -/
def directPath (path : String) : String :=
  let reversed := (segments path).foldl descend []
  if reversed.isEmpty then "." else "/".intercalate reversed.reverse

/-- The direct paths of all directories on the way to a path, the path itself included. -/
def ancestors (path : String) : List String :=
  let parts := segments path
  (List.range (parts.length + 1)).map fun k => directPath ("/".intercalate (parts.take k))

/-- A path inside a directory. -/
def inDirectory (directory file : String) : String :=
  if directory.isEmpty then file else directory ++ "/" ++ file

end RowRecipe.Text
