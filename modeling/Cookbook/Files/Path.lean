import Cookbook.Text.Blank

/-!
# Paths

Relative and absolute paths with a slash between their segments. Doubled slashes, and dots that do
not start a path, separate nothing; but a path keeps the text it was written with.
-/

namespace Cookbook.Path

/-- The segments of a path: the text between its slashes. -/
def segments (path : String) : List String :=
  go [] path.toList
where
  /-- The segments of the rest of a path, after the characters of an open segment in reverse. -/
  go (written : List Char) : List Char → List String
    | [] => [String.ofList written.reverse]
    | c :: rest =>
      if c = '/' then String.ofList written.reverse :: go [] rest else go (c :: written) rest

/-- The path of segments. -/
def ofSegments (segments : List String) : String :=
  "/".intercalate segments

/-- Whether a path starts at the root. -/
def isAbsolute (path : String) : Bool :=
  path.toList.head? == some '/'

/-- A segment that leads nowhere. -/
def isIdle (segment : String) : Bool :=
  segment == "" || segment == "."

/-- Segments without those at the end that lead nowhere; the first one always stays. -/
def dropIdle : List String → List String
  | [] => []
  | first :: rest => first :: (rest.reverse.dropWhile isIdle).reverse

/-- The last segment of a path and the path without it; none for the empty path and the root. -/
def splitLast? (path : String) : Option (String × String) :=
  match (dropIdle (segments path)).reverse with
  | [] | [""] => none
  | last :: before =>
    match dropIdle before.reverse with
    | [""] => some ("/", last)
    | directory => some (ofSegments directory, last)

/-- The directory in which a path stands. -/
def parent? (path : String) : Option String :=
  (splitLast? path).map Prod.fst

/-- A path relative to a directory; an absolute one stays as it is. -/
def join (directory path : String) : String :=
  if isAbsolute path || directory.isEmpty then path
  else if directory.toList.getLast? == some '/' then directory ++ path
  else directory ++ "/" ++ path

/-- The extension of the last segment: what follows its last dot, unless that dot starts it. -/
def extension? (path : String) : Option String :=
  match splitLast? path with
  | none => none
  | some (_, last) =>
    if last = "." ∨ last = ".." then none
    else
      let reversed := last.toList.reverse
      match reversed.dropWhile (· != '.') with
      | [] | ['.'] => none
      | _ => some (String.ofList (reversed.takeWhile (· != '.')).reverse)

end Cookbook.Path
