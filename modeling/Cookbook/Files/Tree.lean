import Cookbook.Files.Path
import Cookbook.Files.ReadFailure

/-!
# File trees

A working directory with its files, as a value. Directories exist where the path of a file implies
them. Reading follows a path segment by segment, so that a path through a file or a missing
directory fails even if it leads back.
-/

namespace Cookbook

/-- The files of a working directory, by the segments of their paths. -/
structure FileTree where
  files : List (List String × ByteArray)

namespace FileTree

/-- The place that segments lead to from a directory, without looking at any file. -/
def normalize (directory : List String) : List String → List String
  | [] => directory
  | segment :: rest =>
    if Path.isIdle segment then normalize directory rest
    else if segment = ".." then normalize directory.dropLast rest
    else normalize (directory ++ [segment]) rest

/-- The tree of files with the given paths and contents. -/
def ofFiles (files : List (String × ByteArray)) : FileTree :=
  ⟨files.map fun (path, content) => (normalize [] (Path.segments path), content)⟩

/-- The content of the file at a place. -/
def file? (tree : FileTree) (place : List String) : Option ByteArray :=
  (tree.files.find? fun (path, _) => path == place).map Prod.snd

/-- Whether there is a directory at a place. -/
def hasDirectory (tree : FileTree) (place : List String) : Bool :=
  tree.files.any fun (path, _) => place.isPrefixOf path && place.length < path.length

/-- The most bytes of one segment. -/
def maxSegment : Nat := 255

/-- The number of bytes that a path must stay below. -/
def maxPath : Nat := 4096

/-- The content at the end of segments that are followed from a directory. `above` counts how far
the path has left the working directory upwards; nothing is known there but directories. -/
def follow (tree : FileTree) (above : Nat) (directory : List String) :
    List String → Except ReadFailure ByteArray
  | [] => .error .isDirectory
  | segment :: rest =>
    if Path.isIdle segment then follow tree above directory rest
    else if segment = ".." then
      if directory.isEmpty then follow tree (above + 1) [] rest
      else follow tree above directory.dropLast rest
    else if maxSegment < segment.utf8ByteSize then .error .nameTooLong
    else if above ≠ 0 then .error .notFound
    else
      let place := directory ++ [segment]
      match tree.file? place with
      | some content => if rest.isEmpty then .ok content else .error .notDirectory
      | none =>
        if tree.hasDirectory place then follow tree 0 place rest else .error .notFound

/-- The bytes of the file at a path. -/
def readBytes (tree : FileTree) (path : String) : Except ReadFailure ByteArray :=
  if path.toList.contains '\x00' then .error .nullInPath
  else if path.isEmpty then .error .notFound
  else if maxPath ≤ path.utf8ByteSize then .error .nameTooLong
  else if Path.isAbsolute path then
    if (Path.segments path).all fun s => Path.isIdle s || s == ".." then .error .isDirectory
    else .error .notFound
  else tree.follow 0 [] (Path.segments path)

/-- The text of the file at a path. -/
def read (tree : FileTree) (path : String) : Except ReadFailure String :=
  match tree.readBytes path with
  | .error failure => .error failure
  | .ok bytes =>
    match String.fromUTF8? bytes with
    | some text => .ok text
    | none => .error .notText

end FileTree

end Cookbook
