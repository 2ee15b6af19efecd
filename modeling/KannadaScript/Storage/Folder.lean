import KannadaScript.Storage.Fault

/-!
# Folders

A small model of the files that a run can reach by relative paths: some folders and files below a
working folder. The folders above it, and the root, exist too, but nothing is known to be in them. A
path is walked segment by segment; all segments but the last have to be folders.

A place is given by the names that lead to it, with `".."` and `"/"` at the front for what is not
below the working folder. Dots are taken out while a path is walked, so two paths that lead to one
place find the same file. There are no links, no rights and no devices.

The last segment is looked up, for reading, and may be missing, for writing. Slashes behind it ask
for a folder: a file is not found under such a path, and none is created. Which fault is given where
several would do is decided by the order in which the walk comes upon them.
-/

namespace KannadaScript

/-- The names that lead from the working folder to a place. A place above the working folder
starts with `".."`, a place below the root with `"/"`. -/
abbrev Location := List String

/-- The folders and files below a working folder. -/
structure Folder where
  folders : List Location
  files : List (Location × List UInt8)
deriving DecidableEq, Repr

namespace Folder

/-- The segments of a path: what stands between its slashes. -/
def segmentsOf : List Char → List (List Char)
  | [] => [[]]
  | c :: rest =>
    if c = '/' then [] :: segmentsOf rest
    else
      match segmentsOf rest with
      | [] => [[c]]
      | segment :: segments => (c :: segment) :: segments

/-- The folder above a place. -/
def above (place : Location) : Location :=
  if place = ["/"] then place
  else if place.all (· == "..") then ".." :: place
  else place.dropLast

/-- Whether a place is a folder. -/
def isFolder (f : Folder) (place : Location) : Bool :=
  place == ["/"] || place.all (· == "..") || f.folders.contains place

/-- The bytes of the file at a place. -/
def file? (f : Folder) (place : Location) : Option (List UInt8) :=
  (f.files.find? (·.1 == place)).map (·.2)

/-- Segments that lead to the folder itself or to the one above, and name nothing. -/
def isDots (segment : String) : Bool := segment == "." || segment == ".."

/-- Walk one segment, which has to lead to a folder. -/
def enter (f : Folder) (place : Location) (segment : String) : Except StorageFault Location :=
  if segment = "" ∨ segment = "." then .ok place
  else if segment = ".." then .ok (above place)
  else
    let next := place ++ [segment]
    if f.isFolder next then .ok next
    else if (f.file? next).isSome then .error .notAFolder
    else .error .notFound

/-- A path up to its last segment. -/
structure Target where
  /-- The folder that the last segment is looked up in. -/
  parent : Location
  /-- The last segment that is not empty; empty only for a path of slashes. -/
  segment : String
  /-- Whether slashes follow the last segment. -/
  slashed : Bool
deriving DecidableEq, Repr

/-- The place that a target names. -/
def Target.place (t : Target) : Location := t.parent ++ [t.segment]

/-- Walk a path up to its last segment. -/
def locate (f : Folder) (path : String) : Except StorageFault Target := do
  let segments := (segmentsOf path.toList).map String.ofList
  let start := if path.toList.head? = some '/' then ["/"] else []
  let named := (segments.reverse.dropWhile (· == "")).reverse
  let parent ← named.dropLast.foldlM f.enter start
  return ⟨parent, named.getLastD "", named.length < segments.length⟩

/-- The bytes of the file at the end of a path. -/
def read (f : Folder) (path : String) : Except StorageFault (List UInt8) := do
  let t ← f.locate path
  if t.segment = "" ∨ isDots t.segment ∨ f.isFolder t.place then throw .isFolder
  else
    match f.file? t.place with
    | none => throw .notFound
    | some bytes => if t.slashed then throw .notAFolder else return bytes

/-- Give the file at a place new bytes. -/
def put (place : Location) (bytes : List UInt8) :
    List (Location × List UInt8) → List (Location × List UInt8)
  | [] => [(place, bytes)]
  | (p, b) :: rest => if p = place then (p, bytes) :: rest else (p, b) :: put place bytes rest

/-- Write the file at the end of a path, which is created if there is none. -/
def write (f : Folder) (path : String) (bytes : List UInt8) : Except StorageFault Folder := do
  let t ← f.locate path
  if t.slashed ∨ t.segment = "" ∨ isDots t.segment ∨ f.isFolder t.place then throw .isFolder
  else return { f with files := put t.place bytes f.files }

end Folder

end KannadaScript
