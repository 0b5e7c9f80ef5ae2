/-
# Trees of files

What the generator sees of a disk: directories, files with their bytes, and the
working directory.  A path is walked name by name; each name but the last must lead
to a directory, also where two dots follow it.  There are bounds on the length of a
name and of a whole path, in bytes of UTF-8.
-/

import ThemeSheet.Fault
import ThemeSheet.File.Path
import ThemeSheet.Text.Utf8

namespace ThemeSheet

/-- What stands at a place. -/
inductive FileEntry where
  | directory
  | file (bytes : List UInt8)
deriving DecidableEq, Repr

/-- The places of a disk, each given by the names that lead to it from the root. -/
structure FileTree where
  workingDir : List Text
  entries : List (List Text × FileEntry)

namespace FileTree

/-- The places on the way to a place, itself included, from the root on. -/
def way (place : List Text) : List (List Text) := (List.range place.length).map fun n => place.take (n + 1)

/-- A working directory in which nothing stands. -/
def empty (workingDir : List Text) : FileTree := ⟨workingDir, (way workingDir).map (·, .directory)⟩

/-- What stands at the place; the root is a directory. -/
def entry? (tree : FileTree) (place : List Text) : Option FileEntry :=
  if place = [] then some .directory else tree.entries.lookup place

/-- Goes one name further from a directory. -/
def walkStep (tree : FileTree) (place : List Text) (part : Text) : Option (List Text) :=
  match tree.entry? place with
  | some .directory => some (Path.step place part)
  | _ => none

/-- The place that a path leads to. -/
def walk? (tree : FileTree) (p : Path) : Option (List Text) :=
  p.parts.foldlM tree.walkStep (if p.isAbsolute then [] else tree.workingDir)

/-- What stands at the end of a path. -/
def find? (tree : FileTree) (p : Path) : Option FileEntry := (tree.walk? p).bind tree.entry?

/-- How many bytes a name may have. -/
def longestName : Nat := 255

/-- How many bytes a path may have in its written form. -/
def longestPath : Nat := 4095

/-- Does the walk from a place meet a name that is too long? -/
def meetsLongName (tree : FileTree) (place : List Text) : List Text → Bool
  | [] => false
  | part :: parts =>
    match tree.walkStep place part with
    | none => false
    | some next => longestName < (Utf8.encode part).length || tree.meetsLongName next parts

/-- Is the path too long to be walked, as a whole or at a name that the walk meets? -/
def isTooLong (tree : FileTree) (p : Path) : Bool :=
  longestPath < (Utf8.encode p.written).length ||
    tree.meetsLongName (if p.isAbsolute then [] else tree.workingDir) p.parts

/-- Looks at the end of a path: nothing stands where no path leads, but one that is too long cannot be
looked at. -/
def look (tree : FileTree) (p : Path) : Except Fault (Option FileEntry) :=
  if p.hasNull then .ok none
  else if tree.isTooLong p then .error (.noFile p.written)
  else .ok (tree.find? p)

/-- Does anything stand at the end of a path? -/
def contains (tree : FileTree) (p : Path) : Except Fault Bool := (tree.look p).map Option.isSome

/-- The bytes of the file at the end of a path, which must not be too long. -/
def bytes (tree : FileTree) (p : Path) : Except Fault (List UInt8) := do
  match ← tree.look (← p.checked) with
  | some (.file bytes) => pure bytes
  | _ => throw (.noFile p.written)

/-- The text of a file, which must be UTF-8; its line ends become line feeds. -/
def read (tree : FileTree) (p : Path) : Except Fault Text := do
  match Utf8.decode? (← tree.bytes p) with
  | some t => pure (Text.unixLines t)
  | none => throw (.undecodable p.written)

/-- The text of a file with the replacement character where it is not UTF-8. -/
def readLenient (tree : FileTree) (p : Path) : Except Fault Text := do
  pure (Text.unixLines (Utf8.decodeLenient (← tree.bytes p)))

/-- Puts an entry at a place, in the stead of what stood there. -/
def put (tree : FileTree) (place : List Text) (e : FileEntry) : FileTree :=
  { tree with entries := (place, e) :: tree.entries.filter (·.1 ≠ place) }

/-- Makes the directories on the way to a place, and the one at it. -/
def makeDirs (tree : FileTree) (place : List Text) : FileTree :=
  (way place).foldl (fun t p => if (t.entry? p).isNone then t.put p .directory else t) tree

/-- Makes a directory. -/
def makeDir (tree : FileTree) (p : Path) : FileTree := tree.makeDirs (p.resolvedParts tree.workingDir)

/-- Puts a file at a path and makes the directories on the way to it. -/
def addFile (tree : FileTree) (p : Path) (bytes : List UInt8) : FileTree :=
  let place := p.resolvedParts tree.workingDir
  (tree.makeDirs place.dropLast).put place (.file bytes)

/-- Takes away what stands at the end of a path. -/
def remove (tree : FileTree) (p : Path) : FileTree :=
  let place := p.resolvedParts tree.workingDir
  { tree with entries := tree.entries.filter (·.1 ≠ place) }

/-- Writes a file in a directory that exists. -/
def write (tree : FileTree) (p : Path) (bytes : List UInt8) : Except Fault FileTree := do
  match ← tree.look (← p.checked), tree.walk? p with
  | some (.file _), some place => pure (tree.put place (.file bytes))
  | none, some place =>
    if tree.entry? place.dropLast = some .directory ∧ p.parts.getLast? ≠ some Path.up then
      pure (tree.put place (.file bytes))
    else throw (.noFile p.written)
  | _, _ => throw (.noFile p.written)

/-- The names of all places below a place whose last name ends in `suffix`, in their order. -/
def namesBelow (tree : FileTree) (suffix : Text) (place : List Text) : List (List Text) :=
  let inner := tree.entries.filterMap fun (names, _) =>
    (place.isPrefixOf? names).filter fun rest => rest.getLast?.any (Text.endsWith suffix)
  inner.mergeSort fun a b => (Path.compareParts a b).isLE

/-- The paths of all places below a directory whose names end in `suffix`, in the order of their
names; none if there is no such directory. -/
def below (tree : FileTree) (suffix : Text) (dir : Path) : Except Fault (List Path) := do
  match ← tree.look dir, tree.walk? dir with
  | some .directory, some place =>
    pure ((tree.namesBelow suffix place).map fun names => ⟨dir.anchor, dir.parts ++ names⟩)
  | _, _ => pure []

end FileTree
end ThemeSheet
