/-
# Paths

A path is the names between its slashes; it begins at the root or at the working
directory.  Empty names and single dots say nothing and are dropped; two dots are
kept until the path is resolved.  A path whose names hold the null character leads
nowhere and cannot be resolved.
-/

import ThemeSheet.Fault

namespace ThemeSheet

/-- Where a path begins. -/
inductive Anchor where
  | workingDir
  | root
  /-- Two slashes; the same place as the root, written differently. -/
  | doubleRoot
deriving DecidableEq, Repr

/-- How the anchor is written. -/
def Anchor.written : Anchor → Text
  | workingDir => []
  | root => ['/']
  | doubleRoot => ['/', '/']

/-- The anchor of the path that a text writes. -/
def Anchor.ofText (t : Text) : Anchor :=
  match (t.takeWhile (· == '/')).length with
  | 0 => workingDir
  | 2 => doubleRoot
  | _ => root

/-- A path: where it begins and the names on it. -/
structure Path where
  anchor : Anchor
  parts : List Text
deriving DecidableEq, Repr

namespace Path

/-- Does a name lead anywhere? -/
def isName (part : Text) : Bool := part ≠ [] ∧ part ≠ ['.']

/-- The path that a text writes. -/
def ofText (t : Text) : Path := ⟨.ofText t, (Text.splitOn '/' t).filter isName⟩

/-- The written form of a path. -/
def written (p : Path) : Text :=
  if p.anchor = .workingDir ∧ p.parts = [] then ['.'] else p.anchor.written ++ Text.join ['/'] p.parts

/-- The path `q` taken from the place `p`; one that begins at the root stands for itself. -/
def join (p q : Path) : Path := if q.anchor = .workingDir then ⟨p.anchor, p.parts ++ q.parts⟩ else q

/-- The path that a text writes, taken from the place `p`. -/
def child (p : Path) (t : Text) : Path := p.join (.ofText t)

/-- The path without its last name. -/
def parent (p : Path) : Path := ⟨p.anchor, p.parts.dropLast⟩

/-- Does the path begin at the root? -/
def isAbsolute (p : Path) : Bool := p.anchor ≠ .workingDir

/-- Two dots. -/
def up : Text := ['.', '.']

/-- Goes one name further; two dots go one name back, at the root nowhere. -/
def step (names : List Text) (part : Text) : List Text := if part = up then names.dropLast else names ++ [part]

/-- The names from the root to the path, two dots followed; `workingDir` leads to the working
directory. -/
def resolvedParts (workingDir : List Text) (p : Path) : List Text :=
  p.parts.foldl step (if p.isAbsolute then [] else workingDir)

/-- The path from the root, two dots followed. -/
def fromRoot (workingDir : List Text) (p : Path) : Path := ⟨.root, p.resolvedParts workingDir⟩

/-- Does a name on the path hold the null character? -/
def hasNull (p : Path) : Bool := p.parts.any (·.contains '\x00')

/-- The path, which must not hold the null character. -/
def checked (p : Path) : Except Fault Path := if p.hasNull then .error (.badPath p.written) else .ok p

/-- The path from the root, two dots followed, of a path that leads somewhere. -/
def resolve (workingDir : List Text) (p : Path) : Except Fault Path := p.checked.map (fromRoot workingDir)

/-- Orders paths by their names, one after another. -/
def compareParts : List Text → List Text → Ordering
  | [], [] => .eq
  | [], _ :: _ => .lt
  | _ :: _, [] => .gt
  | a :: as, b :: bs => (Text.compare a b).then (compareParts as bs)

/-- The name of the directory that packages are installed in. -/
def packageDir : Text := "node_modules".toList

/-- The longest beginning of the names that ends in a package directory. -/
def packageParts? (names : List Text) : Option (List Text) :=
  match names.reverse.dropWhile (· ≠ packageDir) with
  | [] => none
  | found => some found.reverse

/-- The names of the package directory around a package, itself given by its names; beside the package
if there is none. -/
def packageDirOf (names : List Text) : List Text := (packageParts? names).getD (names.dropLast ++ [packageDir])

/-- The package directory around a package. -/
def packages (workingDir : List Text) (package : Path) : Except Fault Path :=
  (package.resolve workingDir).map fun p => ⟨.root, packageDirOf p.parts⟩

end Path
end ThemeSheet
