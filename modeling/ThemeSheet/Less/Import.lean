/-
# Import statements

A line that begins with `@import` and names a file stands for the text of that file.
`bundle` puts the files in the place of such lines, file by file and depth first.
A path that begins with `~` starts at the package directory, any other one beside
the file that imports it.
-/

import ThemeSheet.File.Tree
import ThemeSheet.Text.Replace
import ThemeSheet.Text.Word

namespace ThemeSheet
namespace Less

/-- The word that begins an import statement. -/
def importWord : Text := "@import".toList

/-- The suffix of source files. -/
def suffix : Text := ".less".toList

/-- What follows a quote with a semicolon behind it. -/
def afterStatement? : Text → Option Text
  | q :: ';' :: t => if isQuote q then some t else none
  | _ => none

/-- The path of the import statement at the beginning of a line: behind the word, blanks and a
quote it reaches to the last quote with a semicolon. -/
def importAt? (t : Text) : Option Text :=
  match Text.dropPrefix? importWord t with
  | none => none
  | some rest =>
    match rest.head?.any isBlank, rest.dropWhile isBlank with
    | true, q :: inner => if isQuote q then (Text.lastCut? afterStatement? inner).map Prod.fst else none
    | _, _ => none

/-- The path of the first import statement in a line. -/
def firstImport? : Text → Option Text
  | [] => none
  | c :: t => (importAt? (c :: t)).or (firstImport? t)

/-- The path that a line imports: the line begins with the word and holds an import statement. -/
def importOf? (line : Text) : Option Text :=
  if Text.beginsWith importWord line then firstImport? line else none

/-- The file that an import path names. -/
def importTarget (directory packages : Path) (path : Text) : Path :=
  match Text.withSuffix suffix path with
  | '~' :: rest => packages.child rest
  | whole => directory.child whole

/-- How deep imports may be nested: each nested file takes one of a thousand nested calls, and some are
open already. -/
def importDepth : Nat := 980

/-- The text of a file with imported files in the place of import lines, imports nested at most
`depth` deep. -/
def bundleWithin (tree : FileTree) (packages : Path) : Nat → Path → Except Fault Text
  | 0, file => .error (.importsTooDeep file.written)
  | depth + 1, file => do
    let content ← tree.read file
    let lines ← (Text.lines content).mapM fun line =>
      match importOf? line with
      | some path => bundleWithin tree packages depth (importTarget file.parent packages path)
      | none => pure line
    pure (Text.join ['\n'] lines)

/-- The text of a file with imported files in the place of import lines. -/
def bundle (tree : FileTree) (packages file : Path) : Except Fault Text :=
  bundleWithin tree packages importDepth file

/-! ### Prefixed imports -/

/-- The options in round brackets at the beginning, with the blanks behind them. -/
def importOptions (t : Text) : Text × Text :=
  match t with
  | '(' :: inner =>
    match inner.dropWhile (· != ')') with
    | ')' :: rest =>
      ('(' :: inner.takeWhile (· != ')') ++ ')' :: rest.takeWhile isBlank, rest.dropWhile isBlank)
    | _ => ([], t)
  | _ => ([], t)

/-- The import statement at the beginning of a text with a new path, if its path begins with
`tilde`: what follows it is taken from the package directory. -/
def prefixedImport (packages : Path) (tilde : Text) : Text.Matcher := fun t => do
  let rest ← Text.dropPrefix? importWord t
  let blanks := rest.takeWhile isBlank
  let (options, afterOptions) := importOptions (rest.dropWhile isBlank)
  match afterOptions with
  | q :: inner =>
    if blanks.isEmpty || !isQuote q then none
    else
      let path ← Text.dropPrefix? tilde inner
      let own := path.takeWhile (!isQuote ·)
      match path.dropWhile (!isQuote ·) with
      | closing :: after =>
        if own.isEmpty then none
        else some (importWord ++ blanks ++ options ++ q :: (packages.child own).written ++ [closing], after)
      | [] => none
  | [] => none

/-- The text with the paths of its prefixed imports taken from the package directory. -/
def resolvePrefixed (packages : Path) (tilde : Text) (t : Text) : Text :=
  Text.replaceMatches (prefixedImport packages tilde) t

end Less
end ThemeSheet
