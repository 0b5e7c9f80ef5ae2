/-
# Style files

The application's own style files: where they are, what they hold, and how they are
made ready for compiling.
-/

import ThemeSheet.File.Tree
import ThemeSheet.Less.Import
import ThemeSheet.Table
import ThemeSheet.Text.Word

namespace ThemeSheet

/-- A setting that may be left out, hold one value or a list of them. -/
inductive Several (α : Type) where
  | absent
  | one (a : α)
  | many (as : List α)
  /-- A value of another kind. -/
  | unfit

/-- The values of the setting with the given name. -/
def Several.toList {α : Type} (s : Several α) (name : String) : Except Fault (List α) :=
  match s with
  | absent => .ok []
  | one a => .ok [a]
  | many as => .ok as
  | unfit => .error (.badSetting name.toList)

namespace Style

/-- The style files below each of the directories, in order. -/
def discover (tree : FileTree) (dirs : List Text) : Except Fault (List Path) := do
  let found ← dirs.mapM fun dir => tree.below Less.suffix (.ofText dir)
  found.flatten.mapM (Path.resolve tree.workingDir)

/-- The import statement at the beginning of a text: the path, up to the last quote with a
semicolon on the line, and the rest. -/
def statement? (t : Text) : Option (Text × Text) :=
  match Text.dropPrefix? "@import ".toList t with
  | some (q :: inner) =>
    if isQuote q then
      (Text.lastCut? Less.afterStatement? (inner.takeWhile (· != '\n'))).map fun (path, after) =>
        (path, after ++ inner.dropWhile (· != '\n'))
    else none
  | _ => none

/-- The file that an import statement of a style file names. -/
def importedFile (workingDir : List Text) (file : Path) (path : Text) : Except Fault Path :=
  (file.parent.child (Text.withSuffix Less.suffix path)).resolve workingDir

/-- The text without the import statements of files that are compiled on their own. -/
def stripKnownImports (workingDir : List Text) (content : Text) (file : Path) (styles : List Path) :
    Except Fault Text := do
  let known ← styles.mapM (Path.resolve workingDir)
  Text.replaceFallibly (fun t =>
    (statement? t).map fun (path, rest) =>
      ((importedFile workingDir file path).map fun target =>
        if known.contains target then [] else t.take (t.length - rest.length), rest)) content

/-- Puts `color` in the place of the whole name `token`. -/
def substituteToken (token color : Text) : Text → Text
  | [] => if token.isEmpty then color else []
  | c :: t =>
    match Text.dropPrefix? token (c :: t) with
    | none => c :: substituteToken token color t
    | some rest =>
      if !Text.nameEnds rest then c :: substituteToken token color t
      else if rest.length ≤ t.length then color ++ substituteToken token color rest
      else color ++ c :: substituteToken token color t
termination_by t => t.length

/-- Puts `color` in the place of a name behind the first colon of a line. -/
def substituteInLine (token color : Text) (line : Text) : Text :=
  line.takeWhile (· != ':') ++
    match line.dropWhile (· != ':') with
    | [] => []
    | values => substituteToken token color values

/-- Puts discovered colors in the place of the variables that are used as values, one variable
after another. -/
def substituteColors (content : Text) (colors : Table Text) : Text :=
  colors.entries.foldl (fun t (name, color) =>
    Text.join ['\n'] ((Text.lines t).map (substituteInLine name color))) content

/-- The text of a style file as it is compiled: it imports the variables, and what is known of
colors and of other style files is put in place. -/
def prepare (workingDir : List Text) (file : Path) (content : Text) (styles : List Path) (imported : Path)
    (colors : Table Text) : Except Fault Text := do
  let own ← stripKnownImports workingDir content file styles
  pure ("@import \"".toList ++ imported.written ++ "\";\n".toList ++ substituteColors own colors)

end Style
end ThemeSheet
