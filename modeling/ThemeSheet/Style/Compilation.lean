/-
# Compiling style files

Every style file is compiled on its own and pruned to its color rules.  Of equal
results only the first is kept.
-/

import ThemeSheet.Css.Prune
import ThemeSheet.Digest.Sha1
import ThemeSheet.Less.Compiler
import ThemeSheet.Style.Source

namespace ThemeSheet
namespace Style

/-- The digest of a text. -/
def digest (t : Text) : Text := Sha1.hexDigest (Utf8.encode t)

/-- The texts without the empty ones and without those whose digest has come before. -/
def distinct (seen : List Text) : List Text → List Text
  | [] => []
  | t :: ts =>
    if t.isEmpty || seen.contains (digest t) then distinct seen ts
    else t :: distinct (digest t :: seen) ts

/-- What the compiled style files have in common: all style files, the variables and the colors. -/
structure Setting where
  workingDir : List Text
  styles : List Path
  imported : Path
  colors : Table Text
  paths : List Text

/-- The request for a style file. -/
def Setting.request (s : Setting) (file : Path) (content : Text) : Except Fault CompileRequest := do
  pure ⟨← prepare s.workingDir file content s.styles s.imported s.colors, s.paths, some file.written⟩

/-- The color rules of a style file.  A refusal is told, and the file gives nothing then; any
other fault is kept for later, since the other files are still compiled. -/
def compileOne (compiler : Compiler) (s : Setting) (file : Path) (content : Text) :
    Recorded (Except Fault Text) := do
  match s.request file content with
  | .error fault => pure (.error fault)
  | .ok request =>
    match ← Recorded.ask compiler request with
    | .ok css => pure (Css.prune css)
    | .error (.compile _ detail) => do
      Recorded.tell (.styleRefused file.written detail)
      pure (.ok [])
    | .error fault => pure (.error fault)

/-- The color rules of all style files. -/
def compileAll (compiler : Compiler) (s : Setting) (contents : List Text) : Recorded Text := do
  let results ← (s.styles.zip contents).mapM fun (file, content) => compileOne compiler s file content
  let compiled ← liftM (n := Recorded) (results.mapM id)
  pure (Text.join ['\n'] (distinct [] compiled))

end Style
end ThemeSheet
