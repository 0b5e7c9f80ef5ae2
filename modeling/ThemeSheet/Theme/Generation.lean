/-
# Generating a theme

From the options and the files to the switchable style sheet.  The sources decide
whether the cached theme still holds.  If not, the colors of the theme variables are
discovered, the application's style files and the library are compiled, and the
result is written in terms of the theme variables.  A fault ends the work with an
empty theme and leaves the cache as it is.
-/

import ThemeSheet.Css.Minify
import ThemeSheet.Marker.Discovery
import ThemeSheet.Theme.Cache
import ThemeSheet.Theme.Options
import ThemeSheet.Theme.Restoration

namespace ThemeSheet
namespace Theme

/-- What the cache depends on: the style files and what they hold. -/
structure Sources where
  /-- The directory of the library's styles. -/
  antd : Path
  packages : Path
  styleDirs : List Text
  styles : List Path
  contents : List Text

/-- The digest that the theme of these sources is kept under. -/
def Sources.digest (s : Sources) : Text := sourcesDigest s.contents

/-- Finds and reads the style files. -/
def Options.sources (o : Options) (tree : FileTree) : Except Fault Sources := do
  let antd ← o.antdPath
  let packages ← o.packages tree.workingDir
  let dirs ← o.styleDirs.toList "styles_dirs"
  let styles ← Style.discover tree dirs
  let contents ← styles.mapM tree.readLenient
  pure ⟨antd, packages, dirs, styles, contents⟩

/-- Reads the variables; the colors among them come from the bundled file, the plain values from
the file itself. -/
def Options.collection (o : Options) (tree : FileTree) (packages : Path) : Except Fault Variable.Collection := do
  let custom ← Pattern.parseAll (← o.colorPatterns.toList "color_patterns")
  let functions ← Pattern.parseAll Color.functionPatterns
  let file ← o.variablesPath
  let content ← Less.bundle tree packages file
  Variable.Collection.collect (.ok (custom ++ functions)) content (← tree.readLenient file)

/-- The discovered values of the theme variables, as definitions. -/
def themeValues (names : List Text) (discovered : Table Text) : Text :=
  names.flatMap fun name =>
    match discovered.get? name with
    | some color => '\n' :: name ++ ": ".toList ++ color ++ [';']
    | none => []

/-- Writes a compiled style sheet in terms of the theme variables. -/
def abstracted (fades : FadeMap) (discovered : Table Text) (compiled : Text) : Except Fault Text := do
  let known := Discovered.ofColors discovered
  let restored ← fades.restore (← Css.prune compiled) known
  pure (Text.replaceAll browserMark [] (dropLeftovers (substituteVariables restored known)))

/-- The theme of the sources. -/
def build (o : Options) (tree : FileTree) (compiler : Compiler) (draws : Color.Draws) (s : Sources) :
    Recorded Text := do
  let known ← liftM (n := Recorded) (o.collection tree s.packages)
  let file ← liftM (n := Recorded) o.variablesPath
  let names := known.themeVariables (← liftM (n := Recorded) (o.themeVariables.toList "theme_variables"))
  Recorded.tell (.themeVariables names)
  let (markers, rest) ← liftM (n := Recorded) (MarkerAssignment.ofVariables names draws)
  let colorFile ← liftM (n := Recorded) (Less.bundle tree s.packages (s.antd.child "style/color/colors.less".toList))
  let discovered ← Marker.compile compiler colorFile markers
    ((s.antd.child "style".toList).written :: s.styleDirs) names
  let custom ← Style.compileAll compiler
    ⟨tree.workingDir, s.styles, file, discovered, s.antd.written :: s.styleDirs⟩ s.contents
  let target ← liftM (n := Recorded) o.targetFile
  let library ← liftM (n := Recorded) (Less.bundle tree s.packages target)
  let collected ← liftM (n := Recorded)
    ((FadeMap.start rest (markers.owners.keys ++ discovered.values)).collect library)
  let fades := s.contents.foldl FadeMap.observe collected
  let source := fades.substitute (library ++ '\n' :: themeValues names discovered)
  let compiled ← liftM (n := Recorded)
    (← Recorded.ask compiler ⟨source, [s.antd.written, target.parent.written], some target.written⟩)
  let theme ← liftM (n := Recorded) (abstracted fades discovered (compiled ++ '\n' :: custom))
  let defaults ← liftM (n := Recorded) (Less.bundle tree s.packages (Options.defaultTheme s.antd))
  let defined ← liftM (n := Recorded)
    (prependDefinitions known (Text.strip theme ++ '\n' :: defaults) names)
  pure (Css.minify defined)

/-- What a call of the generator leaves. -/
structure Outcome where
  /-- The theme; empty if anything went wrong. -/
  css : Text
  cache : Cache
  /-- Does the theme come from the cache? -/
  reused : Bool
  journal : Journal

/-- A fault ends the work: nothing is generated, and the fault is told. -/
def Outcome.failed (cache : Cache) (journal : Journal) (fault : Fault) : Outcome :=
  ⟨[], cache, false, { journal with log := journal.log ++ [.generationFailed fault] }⟩

/-- Takes the theme from the cache, or builds it and keeps it there. -/
def generateFrom (o : Options) (tree : FileTree) (compiler : Compiler) (draws : Color.Draws) (cache : Cache)
    (s : Sources) : Outcome :=
  match cache.lookup (some s.digest) with
  | some css => ⟨css, cache, true, .empty⟩
  | none =>
    match (build o tree compiler draws s).run.run .empty with
    | (.error fault, journal) => .failed cache journal fault
    | (.ok css, journal) => ⟨css, cache.keep s.digest css, false, journal⟩

/-- Generates the theme.  The compiler may be missing for a fault of the options. -/
def generate (o : Options) (tree : FileTree) (compiler : Except Fault Compiler) (draws : Color.Draws)
    (cache : Cache) : Outcome :=
  match compiler, o.sources tree with
  | .error fault, _ => .failed cache .empty fault
  | .ok _, .error fault => .failed cache .empty fault
  | .ok c, .ok s => generateFrom o tree c draws cache s

end Theme
end ThemeSheet
