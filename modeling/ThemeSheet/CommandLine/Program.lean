/-
# The command line program

The options of the program, what it does with them, and what it prints.  A run leaves
the tree of files, with the theme in it when one was generated.
-/

import ThemeSheet.CommandLine.Words
import ThemeSheet.Theme.Generation

namespace ThemeSheet
namespace CommandLine

/-- How the program is called. -/
def programName : Text := "generate-theme".toList

/-- The directory of the component library. -/
def antdDir : Spec := ⟨["--antd-dir".toList], .text⟩

/-- The directory of the library's styles. -/
def antdStyleDir : Spec := ⟨["--antd-styles-dir".toList], .text⟩

/-- A style directory of the application; may be given often. -/
def styleDir : Spec := ⟨["--styles-dir".toList], .text⟩

/-- The variables file. -/
def variablesFile : Spec := ⟨["--var-file".toList], .text⟩

/-- A variable that is to be switchable; may be given often. -/
def themeVariable : Spec := ⟨["--theme-var".toList], .text⟩

/-- A pattern of further color values; may be given often. -/
def colorPattern : Spec := ⟨["--color-pattern".toList], .text⟩

/-- Where the theme is written. -/
def output : Spec := ⟨["-o".toList, "--output".toList], .text⟩

/-- The compiler program. -/
def lessc : Spec := ⟨["--lessc".toList], .text⟩

/-- The first number of the counter that colors are drawn with. -/
def seed : Spec := ⟨["--seed".toList], .integer⟩

/-- Tells more about what is done. -/
def verbose : Spec := ⟨["-v".toList, "--verbose".toList], .nothing⟩

/-- Lists the options. -/
def help : Spec := ⟨["-h".toList, "--help".toList], .nothing⟩

/-- The options of the program. -/
def specs : List Spec :=
  [help, antdDir, antdStyleDir, styleDir, variablesFile, themeVariable, colorPattern, output, lessc, seed, verbose]

/-- The list of the options. -/
def usage : List Text :=
  ("usage: ".toList ++ programName ++ " [options]".toList) ::
    specs.map fun s =>
      "  ".toList ++ Text.join ", ".toList s.spellings ++ (if s.takesValue then " VALUE".toList else [])

/-- What the user asks for. -/
structure Settings where
  options : Theme.Options
  output : Theme.PathSetting
  /-- The first number of the counter that colors are drawn with. -/
  seed : Int
  verbose : Bool

/-- What an option was given with, in order. -/
def argumentsOf (given : List Given) (s : Spec) : List Argument :=
  (given.filter (·.spec = s)).map Given.argument

/-- The values that an option was given, in order; unfit if one is missing. -/
def severalOf (given : List Given) (s : Spec) : Several Text :=
  ((argumentsOf given s).mapM Argument.value?).elim .unfit .many

/-- The value that an option was last given. -/
def lastOf? (given : List Given) (s : Spec) : Option Text := (argumentsOf given s).getLast?.bind Argument.value?

/-- The value that an option was last given, as a path; another one if the option was not given. -/
def pathOf (given : List Given) (s : Spec) (other : Theme.PathSetting) : Theme.PathSetting :=
  match (argumentsOf given s).getLast? with
  | none => other
  | some a => a.value?.elim .unfit .given

/-- The value that an option was last given, as a path; absent if none was. -/
def pathIfAny (given : List Given) (s : Spec) : Theme.PathSetting := (lastOf? given s).elim .absent .given

/-- The settings that the given options make. -/
def Settings.ofGiven (given : List Given) : Settings where
  options := {
    antdDir := pathOf given antdDir (.given "node_modules/antd".toList)
    styleDirs := severalOf given styleDir
    antdStyleDir := pathIfAny given antdStyleDir
    variablesFile := pathIfAny given variablesFile
    themeVariables := severalOf given themeVariable
    colorPatterns := severalOf given colorPattern
    lessc := (lastOf? given lessc).getD "lessc".toList }
  output := pathOf given CommandLine.output (.given "color.less".toList)
  seed := ((lastOf? given CommandLine.seed).bind integer?).getD 1
  verbose := given.any (·.spec = CommandLine.verbose)

/-- What a run of the program leaves. -/
structure Result where
  exitCode : Nat
  /-- The fault that broke the run off. -/
  crash : Option Fault
  /-- The lines on the output. -/
  printed : List Text
  /-- The lines on the error output. -/
  errors : List Text
  /-- The settings, if the command line could be read. -/
  settings : Option Settings
  files : FileTree
  journal : Journal

/-- The line about what is being done. -/
def progressLine (target : Path) : Text := "Processing ".toList ++ target.written ++ "...".toList

/-- Runs the program with the given settings. -/
def runWith (tree : FileTree) (launcher : Less.Launcher) (settings : Settings) : Result :=
  match settings.options.targetFile with
  | .error fault => ⟨0, some fault, [], [], some settings, tree, .empty⟩
  | .ok target =>
    let compiler := (settings.options.program tree.workingDir).map (·.compiler launcher)
    let outcome := Theme.generate settings.options tree compiler (.counterFrom settings.seed) .empty
    let progress := progressLine target
    if outcome.css.isEmpty then
      ⟨1, none, [], [progress, "Error: theme generation produced no output.".toList], some settings, tree,
        outcome.journal⟩
    else
      match settings.output.path "output" with
      | .error fault => ⟨0, some fault, [], [progress], some settings, tree, outcome.journal⟩
      | .ok file =>
        match tree.write file (Utf8.encode outcome.css) with
        | .error fault => ⟨0, some fault, [], [progress], some settings, tree, outcome.journal⟩
        | .ok files =>
          let written := settings.output.text
          ⟨0, none, [], [progress, "Success!".toList, "  Theme written to: ".toList ++ written], some settings,
            files, outcome.journal⟩

/-- Runs the program on the words of its command line. -/
def run (tree : FileTree) (launcher : Less.Launcher) (words : List Text) : Result :=
  match read specs words with
  | .error fault =>
    ⟨2, none, [], [programName ++ ": error: ".toList ++ fault.message], none, tree, .empty⟩
  | .ok given =>
    if given.any (·.spec = help) then ⟨0, none, usage, [], none, tree, .empty⟩
    else runWith tree launcher (.ofGiven given)

end CommandLine
end ThemeSheet
