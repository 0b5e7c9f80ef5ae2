/-
# Options of the generator

Where the component library and the application keep their styles, which variables
are to be switchable, and how the compiler is called.
-/

import ThemeSheet.File.Path
import ThemeSheet.Less.Command
import ThemeSheet.Style.Source
import ThemeSheet.Variable.Shade

namespace ThemeSheet
namespace Theme

/-- A setting that gives a path. -/
inductive PathSetting where
  | absent
  | given (path : Text)
  /-- A value of another kind. -/
  | unfit
deriving DecidableEq, Repr

/-- The text of the setting; empty where it has none. -/
def PathSetting.text : PathSetting → Text
  | given t => t
  | _ => []

/-- The path that must be given. -/
def PathSetting.path (s : PathSetting) (name : String) : Except Fault Path :=
  match s with
  | given t => .ok (.ofText t)
  | _ => .error (.badSetting name.toList)

/-- The path, or another one where none is given. -/
def PathSetting.pathOr (s : PathSetting) (name : String) (other : Except Fault Path) : Except Fault Path :=
  match s with
  | absent => other
  | given [] => other
  | _ => s.path name

/-- What the generator is told. -/
structure Options where
  /-- The directory of the component library. -/
  antdDir : PathSetting
  /-- The application's own style directories. -/
  styleDirs : Several Text
  /-- The directory of the library's styles, if not the usual one. -/
  antdStyleDir : PathSetting
  /-- The variables file, if not the one of the library's default theme. -/
  variablesFile : PathSetting
  /-- The variables that are to be switchable. -/
  themeVariables : Several Text
  /-- Patterns of further color values. -/
  colorPatterns : Several Text
  /-- The compiler program. -/
  lessc : Text

namespace Options

/-- The directory of the library's styles. -/
def antdPath (o : Options) : Except Fault Path :=
  o.antdStyleDir.pathOr "antd_styles_dir" do pure ((← o.antdDir.path "antd_dir").child "lib".toList)

/-- The style sheet of the whole library. -/
def targetFile (o : Options) : Except Fault Path := do
  pure ((← o.antdDir.path "antd_dir").child "dist/antd.less".toList)

/-- The variables of the library's default theme. -/
def defaultTheme (antd : Path) : Path := antd.child "style/themes/default.less".toList

/-- The variables file. -/
def variablesPath (o : Options) : Except Fault Path :=
  o.variablesFile.pathOr "var_file" do pure (defaultTheme (← o.antdPath))

/-- The package directory that the library is installed in. -/
def packages (o : Options) (workingDir : List Text) : Except Fault Path := do
  (← o.antdDir.path "antd_dir").packages workingDir

/-- How the compiler program is called. -/
def program (o : Options) (workingDir : List Text) : Except Fault Less.Program := do
  pure ⟨o.lessc, some (← o.packages workingDir), true, workingDir⟩

end Options
end Theme
end ThemeSheet
