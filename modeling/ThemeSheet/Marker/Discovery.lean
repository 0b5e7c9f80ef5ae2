/-
# Finding out what variables compile to

A style sheet with a rule for every theme variable and every shade is compiled, and
the color in each rule is read back.
-/

import ThemeSheet.Css.Comment
import ThemeSheet.Less.Compiler
import ThemeSheet.Marker.Assignment
import ThemeSheet.Text.Blank
import ThemeSheet.Text.Word

namespace ThemeSheet
namespace Marker

/-- A rule that gives the class of a name a color. -/
def markerRule (name color : Text) : Text :=
  '.' :: Variable.bareName name ++ " \x7b color: ".toList ++ color ++ "; \x7d".toList

/-- The marker rule of a variable and those of its shades. -/
def markerRules (shades : Bool) (name color : Text) : Except Fault (List Text) := do
  let own := markerRule name color
  if shades then
    let others ← (Variable.shadeNames name).mapM fun shade => do
      pure (markerRule shade (← Variable.shadeCall shade))
    pure (own :: others)
  else pure [own]

/-- The style sheet that is compiled: the definitions of colors, the markers in the stead of the
theme variables' values, and the marker rules. -/
def stylesheet (colorDefinitions : Text) (m : MarkerAssignment) (shades : Bool) : Except Fault Text := do
  let rules ← m.colors.entries.mapM fun (name, color) => markerRules shades name color
  let values := m.colors.entries.flatMap fun (name, color) => name ++ ": ".toList ++ color ++ ";\n".toList
  pure (colorDefinitions ++ '\n' :: values ++ '\n' :: Text.join ['\n'] rules.flatten ++ ['\n'])

/-- A character of the class in a compiled marker rule. -/
def isClassChar (c : Char) : Bool := isNameChar c || c == '\''

/-- What stands between the class and the color in a compiled marker rule. -/
def ruleOpening : Text := " \x7b\n  color: ".toList

/-- The compiled marker rule at the beginning of a text: its class, its color and the rest. -/
def compiledRule? : Text → Option ((Text × Text) × Text)
  | '.' :: t => do
    let name := t.takeWhile isClassChar
    let value ← Text.dropPrefix? ruleOpening (t.dropWhile isClassChar)
    let (color, rest) ← Text.lastInLine? ';' value
    if name.isEmpty then none else some ((name, color), rest)
  | _ => none

/-- Is the value one of the forms in which colors are compiled? -/
def isCompiledColor (value : Text) : Bool :=
  Text.beginsWith "rgba".toList value || Text.beginsWith ['#'] value

/-- The variables whose colors are wanted: the given ones and their shades. -/
def wanted (names : List Text) : List Text := names ++ names.flatMap Variable.shadeNames

/-- The colors in the compiled marker rules of a style sheet, only those of the given variables
if there are any. -/
def discover (css : Text) (names : Option (List Text)) : Table Text :=
  let rules := Text.allMatches compiledRule? (Css.dropComments css)
  let allowed (name : Text) := names.all fun ns => (wanted ns).contains name
  .ofList (rules.filterMap fun (name, color) =>
    let value := Text.strip color
    if isCompiledColor value && allowed ('@' :: name) then some ('@' :: name, value) else none)

/-- Compiles the markers and reads the colors back.  A refusal is told, and no color is known then. -/
def compile (compiler : Compiler) (colorDefinitions : Text) (m : MarkerAssignment) (paths : List Text)
    (names : List Text) : Recorded (Table Text) := do
  let sheet ← liftM (n := Recorded) (stylesheet colorDefinitions m true)
  match ← Recorded.ask compiler ⟨sheet, paths, none⟩ with
  | .ok css => pure (discover css (some names))
  | .error (.compile source detail) => do
    Recorded.tell (.markersRefused (.compile source detail))
    pure .empty
  | .error fault => throw fault

end Marker
end ThemeSheet
