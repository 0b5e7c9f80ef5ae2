/-
# From colors back to variables

The last steps of a theme: discovered colors give way to the variables they came
from, definitions that the compiler left behind go, and the theme variables are
defined at the top.
-/

import ThemeSheet.Color.Classify
import ThemeSheet.Theme.Fades
import ThemeSheet.Variable.Collection

namespace ThemeSheet
namespace Theme

/-- Is the text a color, no custom patterns given? -/
def isColorText (t : Text) : Bool := (Color.decided? t).getD false

/-- What stands for a discovered color: the variable, or the call that gives the shade. -/
def referenceTo (name : Text) : Text :=
  match Variable.shadeCall name with
  | .ok call => call
  | .error _ => name

/-- Puts a variable in the place of its color, in any letter case. -/
def substituteOne (css : Text) (found : Text × Option Text) : Text :=
  match found.2 with
  | some color => if isColorText color then Text.replaceAnyCase color (referenceTo found.1) css else css
  | none => css

/-- Puts variables in the place of discovered colors, one after another. -/
def substituteVariables (css : Text) (discovered : Discovered) : Text :=
  discovered.entries.foldl substituteOne css

/-- The definition of a variable at the beginning of a text, up to the last semicolon of the line. -/
def definitionOf (name : Text) : Text.Matcher := fun t => do
  let afterName ← Text.dropPrefix? name t
  let value ← Text.dropPrefix? [':'] (afterName.dropWhile (· == ' '))
  let (_, rest) ← Text.lastInLine? ';' value
  pure ([], rest)

/-- Takes the definitions of a variable out of a text and defines it at the top. -/
def prependOne (known : Variable.Collection) (css name : Text) : Except Fault Text := do
  let others := Text.replaceMatches (definitionOf name) css
  pure (name ++ ": ".toList ++ (← known.value name) ++ ";\n".toList ++ others ++ ['\n'])

/-- Defines the variables at the top, in order, and nowhere else. -/
def prependDefinitions (known : Variable.Collection) (css : Text) (names : List Text) : Except Fault Text :=
  names.reverse.foldlM (prependOne known) css

/-- A definition that was left behind, with the points and slashes after it. -/
def leftover : Text.Matcher := fun t => do
  let afterAt ← Text.dropPrefix? ['@'] t
  let value ← Text.dropPrefix? [':'] (afterAt.dropWhile isNameChar)
  let (_, rest) ← Text.lastInLine? ';' (value.dropWhile isBlank)
  if (afterAt.takeWhile isNameChar).isEmpty then none
  else some ([], rest.dropWhile fun c => c == '/' || c == '.')

/-- Takes the definitions that were left behind out of a text. -/
def dropLeftovers (css : Text) : Text := Text.replaceMatches leftover css

/-- The mark by which old browsers are told apart. -/
def browserMark : Text := "\\9".toList

end Theme
end ThemeSheet
