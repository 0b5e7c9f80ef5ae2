/-
# Telling colors from other values

`isColor` decides whether the value of a Less variable is a color: hexadecimal
colors, calls such as `hsl(…)`, calls whose result is a color, and what custom
patterns describe.
-/

import ThemeSheet.Color.Hex
import ThemeSheet.Pattern.Parser
import ThemeSheet.Text.Replace

namespace ThemeSheet
namespace Color

/-- The functions of the style language that give colors, in the order in which their patterns stand. -/
def colorFunctions : List Text :=
  ["color", "lighten", "darken", "saturate", "desaturate", "fadein", "fadeout", "fade", "spin", "mix",
    "hsv", "tint", "shade", "greyscale", "multiply", "contrast", "screen", "overlay"].map String.toList

/-- The written patterns of calls of color functions. -/
def functionPatterns : List Text := colorFunctions.map (· ++ "\\(.*\\)".toList)

/-- The names of color calls with numbers. -/
def callNames : List Text := ["rgb".toList, "hsl".toList, "hsv".toList]

/-- The units of angles. -/
def angleUnits : List Text := ["deg".toList, "rad".toList, "grad".toList, "turn".toList]

/-- The rest of a text behind the first of the words that begins it, in any letter case. -/
def dropWord? (words : List Text) (t : Text) : Option Text :=
  words.findSome? fun w => Text.dropPrefixAnyCase? w t

/-- A comma or a blank. -/
def isSeparator (c : Char) : Bool := c == ',' || isBlank c

/-- The text without the given character at its beginning, if it stands there. -/
def dropOne (c : Char) : Text → Text
  | [] => []
  | d :: t => if d = c then t else d :: t

/-- Reads a component of a call: digits, a percent sign or not, a unit or not, separators. -/
def component? (t : Text) : Option Text :=
  if t.head?.any Unicode.isDigit then
    let afterSign := dropOne '%' (t.dropWhile Unicode.isDigit)
    let afterUnit := (dropWord? angleUnits afterSign).getD afterSign
    if afterUnit.head?.any isSeparator then some (afterUnit.dropWhile isSeparator) else none
  else none

/-- Is the text the last component of a call: slashes and blanks, digits and points, a percent
sign or not, and the closing bracket? -/
def isLastComponent (t : Text) : Bool :=
  let isNumberChar c := Unicode.isDigit c || c == '.'
  let number := t.dropWhile fun c => isBlank c || c == '/'
  number.head?.any isNumberChar && dropOne '%' (number.dropWhile isNumberChar) == [')']

/-- Is the text a color call: a name, three or four components? -/
def isColorCall (t : Text) : Bool :=
  match dropWord? callNames t with
  | none => false
  | some afterName =>
    let afterLetter := (Text.dropPrefixAnyCase? ['a'] afterName).getD afterName
    match afterLetter with
    | '(' :: inner =>
      match (component? inner).bind component? with
      | none => false
      | some rest => isLastComponent rest || (component? rest).any isLastComponent
    | _ => false

/-- What can be said of a value without custom patterns; `none` when they decide. -/
def decided? (t : Text) : Option Bool :=
  if Text.occursIn "rgb".toList t then some true
  else if t.isEmpty || Text.occursIn "px".toList t then some false
  else if Text.occursIn "colorPalette".toList t || Text.occursIn "fade".toList t then some true
  else
    match Text.strip t with
    | '#' :: digits => some (isHexColor ('#' :: digits))
    | s => if isColorCall s then some true else none

/-- Is the value a color?  The custom patterns are looked at only where nothing else decides, and
a malformed one is a fault only then. -/
def isColor (custom : Except Fault (List Pattern)) (t : Text) : Except Fault Bool :=
  match decided? t with
  | some b => .ok b
  | none => custom.map fun ps => ps.any (Pattern.isFoundIn · (Text.strip t))

end Color
end ThemeSheet
