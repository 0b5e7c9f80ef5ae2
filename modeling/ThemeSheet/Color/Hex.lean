/-
# Hexadecimal colors

A color is three channels.  Its usual written form is a number sign and two
hexadecimal digits to a channel; short forms have one digit, which counts twice,
and forms with a fourth channel give an opacity that is left out here.
-/

import ThemeSheet.Text.Numeral

namespace ThemeSheet
namespace Color

/-- The three channels of a color. -/
structure Rgb where
  red : Int
  green : Int
  blue : Int
deriving DecidableEq, Repr

/-- The longest text that is looked at. -/
def longestColor : Nat := 100

/-- The hexadecimal digits of a text as numbers, if it holds nothing else. -/
def hexValues? (t : Text) : Option (List Nat) := t.mapM hexValue?

/-- Reads the channels of a hexadecimal color, in either letter case, one line feed at the
end allowed. -/
def hexToRgb? (t : Text) : Option Rgb :=
  if longestColor < t.length then none
  else
    match t with
    | '#' :: digits =>
      match hexValues? (Text.withoutLineEnd digits) with
      | some [r, g, b] | some [r, g, b, _] => some ⟨17 * r, 17 * g, 17 * b⟩
      | some [r, r', g, g', b, b'] | some [r, r', g, g', b, b', _, _] =>
        some ⟨16 * r + r', 16 * g + g', 16 * b + b'⟩
      | _ => none
    | _ => none

/-- The color as a number sign and two hexadecimal digits to a channel. -/
def Rgb.hex (c : Rgb) : Text :=
  '#' :: hexNumeral 2 c.red ++ hexNumeral 2 c.green ++ hexNumeral 2 c.blue

/-- Is the text a number sign and 3, 4, 6 or 8 hexadecimal digits? -/
def isHexColor : Text → Bool
  | '#' :: digits => digits.all isHexDigit && [3, 4, 6, 8].contains digits.length
  | _ => false

end Color
end ThemeSheet
