/-
# Faded colors

What a color becomes when it is faded to a percentage: the text that the compiler
prints for it, with the opacity to eight places.
-/

import ThemeSheet.Color.Hex
import ThemeSheet.Number.Decimal
import ThemeSheet.Fault

namespace ThemeSheet
namespace Color

/-- An opacity to eight places, without zeros at the end. -/
def alphaText (alpha : Binary64) : Text := Decimal.trimmed (Decimal.fixed 8 alpha)

/-- The three channels and an opacity. -/
def Rgb.withAlpha (c : Rgb) (alpha : Text) : Text :=
  "rgba(".toList ++ decimalNumeral c.red ++ ", ".toList ++ decimalNumeral c.green ++ ", ".toList ++
    decimalNumeral c.blue ++ ", ".toList ++ alpha ++ [')']

/-- The text of a color faded to a percentage; a full color is written without opacity. -/
def faded (color : Text) (percent : Binary64) : Except Fault Text :=
  match hexToRgb? color with
  | none => .error (.badColor color)
  | some c =>
    let alpha := (percent.divNat 100).clampToUnit
    .ok (if alpha.atLeastOne then c.hex else c.withAlpha (alphaText alpha))

end Color
end ThemeSheet
