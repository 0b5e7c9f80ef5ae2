/-
# Shades

Every theme color comes with a ramp of ten shades.  The sixth is the color itself;
the others are named by the variable, a hyphen and their number, and asked for by a
call of the palette function.
-/

import ThemeSheet.Fault
import ThemeSheet.Text.Numeral
import ThemeSheet.Unicode.Digit

namespace ThemeSheet
namespace Variable

/-- The variable of the main theme color. -/
def primary : Text := "@primary-color".toList

/-- The name that the shades of the main theme color begin with. -/
def primaryShades : Text := "@primary".toList

/-- The numbers of the shades other than the color itself. -/
def shadeNumbers : List Nat := [1, 2, 3, 4, 5, 7, 8, 9, 10]

/-- The base and the number of a shade's name: the number is the digits behind the last hyphen. -/
def shadeParts? (name : Text) : Option (Text × Text) :=
  let whole := Text.withoutLineEnd name
  let digits := (whole.reverse.takeWhile Unicode.isDigit).reverse
  match whole.reverse.dropWhile Unicode.isDigit with
  | '-' :: base => if digits.isEmpty || base.contains '\n' then none else some (base.reverse, digits)
  | _ => none

/-- Is the name that of a shade? -/
def isShade (name : Text) : Bool := (shadeParts? name).isSome

/-- The names of the shades of a variable. -/
def shadeNames (name : Text) : List Text :=
  let base := if name = primary then primaryShades else name
  shadeNumbers.map fun n => base ++ '-' :: decimalDigits n

/-- The name without the `@` signs at its beginning. -/
def bareName (name : Text) : Text := name.dropWhile (· == '@')

/-- The call of the palette function for a shade of a variable. -/
def paletteCall (name number : Text) : Text :=
  "color(~`colorPalette(\"@\x7b".toList ++ name ++ "\x7d\", ".toList ++ number ++ ")`)".toList

/-- The call that gives the shade of the given name. -/
def shadeCall (name : Text) : Except Fault Text :=
  match shadeParts? name with
  | none => .error (.notAShade name)
  | some (base, number) =>
    .ok (paletteCall (bareName (if base = primaryShades then primary else base)) number)

end Variable
end ThemeSheet
