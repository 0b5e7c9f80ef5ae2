/-
# Numerals

Whole numbers in decimal and hexadecimal digits, lower case.
-/

import ThemeSheet.Text.Basic

namespace ThemeSheet

/-- How many decimal digits a whole number may be written with to be read. -/
def longestNumeral : Nat := 4300

/-- The decimal digits of a number. -/
def decimalDigits (n : Nat) : Text := Nat.toDigits 10 n

/-- The decimal numeral of an integer. -/
def decimalNumeral : Int → Text
  | .ofNat n => decimalDigits n
  | .negSucc n => '-' :: decimalDigits (n + 1)

/-- Fills up with zeros on the left to at least `width` characters. -/
def zeroPadded (width : Nat) (t : Text) : Text := List.replicate (width - t.length) '0' ++ t

/-- The hexadecimal digits of a number, at least `width` of them. -/
def hexDigits (width n : Nat) : Text := zeroPadded width (Nat.toDigits 16 n)

/-- The hexadecimal numeral of an integer, at least `width` characters with its sign. -/
def hexNumeral (width : Nat) : Int → Text
  | .ofNat n => hexDigits width n
  | .negSucc n => '-' :: hexDigits (width - 1) (n + 1)

/-- The value of an ASCII hexadecimal digit. -/
def hexValue? (c : Char) : Option Nat :=
  let n := c.toNat
  if 48 ≤ n && n ≤ 57 then some (n - 48)
  else if 97 ≤ n && n ≤ 102 then some (n - 87)
  else if 65 ≤ n && n ≤ 70 then some (n - 55)
  else none

/-- Is the character an ASCII hexadecimal digit? -/
def isHexDigit (c : Char) : Bool := (hexValue? c).isSome

/-- The number that a run of hexadecimal digits denotes; other characters count as zero. -/
def hexNumber (t : Text) : Nat := t.foldl (fun n c => 16 * n + (hexValue? c).getD 0) 0

end ThemeSheet
