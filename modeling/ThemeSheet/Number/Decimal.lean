/-
# Decimal numerals of double precision numbers

Two written forms.  `fixed` has a given number of places behind the point;
`significant` has up to six significant digits and takes the form with an exponent
where the number is very small or large.  Both round the exact value once, a tie to
the even digit.  `numeral?` reads plain numerals, in the digits of any script.
-/

import ThemeSheet.Number.Binary64
import ThemeSheet.Unicode.Digit

namespace ThemeSheet
namespace Decimal

/-- Removes the given character from the end of a text, as often as it stands there. -/
def dropTrailing (c : Char) (t : Text) : Text := (t.reverse.dropWhile (· == c)).reverse

/-- A whole number with a point before its last `places` digits. -/
def withPoint (places n : Nat) : Text :=
  let whole := decimalDigits (n / tenTo places)
  if places = 0 then whole else whole ++ '.' :: zeroPadded places (decimalDigits (n % tenTo places))

/-- The sign of a negative number; zero has one too. -/
def signText (x : Binary64) : Text := if x.isNegative then ['-'] else []

/-- The numeral with exactly `places` places. -/
def fixed (places : Nat) (x : Binary64) : Text :=
  match x with
  | .infinite _ => signText x ++ "inf".toList
  | .finite _ _ _ =>
    signText x ++ withPoint places (roundHalfEven (x.magnitude.1 * tenTo places) x.magnitude.2)

/-- The numeral without the zeros behind the last other place, and without a point that then stands last. -/
def trimmed (t : Text) : Text := dropTrailing '.' (dropTrailing '0' t)

/-- The number of the power of ten at or below `num / den`. -/
def leadingPower (num den : Nat) : Int :=
  let guess : Int := (decimalDigits num).length - (decimalDigits den).length
  if den * tenTo guess.toNat ≤ num * tenTo (-guess).toNat then guess else guess - 1

/-- Six significant digits of `num / den` and the power of ten of the first one. -/
def sixDigits (num den : Nat) : Nat × Int :=
  let power := leadingPower num den
  let q := roundHalfEven (num * tenTo (5 - power).toNat) (den * tenTo (power - 5).toNat)
  if q = 1000000 then (100000, power + 1) else (q, power)

/-- An exponent: its sign and at least two digits. -/
def exponentText (e : Int) : Text :=
  'e' :: (if e < 0 then '-' else '+') :: zeroPadded 2 (decimalDigits e.natAbs)

/-- The numeral with up to six significant digits; with an exponent below `10 ^ -4` and from `10 ^ 6` on. -/
def significant (x : Binary64) : Text :=
  match x with
  | .infinite _ => signText x ++ "inf".toList
  | .finite _ 0 _ => signText x ++ ['0']
  | .finite _ _ _ =>
    let (q, power) := sixDigits x.magnitude.1 x.magnitude.2
    signText x ++
      if power < -4 ∨ 6 ≤ power then trimmed (withPoint 5 q) ++ exponentText power
      else if power = 5 then decimalDigits q
      else trimmed (withPoint (5 - power).toNat q)

/-- The number that a run of digits denotes; other characters count as zero. -/
def digitsNumber (t : Text) : Nat := t.foldl (fun n c => 10 * n + (Unicode.digitValue? c).getD 0) 0

/-- Reads a numeral of digits with at most one point and at least one digit. -/
def numeral? (t : Text) : Option Binary64 :=
  let whole := t.takeWhile Unicode.isDigit
  match t.dropWhile Unicode.isDigit with
  | [] => if whole.isEmpty then none else some (.ofDecimal false (digitsNumber whole) 0)
  | c :: fraction =>
    if c = '.' ∧ fraction.all Unicode.isDigit ∧ ¬ (whole.isEmpty ∧ fraction.isEmpty) then
      some (.ofDecimal false (digitsNumber (whole ++ fraction)) (-fraction.length))
    else none

end Decimal
end ThemeSheet
