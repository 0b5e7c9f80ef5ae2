/-
# Double precision numbers

A number of double precision is a sign, a whole number of at most 53 binary digits
and a power of two, or an infinity.  Every operation computes the exact result in
whole numbers and rounds it once, a tie to the even neighbour.
-/

import ThemeSheet.Number.Rounding
import ThemeSheet.Text.Numeral

namespace ThemeSheet

/-- A number of double precision: `± mantissa · 2 ^ exponent`, or an infinity. -/
inductive Binary64 where
  | finite (negative : Bool) (mantissa : Nat) (exponent : Int)
  | infinite (negative : Bool)
deriving DecidableEq, Repr

namespace Binary64

/-- `num · 2 ^ shift` over `den` as a fraction of whole numbers. -/
def scale (num den : Nat) (shift : Int) : Nat × Nat :=
  (num * twoTo shift.toNat, den * twoTo (-shift).toNat)

/-- The exponent of the numbers with 53 binary digits around `num / den`, but not below the
least exponent there is. -/
def exponentFor (num den : Nat) : Int :=
  let guess : Int := num.log2 - den.log2 - 53
  let (n, d) := scale num den (-guess)
  max (-1074) (if n / d < twoTo 53 then guess else guess + 1)

/-- The number nearest to `± num / den`. -/
def ofRatio (negative : Bool) (num den : Nat) : Binary64 :=
  if num = 0 then .finite negative 0 0
  else
    let e := exponentFor num den
    let (n, d) := scale num den (-e)
    let m := roundHalfEven n d
    if 971 < e ∨ (e = 971 ∧ twoTo 53 ≤ m) then .infinite negative else .finite negative m e

/-- The number nearest to `± digits · 10 ^ exponent`. -/
def ofDecimal (negative : Bool) (digits : Nat) (exponent : Int) : Binary64 :=
  ofRatio negative (digits * tenTo exponent.toNat) (tenTo (-exponent).toNat)

/-- The number nearest to an integer. -/
def ofInt (i : Int) : Binary64 := ofRatio (i < 0) i.natAbs 1

/-- The fraction that the magnitude of a finite number is; that of an infinity is left open. -/
def magnitude : Binary64 → Nat × Nat
  | finite _ m e => scale m 1 e
  | infinite _ => (0, 1)

/-- Is the sign a minus? -/
def isNegative : Binary64 → Bool
  | finite s _ _ => s
  | infinite s => s

/-- The quotient by a whole number. -/
def divNat (x : Binary64) (k : Nat) : Binary64 :=
  match x with
  | finite s _ _ => ofRatio s x.magnitude.1 (x.magnitude.2 * k)
  | infinite s => infinite s

/-- The product. -/
def mul : Binary64 → Binary64 → Binary64
  | finite s m e, finite s' m' e' =>
    let (n, d) := scale (m * m') 1 (e + e')
    ofRatio (s != s') n d
  | x, y => infinite (x.isNegative != y.isNegative)

/-- The whole number `± mantissa · 2 ^ (exponent - least)` for an exponent that is not smaller. -/
def aligned (negative : Bool) (mantissa : Nat) (exponent least : Int) : Int :=
  let m : Int := mantissa * twoTo (exponent - least).toNat
  if negative then -m else m

/-- The sum. -/
def add : Binary64 → Binary64 → Binary64
  | finite s m e, finite s' m' e' =>
    let least := min e e'
    let sum := aligned s m e least + aligned s' m' e' least
    let (n, d) := scale sum.natAbs 1 least
    ofRatio (if sum = 0 then s && s' else sum < 0) n d
  | infinite s, _ => infinite s
  | _, infinite s => infinite s

/-- The number with the other sign. -/
def neg : Binary64 → Binary64
  | finite s m e => finite (!s) m e
  | infinite s => infinite (!s)

/-- The difference. -/
def sub (x y : Binary64) : Binary64 := x.add y.neg

/-- The nearest integer, the even one of two. -/
def round (x : Binary64) : Int :=
  let m : Int := roundHalfEven x.magnitude.1 x.magnitude.2
  if x.isNegative then -m else m

/-- Is the number at least one? -/
def atLeastOne : Binary64 → Bool
  | infinite s => !s
  | x@(finite s _ _) => !s && x.magnitude.2 ≤ x.magnitude.1

/-- The number where it lies between zero and one, else the nearer of these. -/
def clampToUnit (x : Binary64) : Binary64 :=
  if x.atLeastOne then finite false 1 0
  else if x.isNegative then finite false 0 0
  else x

end Binary64
end ThemeSheet
