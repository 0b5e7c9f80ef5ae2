/-
# Rounding exact fractions

A fraction is rounded to the nearest integer, and one in the middle to the even
neighbour.  This fixes one integer for every fraction, and the other sign gives the
other integer.  `roundHalfEven` is this rule for quotients of whole numbers, so what is
computed from the mantissa and the exponent of a number is the exact number, rounded.
-/

import Mathlib.Algebra.Order.Floor.Semifield
import Mathlib.Algebra.Order.Round
import Mathlib.Data.Rat.Floor
import Mathlib.Tactic.FieldSimp
import Mathlib.Tactic.Linarith
import ThemeSheet.Number.Binary64

namespace ThemeSheet

/-! ### The nearest integer -/

/-- **The integer nearest to a fraction,** the even one of two. -/
structure IsNearestEven (x : ℚ) (n : ℤ) : Prop where
  near : |x - n| ≤ 1 / 2
  even : |x - n| = 1 / 2 → Even n

variable {x : ℚ} {m n : ℤ}

/-- Of two integers nearest to a fraction, neither is the larger one. -/
theorem IsNearestEven.le (hm : IsNearestEven x m) (hn : IsNearestEven x n) : m ≤ n := by
  by_contra hlt
  obtain ⟨hm₁, hm₂⟩ := abs_le.1 hm.near
  obtain ⟨hn₁, hn₂⟩ := abs_le.1 hn.near
  -- the fraction lies in the middle between neighbours, of which both would be even
  have hnext : m = n + 1 := by
    have hlt' : (n : ℚ) < m := by exact_mod_cast not_le.1 hlt
    have hle : (m : ℚ) ≤ (n + 1 : ℤ) := by push_cast; linarith
    have := Int.cast_le.1 hle
    omega
  subst hnext
  push_cast at hm₁ hm₂ hn₁ hn₂
  have hmiddle : x - n = 1 / 2 := by linarith
  have heven := hn.even (by rw [hmiddle]; norm_num)
  have heven' := hm.even (by push_cast; rw [show x - (n + 1) = -(1 / 2) by linarith]; norm_num)
  exact Int.even_add_one.1 heven' heven

/-- **There is one nearest integer.** -/
theorem IsNearestEven.unique (hm : IsNearestEven x m) (hn : IsNearestEven x n) : m = n :=
  le_antisymm (hm.le hn) (hn.le hm)

/-- The integer nearest to the negative is the negative of the nearest one. -/
theorem IsNearestEven.neg (h : IsNearestEven x n) : IsNearestEven (-x) (-n) := by
  have hdist : |-x - (-n : ℤ)| = |x - n| := by
    rw [Int.cast_neg, ← abs_neg]
    congr 1
    ring
  exact ⟨hdist ▸ h.near, fun he => (h.even (hdist ▸ he)).neg⟩

/-- The nearest integer, and the even neighbour of a fraction in the middle. -/
def nearestEven (x : ℚ) : ℤ :=
  if Int.fract x = 1 / 2 then (if Even ⌊x⌋ then ⌊x⌋ else ⌊x⌋ + 1) else round x

/-- The nearest integer is nearest. -/
theorem isNearestEven_nearestEven (x : ℚ) : IsNearestEven x (nearestEven x) := by
  rw [nearestEven]
  split
  · next hmiddle =>
    have hx : x = ⌊x⌋ + 1 / 2 := by rw [← hmiddle, Int.floor_add_fract]
    split
    · next heven => exact ⟨by rw [Int.self_sub_floor, hmiddle]; norm_num, fun _ => heven⟩
    · next hodd =>
      have hdist : x - (⌊x⌋ + 1 : ℤ) = -(1 / 2) := by push_cast; linarith
      exact ⟨by rw [hdist]; norm_num, fun _ => Int.even_add_one.2 hodd⟩
  · next hmiddle =>
    refine ⟨abs_sub_round x, fun h => absurd ?_ hmiddle⟩
    rw [abs_sub_round_eq_min] at h
    rcases min_choice (Int.fract x) (1 - Int.fract x) with hmin | hmin <;> linarith

/-- The nearest integer is the only one. -/
theorem nearestEven_eq_iff : nearestEven x = n ↔ IsNearestEven x n :=
  ⟨fun h => h ▸ isNearestEven_nearestEven x, (isNearestEven_nearestEven x).unique⟩

/-- Rounding does not depend on the sign. -/
theorem nearestEven_neg (x : ℚ) : nearestEven (-x) = -nearestEven x :=
  nearestEven_eq_iff.2 (isNearestEven_nearestEven x).neg

/-! ### Quotients of whole numbers -/

/-- In the middle between two integers, the even one is taken. -/
theorem even_roundHalfEven {num den : Nat} (hden : 0 < den)
    (h : 2 * num = 2 * (roundHalfEven num den * den) + den ∨ 2 * num + den = 2 * (roundHalfEven num den * den)) :
    roundHalfEven num den % 2 = 0 := by
  have hdiv := Nat.div_add_mod' num den
  have hmod := Nat.mod_lt num hden
  have hsucc : (num / den + 1) * den = num / den * den + den := Nat.succ_mul _ _
  revert h
  rw [roundHalfEven]
  split
  · omega
  · split
    · rw [hsucc]; omega
    · omega

/-- How far a whole number is from a quotient, in halves of the divisor. -/
theorem abs_div_sub (num q : Nat) {den : Nat} (hden : 0 < den) :
    |(num / den : ℚ) - q| = |(2 * num - 2 * (q * den) : ℤ)| / (2 * den) := by
  have hpos : (0 : ℚ) < den := by exact_mod_cast hden
  have hquotient : (num / den : ℚ) - q = (2 * num - 2 * (q * den) : ℤ) / (2 * den) := by
    push_cast
    field_simp
  rw [hquotient, abs_div, abs_of_pos (show (0 : ℚ) < 2 * den by positivity), Int.cast_abs]

/-- **Whole numbers are rounded as their quotient.** -/
theorem nearestEven_div (num : Nat) {den : Nat} (hden : 0 < den) :
    nearestEven (num / den : ℚ) = roundHalfEven num den := by
  obtain ⟨hbelow, habove⟩ := roundHalfEven_near num hden
  have htwo : (0 : ℚ) < 2 * den := by exact_mod_cast Nat.mul_pos Nat.two_pos hden
  have hhalf : 1 / 2 * (2 * den : ℚ) = (den : ℤ) := by rw [Int.cast_natCast]; ring
  rw [nearestEven_eq_iff]
  refine ⟨?_, fun hmiddle => ?_⟩
  · rw [Int.cast_natCast, abs_div_sub _ _ hden, div_le_iff₀ htwo, hhalf, Int.cast_le, abs_le]
    omega
  · rw [Int.cast_natCast, abs_div_sub _ _ hden, div_eq_iff htwo.ne', hhalf, Int.cast_inj] at hmiddle
    have htie : 2 * num = 2 * (roundHalfEven num den * den) + den ∨
        2 * num + den = 2 * (roundHalfEven num den * den) := by
      rcases (abs_eq (Int.natCast_nonneg den)).1 hmiddle with h | h
      · exact .inl (by omega)
      · exact .inr (by omega)
    have heven := even_roundHalfEven hden htie
    rw [Int.even_iff]
    omega

/-- **A fraction rounded to a number of places** behind the point. -/
def roundedTo (places : Nat) (x : ℚ) : ℚ := nearestEven (x * 10 ^ places) / 10 ^ places

/-- Rounding to places does not depend on the sign. -/
theorem roundedTo_neg (places : Nat) (x : ℚ) : roundedTo places (-x) = -roundedTo places x := by
  rw [roundedTo, neg_mul, nearestEven_neg, Int.cast_neg, neg_div, roundedTo]

/-! ### Double precision -/

namespace Binary64

/-- The sign as a factor. -/
def signOf (negative : Bool) : ℚ := if negative then -1 else 1

/-- A sign has the magnitude one. -/
theorem abs_signOf (s : Bool) : |signOf s| = 1 := by cases s <;> simp [signOf]

/-- **The exact number** that a sign, a mantissa and an exponent stand for. -/
def exact (negative : Bool) (mantissa : Nat) (exponent : Int) : ℚ := signOf negative * (mantissa * 2 ^ exponent)

/-- The places of the magnitude of a number, rounded to a whole number of the last one. -/
def lastPlaces (places : Nat) (x : Binary64) : Nat := roundHalfEven (x.magnitude.1 * tenTo places) x.magnitude.2

/-- A magnitude has no zero below its line. -/
theorem magnitude_pos (s : Bool) (m : Nat) (e : Int) : 0 < (finite s m e).magnitude.2 := by
  show 0 < 1 * 2 ^ (-e).toNat
  positivity

/-- **The magnitude of a number as a quotient.** -/
theorem magnitude_div (s : Bool) (m : Nat) (e : Int) :
    ((finite s m e).magnitude.1 / (finite s m e).magnitude.2 : ℚ) = m * 2 ^ e := by
  show ((m * 2 ^ e.toNat : Nat) / (1 * 2 ^ (-e).toNat : Nat) : ℚ) = m * 2 ^ e
  push_cast
  cases e with
  | ofNat n => simp
  | negSucc n => rw [zpow_negSucc, Int.neg_negSucc]; simp [div_eq_mul_inv]

/-- **A number is rounded as its magnitude is,** under its sign. -/
theorem roundedTo_exact (places : Nat) (s : Bool) (m : Nat) (e : Int) :
    roundedTo places (exact s m e) = signOf s * ((finite s m e).lastPlaces places / 10 ^ places) := by
  have hmagnitude : roundedTo places (m * 2 ^ e) = (finite s m e).lastPlaces places / 10 ^ places := by
    have hquotient : (m * 2 ^ e * 10 ^ places : ℚ) =
        ((finite s m e).magnitude.1 * tenTo places : Nat) / (finite s m e).magnitude.2 := by
      rw [← magnitude_div s, show tenTo places = 10 ^ places from rfl]
      push_cast
      ring
    rw [roundedTo, hquotient, nearestEven_div _ (magnitude_pos s m e), lastPlaces, Int.cast_natCast]
  cases s with
  | false => rw [exact, signOf, if_neg Bool.false_ne_true, one_mul, one_mul, hmagnitude]
  | true => rw [exact, signOf, if_pos rfl, neg_one_mul, neg_one_mul, roundedTo_neg, hmagnitude]

/-- The whole part of a rounded number. -/
theorem floor_abs_roundedTo (places : Nat) (s : Bool) (m : Nat) (e : Int) :
    ⌊|roundedTo places (exact s m e)|⌋₊ = (finite s m e).lastPlaces places / tenTo places := by
  have hquotient : ((finite s m e).lastPlaces places / 10 ^ places : ℚ) =
      ((finite s m e).lastPlaces places : ℚ) / (tenTo places : Nat) := by
    rw [show tenTo places = 10 ^ places from rfl, Nat.cast_pow, Nat.cast_ofNat]
  rw [roundedTo_exact, abs_mul, abs_signOf, one_mul, hquotient, abs_of_nonneg (by positivity), Nat.floor_div_eq_div]

/-- Under one sign, numbers that are rounded to the same have the same places. -/
theorem lastPlaces_eq_of_roundedTo_eq {places : Nat} {s : Bool} {m m' : Nat} {e e' : Int}
    (h : roundedTo places (exact s m e) = roundedTo places (exact s m' e')) :
    (finite s m e).lastPlaces places = (finite s m' e').lastPlaces places := by
  have hsign : signOf s ≠ 0 := by cases s <;> simp [signOf]
  rw [roundedTo_exact, roundedTo_exact] at h
  have hscaled := mul_left_cancel₀ hsign h
  have hten : (10 : ℚ) ^ places ≠ 0 := by positivity
  exact_mod_cast (div_left_inj' hten).1 hscaled

end Binary64
end ThemeSheet
