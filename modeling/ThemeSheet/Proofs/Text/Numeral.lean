/-
# Numerals

The number that a run of digits denotes, and the digits of a number: they denote it,
however many zeros fill them up.  So numbers and integers with the same decimal
numeral are equal.
-/

import Mathlib.Algebra.Group.Nat.Defs
import Mathlib.Data.List.Induction
import ThemeSheet.Text.Numeral

namespace ThemeSheet

/-! ### Hexadecimal digits -/

/-- A further digit counts once, those before it sixteen times. -/
theorem hexNumber_concat (t : Text) (c : Char) :
    hexNumber (t ++ [c]) = 16 * hexNumber t + (hexValue? c).getD 0 := by
  simp [hexNumber]

/-- A hexadecimal digit is worth less than sixteen. -/
theorem hexValue?_lt (c : Char) : (hexValue? c).getD 0 < 16 := by
  unfold hexValue?
  dsimp only
  split
  · next h => simp at h ⊢; omega
  · split
    · next h => simp at h ⊢; omega
    · split
      · next h => simp at h ⊢; omega
      · simp

/-- A numeral of so many digits denotes less than that power of sixteen. -/
theorem hexNumber_lt (t : Text) : hexNumber t < 16 ^ t.length := by
  induction t using List.reverseRecOn with
  | nil => decide
  | append_singleton t c ih =>
    have := hexValue?_lt c
    rw [hexNumber_concat, List.length_append, List.length_singleton, Nat.pow_succ]
    omega

/-- The same for a bound on the number of digits. -/
theorem hexNumber_lt_of_length {t : Text} {n : Nat} (h : t.length ≤ n) : hexNumber t < 16 ^ n :=
  Nat.lt_of_lt_of_le (hexNumber_lt t) (Nat.pow_le_pow_right (by decide) h)

/-- The digit of a number below sixteen has this value. -/
theorem hexValue?_lowerDigit : ∀ n < 16, hexValue? n.digitChar = some n := by
  decide +kernel

/-- **The hexadecimal digits of a number denote it.** -/
theorem hexNumber_toDigits (n : Nat) : hexNumber (Nat.toDigits 16 n) = n := by
  induction n using Nat.strongRecOn with
  | _ n ih =>
    rcases Nat.lt_or_ge n 16 with hn | hn
    · rw [Nat.toDigits_of_lt_base hn, ← List.nil_append [n.digitChar], hexNumber_concat,
        hexValue?_lowerDigit n hn]
      simp [hexNumber]
    · rw [Nat.toDigits_of_base_le (by decide) hn, hexNumber_concat, ih _ (by omega),
        hexValue?_lowerDigit _ (Nat.mod_lt _ (by decide)), Option.getD_some]
      omega

/-- **The digits of a number denote it,** also with zeros in front. -/
theorem hexNumber_hexDigits (width n : Nat) : hexNumber (hexDigits width n) = n := by
  rw [hexDigits, zeroPadded]
  generalize width - (Nat.toDigits 16 n).length = zeros
  have hzeros : (List.replicate zeros '0').foldl (fun n c => 16 * n + (hexValue? c).getD 0) 0 = 0 := by
    induction zeros with
    | zero => rfl
    | succ zeros ih => rw [List.replicate_succ, List.foldl_cons]; exact ih
  rw [hexNumber, List.foldl_append, hzeros]
  exact hexNumber_toDigits n

/-! ### Decimal digits -/

/-- The decimal digits of a number are digits. -/
theorem isDigit_of_mem_decimalDigits {n : Nat} {c : Char} (h : c ∈ decimalDigits n) : c.isDigit = true :=
  Nat.isDigit_of_mem_toDigits (by decide) (by decide) h

/-- A number has a digit. -/
theorem decimalDigits_ne_nil (n : Nat) : decimalDigits n ≠ [] := Nat.toDigits_ne_nil

/-- A minus sign is no digit. -/
theorem decimalDigits_ne_minus (n : Nat) (t : Text) : decimalDigits n ≠ '-' :: t := by
  intro h
  have hminus : '-' ∈ decimalDigits n := by rw [h]; exact List.mem_cons_self ..
  exact absurd (isDigit_of_mem_decimalDigits hminus) (by decide)

/-- **The decimal digits of a number denote it.** -/
theorem ofDigitChars_decimalDigits (n : Nat) : Nat.ofDigitChars 10 (decimalDigits n) 0 = n :=
  Nat.ofDigitChars_toDigits (by decide) (by decide)

/-- **Different numbers have different digits.** -/
theorem decimalDigits_injective : Function.Injective decimalDigits := by
  intro m n h
  rw [← ofDigitChars_decimalDigits m, h, ofDigitChars_decimalDigits n]

/-- **Different integers have different numerals.** -/
theorem decimalNumeral_injective : Function.Injective decimalNumeral := by
  intro m n h
  cases m with
  | ofNat m =>
    cases n with
    | ofNat n => rw [decimalDigits_injective h]
    | negSucc n => exact absurd h (decimalDigits_ne_minus m _)
  | negSucc m =>
    cases n with
    | ofNat n => exact absurd h.symm (decimalDigits_ne_minus n _)
    | negSucc n => rw [Nat.succ.inj (decimalDigits_injective (List.cons.inj h).2)]

end ThemeSheet
