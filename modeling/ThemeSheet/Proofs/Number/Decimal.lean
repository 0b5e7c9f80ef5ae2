/-
# Plain decimal numerals, written and read

A numeral with a fixed number of places ends with zeros that say nothing, and perhaps
with a point behind which nothing else stands.  Once both are removed it is plain: a
sign, the digits of the whole part, and behind a point digits the last of which is no
zero.  Only zeros behind the point are removed, so the numeral is still read as the
number it was written for.
-/

import Mathlib.Data.List.DropRight
import ThemeSheet.Number.Decimal
import ThemeSheet.Proofs.Number.Rounding
import ThemeSheet.Proofs.Text.Numeral

namespace ThemeSheet
namespace Decimal

open Binary64

variable {places n whole : Nat} {s : Bool} {t fraction : Text} {c : Char}

/-! ### Reading -/

/-- The number that the digits of the whole part and the places behind the point denote. -/
def digitsValue (whole fraction : Text) : ℚ := Nat.ofDigitChars 10 (whole ++ fraction) 0 / 10 ^ fraction.length

/-- Reads digits, and a point with digits behind it if one follows. -/
def readUnsigned? (t : Text) : Option ℚ :=
  let whole := t.takeWhile Char.isDigit
  match t.dropWhile Char.isDigit with
  | [] => if whole = [] then none else some (digitsValue whole [])
  | c :: fraction =>
    if c = '.' ∧ whole ≠ [] ∧ fraction ≠ [] ∧ fraction.all Char.isDigit then some (digitsValue whole fraction)
    else none

/-- **Reads a decimal numeral exactly,** with a minus sign in front or without one. -/
def read? (t : Text) : Option ℚ :=
  if t.head? = some '-' then (readUnsigned? t.tail).map Neg.neg else readUnsigned? t

/-! ### Plain numerals -/

/-- The point and the places behind it; no places, no point. -/
def pointed (fraction : Text) : Text := if fraction = [] then [] else '.' :: fraction

/-- **A plain numeral:** a minus sign if the number is negative, the digits of the whole part, and behind a point
digits the last of which is no zero; no point without them. -/
structure IsPlain (negative : Bool) (whole : Nat) (fraction t : Text) : Prop where
  written : t = (if negative then ['-'] else []) ++ (decimalDigits whole ++ pointed fraction)
  digits : ∀ c ∈ fraction, c.isDigit = true
  last : fraction.getLast? ≠ some '0'

/-- The whole part begins with a digit. -/
theorem head?_decimalDigits_append (n : Nat) (t : Text) : (decimalDigits n ++ t).head? ≠ some '-' := by
  obtain ⟨c, u, hc⟩ := List.exists_cons_of_ne_nil (decimalDigits_ne_nil n)
  rw [hc, List.cons_append, List.head?_cons, ne_eq, Option.some.injEq]
  rintro rfl
  exact decimalDigits_ne_minus n u hc

/-- A plain numeral is read as the number that its digits write. -/
theorem readUnsigned?_plain (hdigits : ∀ c ∈ fraction, c.isDigit = true) :
    readUnsigned? (decimalDigits whole ++ pointed fraction) = some (digitsValue (decimalDigits whole) fraction) := by
  have hwhole : ∀ c ∈ decimalDigits whole, c.isDigit = true := fun c => isDigit_of_mem_decimalDigits
  rw [readUnsigned?, List.takeWhile_append_of_pos hwhole, List.dropWhile_append_of_pos hwhole]
  by_cases h : fraction = []
  · simp [pointed, h, decimalDigits_ne_nil]
  · have hpoint : ¬ Char.isDigit '.' = true := by decide
    rw [pointed, if_neg h, List.takeWhile_cons_of_neg hpoint, List.dropWhile_cons_of_neg hpoint, List.append_nil]
    exact if_pos ⟨rfl, decimalDigits_ne_nil whole, h, List.all_eq_true.2 hdigits⟩

/-- **A plain numeral is read as its digits say.** -/
theorem IsPlain.read?_eq (h : IsPlain s whole fraction t) :
    read? t = some (signOf s * digitsValue (decimalDigits whole) fraction) := by
  obtain ⟨rfl, hdigits, -⟩ := h
  cases s with
  | true =>
    rw [read?, if_pos rfl]
    show (readUnsigned? (decimalDigits whole ++ pointed fraction)).map Neg.neg = _
    rw [readUnsigned?_plain hdigits, Option.map_some, signOf, if_pos rfl, neg_one_mul]
  | false =>
    rw [if_neg Bool.false_ne_true, List.nil_append, read?, if_neg (head?_decimalDigits_append _ _),
      readUnsigned?_plain hdigits, signOf, if_neg Bool.false_ne_true, one_mul]

/-- **A plain numeral begins with a minus sign exactly if its number is negative.** -/
theorem IsPlain.head?_eq (h : IsPlain s whole fraction t) : t.head? = some '-' ↔ s = true := by
  obtain ⟨rfl, -⟩ := h
  cases s with
  | true => simp
  | false => simpa using head?_decimalDigits_append whole (pointed fraction)

/-! ### What is removed -/

/-- The end of two texts is dropped in the second, and goes on into the first if nothing is left of that. -/
theorem dropTrailing_append (c : Char) (t u : Text) : dropTrailing c (t ++ u) =
    if dropTrailing c u = [] then dropTrailing c t else t ++ dropTrailing c u := by
  rw [dropTrailing, dropTrailing, dropTrailing, List.reverse_append, List.dropWhile_append]
  by_cases h : u.reverse.dropWhile (· == c) = [] <;> simp [h]

/-- A text that does not end with the character stays. -/
theorem dropTrailing_eq_self (h : t.getLast? ≠ some c) : dropTrailing c t = t := by
  show t.rdropWhile (· == c) = t
  rw [List.rdropWhile_eq_self_iff]
  intro hne hlast
  exact h (by rw [List.getLast?_eq_some_getLast hne, beq_iff_eq.1 hlast])

/-- What is left does not end with the character. -/
theorem getLast?_dropTrailing (c : Char) (t : Text) : (dropTrailing c t).getLast? ≠ some c := by
  intro h
  rw [dropTrailing, List.getLast?_reverse] at h
  have hstop := List.head?_dropWhile_not (· == c) t.reverse
  rw [h] at hstop
  exact absurd hstop (by simp)

/-- Only the given character is removed. -/
theorem exists_dropTrailing (c : Char) (t : Text) : ∃ k, t = dropTrailing c t ++ List.replicate k c := by
  have hall : ∀ x ∈ t.rtakeWhile (· == c), x = c := fun x hx =>
    beq_iff_eq.1 (List.mem_rtakeWhile_imp (p := (· == c)) hx)
  exact ⟨_, (List.rdropWhile_append_rtakeWhile.symm).trans (congrArg (_ ++ ·) (List.eq_replicate_of_mem hall))⟩

/-- **Only zeros behind the point are removed,** and then the point if nothing stands behind it. -/
theorem trimmed_point (ht : t.getLast? ≠ some '.') (hf : '.' ∉ fraction) :
    trimmed (t ++ '.' :: fraction) = t ++ pointed (dropTrailing '0' fraction) := by
  have hzeros : dropTrailing '0' (t ++ '.' :: fraction) = t ++ '.' :: dropTrailing '0' fraction := by
    have hpoint : dropTrailing '0' ('.' :: fraction) = '.' :: dropTrailing '0' fraction := by
      rw [← List.singleton_append, dropTrailing_append]
      split
      · next h => rw [h]; rfl
      · rfl
    rw [dropTrailing_append, hpoint, if_neg (by simp)]
  rw [trimmed, hzeros, pointed]
  split
  · next h => rw [h, dropTrailing_append, if_pos (by decide), dropTrailing_eq_self ht, List.append_nil]
  · next h =>
    refine dropTrailing_eq_self fun hlast => hf ?_
    rw [List.getLast?_append, List.getLast?_cons, Option.some_or, Option.some.injEq,
      List.getLast?_eq_some_getLast h, Option.getD_some] at hlast
    obtain ⟨k, hk⟩ := exists_dropTrailing '0' fraction
    rw [hk]
    exact List.mem_append_left _ (hlast ▸ List.getLast_mem h)

/-! ### What is written -/

/-- **A number that is filled up with zeros** has as many digits as it is filled up to, and is the same number. -/
theorem zeroPadded_spec (hplaces : 0 < places) (hn : n < tenTo places) :
    (zeroPadded places (decimalDigits n)).length = places ∧
      (∀ c ∈ zeroPadded places (decimalDigits n), c.isDigit = true) ∧
      Nat.ofDigitChars 10 (zeroPadded places (decimalDigits n)) 0 = n := by
  have hlen : (decimalDigits n).length ≤ places := (Nat.length_toDigits_le_iff (by decide) hplaces).2 hn
  refine ⟨?_, fun c hc => ?_, ?_⟩
  · rw [zeroPadded, List.length_append, List.length_replicate]
    omega
  · rcases List.mem_append.1 hc with hc | hc
    · rw [List.eq_of_mem_replicate hc]; decide
    · exact isDigit_of_mem_decimalDigits hc
  · rw [zeroPadded, Nat.ofDigitChars_append, Nat.ofDigitChars_replicate_zero, Nat.mul_zero,
      ofDigitChars_decimalDigits]

/-- The places of a number, without the zeros behind the last other one. -/
def lastDigits (places n : Nat) : Text := dropTrailing '0' (zeroPadded places (decimalDigits (n % tenTo places)))

/-- The rest by a power of ten lies below it. -/
theorem mod_tenTo_lt (n places : Nat) : n % tenTo places < tenTo places :=
  Nat.mod_lt _ (Nat.pow_pos (by decide))

/-- The places of a number are those that are left and the zeros behind them. -/
theorem exists_lastDigits (hplaces : 0 < places) (n : Nat) : ∃ k, places = (lastDigits places n).length + k ∧
    zeroPadded places (decimalDigits (n % tenTo places)) = lastDigits places n ++ List.replicate k '0' := by
  obtain ⟨k, hk⟩ := exists_dropTrailing '0' (zeroPadded places (decimalDigits (n % tenTo places)))
  have hlen := (zeroPadded_spec hplaces (mod_tenTo_lt n places)).1
  rw [hk, List.length_append, List.length_replicate] at hlen
  exact ⟨k, hlen.symm, hk⟩

/-- **The numeral with a number of places,** without what says nothing, is plain. -/
theorem isPlain_trimmed_fixed (hplaces : 0 < places) (s : Bool) (m : Nat) (e : Int) :
    IsPlain s ((finite s m e).lastPlaces places / tenTo places) (lastDigits places ((finite s m e).lastPlaces places))
      (trimmed (fixed places (finite s m e))) := by
  generalize hn : (finite s m e).lastPlaces places = n
  obtain ⟨k, -, hk⟩ := exists_lastDigits hplaces n
  obtain ⟨-, hdigits, -⟩ := zeroPadded_spec hplaces (mod_tenTo_lt n places)
  refine ⟨?_, fun c hc => hdigits c (by rw [hk]; exact List.mem_append_left _ hc), getLast?_dropTrailing _ _⟩
  have hfixed : fixed places (finite s m e) = (if s then ['-'] else []) ++ decimalDigits (n / tenTo places) ++
      '.' :: zeroPadded places (decimalDigits (n % tenTo places)) := by
    show signText (finite s m e) ++ withPoint places ((finite s m e).lastPlaces places) = _
    rw [hn, withPoint, if_neg (Nat.pos_iff_ne_zero.1 hplaces), List.append_assoc]
    rfl
  rw [hfixed, trimmed_point, List.append_assoc]
  · rfl
  · have hne := decimalDigits_ne_nil (n / tenTo places)
    rw [List.getLast?_append, List.getLast?_eq_some_getLast hne, Option.some_or]
    intro hlast
    have hdigit := isDigit_of_mem_decimalDigits (List.getLast_mem hne)
    rw [Option.some.inj hlast] at hdigit
    exact absurd hdigit (by decide)
  · exact fun hpoint => absurd (hdigits _ hpoint) (by decide)

/-- **What is removed changes no number.** -/
theorem digitsValue_lastDigits (hplaces : 0 < places) (n : Nat) :
    digitsValue (decimalDigits (n / tenTo places)) (lastDigits places n) = n / 10 ^ places := by
  obtain ⟨k, hlen, hk⟩ := exists_lastDigits hplaces n
  obtain ⟨hlength, -, hvalue⟩ := zeroPadded_spec hplaces (mod_tenTo_lt n places)
  generalize lastDigits places n = fraction at hlen hk
  have hwhole : Nat.ofDigitChars 10 (decimalDigits (n / tenTo places) ++ (fraction ++ List.replicate k '0')) 0 = n := by
    rw [← hk, Nat.ofDigitChars_append, Nat.ofDigitChars_eq_ofDigitChars_zero, hlength, hvalue,
      ofDigitChars_decimalDigits]
    exact Nat.div_add_mod n (10 ^ places)
  have hscaled : 10 ^ k * Nat.ofDigitChars 10 (decimalDigits (n / tenTo places) ++ fraction) 0 = n := by
    rw [← List.append_assoc, Nat.ofDigitChars_append, Nat.ofDigitChars_replicate_zero] at hwhole
    exact hwhole
  rw [digitsValue]
  calc (Nat.ofDigitChars 10 (decimalDigits (n / tenTo places) ++ fraction) 0 : ℚ) / 10 ^ fraction.length
    _ = (10 ^ k * Nat.ofDigitChars 10 (decimalDigits (n / tenTo places) ++ fraction) 0 : ℚ) /
          (10 ^ k * 10 ^ fraction.length) := (mul_div_mul_left _ _ (by positivity)).symm
    _ = n / 10 ^ places := by rw [← pow_add, Nat.add_comm k, ← hlen]; norm_cast; rw [hscaled]

end Decimal
end ThemeSheet
