/-
# The text of an opacity

An opacity is a number of double precision, and it is written as a plain numeral: of
the exact number, rounded to eight places, a tie to the even one.  The rounded number
and the sign, which zero has too, are all that the text tells.
-/

import ThemeSheet.Color.Fade
import ThemeSheet.Proofs.Number.Decimal

namespace ThemeSheet
namespace Color

open Binary64

/-- **The text of an opacity is a plain numeral.** -/
theorem isPlain_alphaText (s : Bool) (m : Nat) (e : Int) :
    Decimal.IsPlain s ((finite s m e).lastPlaces 8 / tenTo 8) (Decimal.lastDigits 8 ((finite s m e).lastPlaces 8))
      (alphaText (.finite s m e)) :=
  Decimal.isPlain_trimmed_fixed (by decide) s m e

/-- **The text of an opacity is read as the rounded opacity.** -/
theorem read?_alphaText (s : Bool) (m : Nat) (e : Int) :
    Decimal.read? (alphaText (.finite s m e)) = some (roundedTo 8 (exact s m e)) := by
  rw [(isPlain_alphaText s m e).read?_eq, Decimal.digitsValue_lastDigits (by decide), roundedTo_exact]

/-- **The text of an opacity** is a plain numeral with at most eight places, under the sign of the opacity.  It is read
as the exact opacity rounded to eight places, so two texts are equal exactly if the signs and the rounded opacities
are. -/
theorem alphaText_spec (s : Bool) (m : Nat) (e : Int) :
    (∃ fraction, fraction.length ≤ 8 ∧
        Decimal.IsPlain s ⌊|roundedTo 8 (exact s m e)|⌋₊ fraction (alphaText (.finite s m e))) ∧
      Decimal.read? (alphaText (.finite s m e)) = some (roundedTo 8 (exact s m e)) ∧
      ∀ s' m' e', alphaText (.finite s m e) = alphaText (.finite s' m' e') ↔
        s = s' ∧ roundedTo 8 (exact s m e) = roundedTo 8 (exact s' m' e') := by
  have hplain := isPlain_alphaText s m e
  refine ⟨⟨_, ?_, floor_abs_roundedTo 8 s m e ▸ hplain⟩, read?_alphaText s m e, fun s' m' e' => ⟨fun h => ⟨?_, ?_⟩, ?_⟩⟩
  · obtain ⟨k, hk, -⟩ := Decimal.exists_lastDigits (show 0 < 8 by decide) ((finite s m e).lastPlaces 8)
    omega
  · have hsign : s = true ↔ s' = true := by
      rw [← hplain.head?_eq, h, (isPlain_alphaText s' m' e').head?_eq]
    exact Bool.eq_iff_iff.2 hsign
  · have hread := read?_alphaText s m e
    rw [h, read?_alphaText] at hread
    exact (Option.some.inj hread).symm
  · rintro ⟨rfl, h⟩
    rw [hplain.written, (isPlain_alphaText s m' e').written, lastPlaces_eq_of_roundedTo_eq h]

/-- A tie goes to the even digit, the zeros of a whole number stay, and zero has its sign. -/
example : [finite false 1 (-9), finite true 3 (-9), finite false 100 0, finite true 0 0].map alphaText =
    ["0.00195312", "-0.00585938", "100", "-0"].map String.toList := by
  decide +kernel

end Color
end ThemeSheet
