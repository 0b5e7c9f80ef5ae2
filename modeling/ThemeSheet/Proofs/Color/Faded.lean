/-
# The text of a faded color

The text holds the three channels in decimal digits and the opacity, with commas
between them, and no numeral holds a comma.  So it tells the channels and the written
opacity, and two faded colors are written alike only if they agree in both.
-/

import ThemeSheet.Proofs.Color.Computed
import ThemeSheet.Proofs.Color.Hex
import ThemeSheet.Proofs.Text.Split

namespace ThemeSheet

open Text

/-- No comma stands in a decimal numeral. -/
theorem comma_notMem_decimalNumeral (n : Int) : ',' ∉ decimalNumeral n :=
  fun h => absurd (Decimal.isNumeralChar_decimalNumeral h) (by decide)

namespace Color

/-- **The text of a faded color tells its channels and its opacity.** -/
theorem Rgb.withAlpha_inj {c c' : Rgb} {alpha alpha' : Text}
    (h : c.withAlpha alpha = c'.withAlpha alpha') : c = c' ∧ alpha = alpha' := by
  have hform (c : Rgb) (alpha : Text) : c.withAlpha alpha = "rgba(".toList ++ (decimalNumeral c.red ++
      ',' :: ' ' :: (decimalNumeral c.green ++ ',' :: ' ' :: (decimalNumeral c.blue ++
        ',' :: ' ' :: (alpha ++ [')'])))) := by
    delta Rgb.withAlpha
    simp
  rw [hform, hform] at h
  obtain ⟨hred, h⟩ := append_mark_inj (comma_notMem_decimalNumeral _) (comma_notMem_decimalNumeral _)
    (List.append_cancel_left h)
  obtain ⟨hgreen, h⟩ := append_mark_inj (comma_notMem_decimalNumeral _) (comma_notMem_decimalNumeral _)
    (List.cons.inj h).2
  obtain ⟨hblue, h⟩ := append_mark_inj (comma_notMem_decimalNumeral _) (comma_notMem_decimalNumeral _)
    (List.cons.inj h).2
  refine ⟨?_, List.append_cancel_right (List.cons.inj h).2⟩
  cases c
  cases c'
  rw [Rgb.mk.injEq]
  exact ⟨decimalNumeral_injective hred, decimalNumeral_injective hgreen, decimalNumeral_injective hblue⟩

/-- What is written for the opacity of a color that is faded to a percentage. -/
def fadedAlpha (percent : Binary64) : Text := alphaText (percent.divNat 100).clampToUnit

/-- **A faded color that is not full** is written with its channels and its opacity. -/
theorem eq_withAlpha_of_faded {color text : Text} {percent : Binary64} (h : faded color percent = .ok text)
    (hb : beginsWith "rgba".toList text = true) :
    ∃ c, hexToRgb? color = some c ∧ text = c.withAlpha (fadedAlpha percent) := by
  unfold faded at h
  split at h
  · simp at h
  · next c hc =>
    obtain rfl := Except.ok.inj h
    refine ⟨c, hc, ?_⟩
    split
    · next hfull =>
      -- a full color begins with a number sign
      rw [if_pos hfull] at hb
      obtain ⟨r, hr⟩ := beginsWith_iff.1 hb
      rw [Rgb.hex, List.cons_append, List.cons_append] at hr
      exact absurd (List.cons.inj (show '#' :: _ = 'r' :: ("gba".toList ++ r) from hr)).1 (by decide)
    · rfl

/-- **Two faded colors that are written alike** agree in their channels and in the written opacity. -/
theorem faded_inj {color color' text : Text} {percent percent' : Binary64}
    (h : faded color percent = .ok text) (h' : faded color' percent' = .ok text)
    (hb : beginsWith "rgba".toList text = true) :
    hexToRgb? color = hexToRgb? color' ∧ fadedAlpha percent = fadedAlpha percent' := by
  obtain ⟨c, hc, rfl⟩ := eq_withAlpha_of_faded h hb
  obtain ⟨c', hc', he⟩ := eq_withAlpha_of_faded h' hb
  obtain ⟨rfl, halpha⟩ := Rgb.withAlpha_inj he
  exact ⟨hc.trans hc'.symm, halpha⟩

/-- **Six digits are read as three channels.** -/
theorem exists_hexToRgb?_eq {color : Text} (h : isSixDigit color = true) :
    ∃ c, hexToRgb? color = some c := by
  obtain ⟨digits, rfl, hlen, hdigits⟩ := isSixDigit_iff.1 h
  exact exists_hexToRgb?_iff.2
    ⟨digits, [], by simp, by simp [hlen], fun d hd => isHexDigit_iff.1 (hdigits d hd), .inl rfl⟩

end Color
end ThemeSheet
