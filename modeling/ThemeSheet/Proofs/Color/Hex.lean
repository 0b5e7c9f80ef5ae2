/-
# Hexadecimal colors, read and written

A color may be written with 3, 4, 6 or 8 digits in either letter case and with a line
feed behind them; its usual form has six digits in lower case.  What is read are three
channels of a byte each.  Their usual form doubles the digits of a short color, leaves
the opacity out, and is read as the same channels again, so reading and writing are
inverse between usual forms and channels.
-/

import Mathlib.Data.List.Forall2
import ThemeSheet.Color.Fade
import ThemeSheet.Proofs.Color.Drawing
import ThemeSheet.Proofs.Text.Numeral
import ThemeSheet.Proofs.Variable.Shade

namespace ThemeSheet

open Unicode

/-! ### Digits -/

/-- The hexadecimal digits in lower case. -/
def lowerHexDigits : Text := "0123456789abcdef".toList

/-- The digits in lower case are those of the numbers below sixteen. -/
theorem lowerHexDigits_eq : lowerHexDigits = (List.range 16).map Nat.digitChar := by decide

/-- A digit in lower case is that of a number below sixteen. -/
theorem mem_lowerHexDigits {c : Char} : c ∈ lowerHexDigits ↔ ∃ v < 16, v.digitChar = c := by
  rw [lowerHexDigits_eq, List.mem_map]
  simp only [List.mem_range]

/-- A digit in lower case is one of the sixteen. -/
theorem Color.IsLowerHex.mem_lowerHexDigits {c : Char} (h : Color.IsLowerHex c) : c ∈ lowerHexDigits := by
  have hascii : ∀ n < 128, Color.IsLowerHex (Char.ofNat n) → Char.ofNat n ∈ lowerHexDigits := by
    decide
  exact ascii_cases (p := fun c => Color.IsLowerHex c → c ∈ lowerHexDigits) hascii (isHexDigit_lt h.1) h

/-- **The digit for the value of a digit** is the digit in lower case. -/
theorem digitChar_of_hexValue? {c : Char} {v : Nat} (h : hexValue? c = some v) :
    v < 16 ∧ v.digitChar = c.toLower := by
  have hascii : ∀ n < 128, ∀ v ∈ hexValue? (Char.ofNat n), v < 16 ∧ v.digitChar = (Char.ofNat n).toLower := by
    decide
  have hc : isHexDigit c = true := by rw [isHexDigit, h]; rfl
  exact ascii_cases (p := fun c => ∀ v ∈ hexValue? c, v < 16 ∧ v.digitChar = c.toLower) hascii
    (isHexDigit_lt hc) v h

/-- **Two digits are written for a byte.** -/
theorem hexNumeral_byte {v w : Nat} (hv : v < 16) (hw : w < 16) :
    hexNumeral 2 (16 * v + w : Int) = [v.digitChar, w.digitChar] := by
  have hdigits : Nat.toDigits 16 (16 * v + w) =
      if v = 0 then [w.digitChar] else [v.digitChar, w.digitChar] := by
    split
    · next h => rw [h, Nat.mul_zero, Nat.zero_add, Nat.toDigits_of_lt_base hw]
    · next h =>
      rw [Nat.toDigits_of_base_le (by decide) (by omega), show (16 * v + w) / 16 = v by omega,
        show (16 * v + w) % 16 = w by omega, Nat.toDigits_of_lt_base hv]
      rfl
  show zeroPadded 2 (Nat.toDigits 16 (16 * v + w)) = _
  rw [hdigits, zeroPadded]
  split
  · next h => rw [h]; rfl
  · rfl

/-- A byte is two hexadecimal digits. -/
theorem exists_digits {n : Int} (h : 0 ≤ n ∧ n ≤ 255) : ∃ v w : Nat, v < 16 ∧ w < 16 ∧ n = 16 * v + w :=
  ⟨n.toNat / 16, n.toNat % 16, by omega, by omega, by omega⟩

namespace Color

open Text

/-! ### What is written and what is read -/

/-- **The usual form of a color:** a number sign and six hexadecimal digits in lower case. -/
def IsUsualForm (t : Text) : Prop := ∃ digits, t = '#' :: digits ∧ digits.length = 6 ∧ ∀ c ∈ digits, c ∈ lowerHexDigits

/-- **A color as it may be written:** a number sign, 3, 4, 6 or 8 hexadecimal digits in either letter case, and one
line feed or none. -/
def IsHexForm (t : Text) : Prop :=
  ∃ digits e, t = '#' :: digits ++ e ∧ digits.length ∈ [3, 4, 6, 8] ∧ (∀ c ∈ digits, c ∈ anyHexDigits) ∧
    (e = [] ∨ e = ['\n'])

/-- The six digits that stand for the digits of a color: those of a short one twice, and none for the opacity. -/
def sixDigits (digits : Text) : Text :=
  if digits.length < 6 then (digits.take 3).flatMap fun c => [c, c] else digits.take 6

/-- **Three channels of a byte each.** -/
structure Rgb.IsBytes (c : Rgb) : Prop where
  red : 0 ≤ c.red ∧ c.red ≤ 255
  green : 0 ≤ c.green ∧ c.green ≤ 255
  blue : 0 ≤ c.blue ∧ c.blue ≤ 255

/-- A color as it is drawn has the usual form. -/
theorem Drawn.isUsualForm {color : Text} (h : Drawn color) : IsUsualForm color := by
  obtain ⟨digits, rfl, hlen, hdigits⟩ := isSixDigit_iff.1 h.six
  refine ⟨digits, rfl, hlen, fun c hc => ?_⟩
  have hfold : digits.map foldCase = digits.map id := by rw [List.map_id]; exact (List.cons.inj h.folded).2
  exact IsLowerHex.mem_lowerHexDigits ⟨hdigits c hc, List.map_inj_left.1 hfold c hc⟩

/-- The values of digits, one by one. -/
abbrev HasValues : Text → List Nat → Prop := List.Forall₂ fun c v => hexValue? c = some v

variable {t digits : Text} {values : List Nat} {c : Rgb}

/-- Values are read exactly if they are those of the digits. -/
theorem hexValues?_eq_some : hexValues? t = some values ↔ HasValues t values := by
  rw [hexValues?]
  induction t generalizing values with
  | nil => simp [List.forall₂_nil_left_iff, eq_comm]
  | cons d t ih =>
    simp only [List.mapM_cons, Option.bind_eq_bind, Option.pure_def, Option.bind_eq_some_iff, Option.some.injEq, ih]
    constructor
    · rintro ⟨v, hv, rest, hrest, rfl⟩
      exact .cons hv hrest
    · rintro (_ | ⟨hv, hrest⟩)
      exact ⟨_, hv, _, hrest, rfl⟩

/-- Hexadecimal digits have values. -/
theorem exists_hasValues (h : ∀ d ∈ digits, isHexDigit d = true) : ∃ values, HasValues digits values := by
  induction digits with
  | nil => exact ⟨[], .nil⟩
  | cons d digits ih =>
    obtain ⟨v, hv⟩ := Option.isSome_iff_exists.1 (h d (List.mem_cons_self ..))
    obtain ⟨values, hvalues⟩ := ih fun x hx => h x (List.mem_cons_of_mem _ hx)
    exact ⟨v :: values, .cons hv hvalues⟩

/-- What has values is hexadecimal digits. -/
theorem HasValues.isHexDigit (h : HasValues digits values) : ∀ d ∈ digits, isHexDigit d = true := by
  induction h with
  | nil => simp
  | cons hv _ ih => exact List.forall_mem_cons.2 ⟨by rw [ThemeSheet.isHexDigit, hv]; rfl, ih⟩

/-- The channels that the values of the digits give. -/
def Rgb.ofValues? : List Nat → Option Rgb
  | [r, g, b] | [r, g, b, _] => some ⟨17 * r, 17 * g, 17 * b⟩
  | [r, r', g, g', b, b'] | [r, r', g, g', b, b', _, _] => some ⟨16 * r + r', 16 * g + g', 16 * b + b'⟩
  | _ => none

/-- Values are those of a color exactly if there are three, four, six or eight. -/
theorem exists_ofValues?_iff : (∃ c, Rgb.ofValues? values = some c) ↔ values.length ∈ [3, 4, 6, 8] := by
  rcases values with _ | ⟨_, _ | ⟨_, _ | ⟨_, _ | ⟨_, _ | ⟨_, _ | ⟨_, _ | ⟨_, _ | ⟨_, _ | _⟩⟩⟩⟩⟩⟩⟩⟩ <;>
    simp [Rgb.ofValues?]

/-- A color has eight digits at most. -/
theorem length_of_ofValues? (h : Rgb.ofValues? values = some c) : values.length ≤ 8 := by
  have hlen := exists_ofValues?_iff.1 ⟨c, h⟩
  simp only [List.mem_cons, List.not_mem_nil, or_false] at hlen
  omega

/-- **What is read:** the channels that the digits in front of a line feed give. -/
theorem hexToRgb?_eq_some : hexToRgb? ('#' :: t) = some c ↔
    ∃ values, HasValues (withoutLineEnd t) values ∧ Rgb.ofValues? values = some c := by
  have hread : hexToRgb? ('#' :: t) = if longestColor < t.length + 1 then none
      else (hexValues? (withoutLineEnd t)).bind Rgb.ofValues? := by
    rw [hexToRgb?, List.length_cons]
    congr 1
    rcases hexValues? (withoutLineEnd t) with
      _ | _ | ⟨_, _ | ⟨_, _ | ⟨_, _ | ⟨_, _ | ⟨_, _ | ⟨_, _ | ⟨_, _ | ⟨_, _ | _⟩⟩⟩⟩⟩⟩⟩⟩ <;> rfl
  rw [hread, Option.ite_none_left_eq_some, Option.bind_eq_some_iff]
  simp only [hexValues?_eq_some]
  refine ⟨And.right, fun ⟨values, hvalues, hc⟩ => ⟨?_, values, hvalues, hc⟩⟩
  obtain ⟨e, ht, he⟩ := withoutLineEnd_append t
  have hlen : t.length = values.length + e.length := by rw [ht, List.length_append, hvalues.length_eq]
  have hend : e.length ≤ 1 := by rcases he with rfl | rfl <;> decide
  have := length_of_ofValues? hc
  show ¬ 100 < t.length + 1
  omega

/-- **Two digits of a channel** are written in lower case. -/
theorem hexNumeral_pair {a b : Char} {v w : Nat} (ha : hexValue? a = some v) (hb : hexValue? b = some w) :
    (0 ≤ (16 * v + w : Int) ∧ (16 * v + w : Int) ≤ 255) ∧ hexNumeral 2 (16 * v + w : Int) = [a.toLower, b.toLower] := by
  obtain ⟨hv, hav⟩ := digitChar_of_hexValue? ha
  obtain ⟨hw, hbw⟩ := digitChar_of_hexValue? hb
  exact ⟨by omega, by rw [hexNumeral_byte hv hw, hav, hbw]⟩

/-- **The usual form of the channels of six digits** has these digits in lower case. -/
theorem hex_pairs {r r' g g' b b' : Char} {v v' w w' x x' : Nat} (hr : hexValue? r = some v)
    (hr' : hexValue? r' = some v') (hg : hexValue? g = some w) (hg' : hexValue? g' = some w')
    (hb : hexValue? b = some x) (hb' : hexValue? b' = some x') :
    Rgb.IsBytes ⟨16 * v + v', 16 * w + w', 16 * x + x'⟩ ∧
      Rgb.hex ⟨16 * v + v', 16 * w + w', 16 * x + x'⟩ = '#' :: [r, r', g, g', b, b'].map Char.toLower := by
  obtain ⟨hred, hredText⟩ := hexNumeral_pair hr hr'
  obtain ⟨hgreen, hgreenText⟩ := hexNumeral_pair hg hg'
  obtain ⟨hblue, hblueText⟩ := hexNumeral_pair hb hb'
  refine ⟨⟨hred, hgreen, hblue⟩, ?_⟩
  rw [Rgb.hex, hredText, hgreenText, hblueText]
  rfl

/-- **The usual form of what is read** has the six digits that stand for the written ones. -/
theorem hex_of_ofValues? (hvalues : HasValues digits values) (h : Rgb.ofValues? values = some c) :
    c.IsBytes ∧ c.hex = '#' :: (sixDigits digits).map Char.toLower := by
  have htwice (v : Nat) : (17 * v : Int) = 16 * v + v := by omega
  unfold Rgb.ofValues? at h
  split at h
  · obtain rfl := Option.some.inj h
    obtain _ | ⟨hr, _ | ⟨hg, _ | ⟨hb, _ | _⟩⟩⟩ := hvalues
    simp only [htwice]
    exact hex_pairs hr hr hg hg hb hb
  · obtain rfl := Option.some.inj h
    obtain _ | ⟨hr, _ | ⟨hg, _ | ⟨hb, _ | ⟨_, _ | _⟩⟩⟩⟩ := hvalues
    simp only [htwice]
    exact hex_pairs hr hr hg hg hb hb
  · obtain rfl := Option.some.inj h
    obtain _ | ⟨hr, _ | ⟨hr', _ | ⟨hg, _ | ⟨hg', _ | ⟨hb, _ | ⟨hb', _ | _⟩⟩⟩⟩⟩⟩ := hvalues
    exact hex_pairs hr hr' hg hg' hb hb'
  · obtain rfl := Option.some.inj h
    obtain _ | ⟨hr, _ | ⟨hr', _ | ⟨hg, _ | ⟨hg', _ | ⟨hb, _ | ⟨hb', _⟩⟩⟩⟩⟩⟩ := hvalues
    exact hex_pairs hr hr' hg hg' hb hb'
  · simp at h

/-- A run of digits and one line feed or none: the line feed is left out. -/
theorem withoutLineEnd_digits {e : Text} (hdigits : ∀ d ∈ digits, isHexDigit d = true) (he : e = [] ∨ e = ['\n']) :
    withoutLineEnd (digits ++ e) = digits := by
  rcases he with rfl | rfl
  · rw [List.append_nil, withoutLineEnd, if_neg]
    intro hlast
    exact absurd (hdigits _ (List.mem_of_getLast? hlast)) (by decide)
  · rw [withoutLineEnd, List.getLast?_concat, if_pos rfl, List.dropLast_concat]

/-- **Exactly the written forms are read.** -/
theorem exists_hexToRgb?_iff : (∃ c, hexToRgb? ('#' :: t) = some c) ↔ IsHexForm ('#' :: t) := by
  simp only [hexToRgb?_eq_some]
  constructor
  · rintro ⟨c, values, hvalues, hc⟩
    obtain ⟨e, ht, he⟩ := withoutLineEnd_append t
    refine ⟨withoutLineEnd t, e, congrArg ('#' :: ·) ht, ?_, fun d hd => isHexDigit_iff.1 (hvalues.isHexDigit d hd), he⟩
    rw [hvalues.length_eq]
    exact exists_ofValues?_iff.1 ⟨c, hc⟩
  · rintro ⟨digits, e, ht, hlen, hany, he⟩
    obtain rfl : t = digits ++ e := (List.cons.inj ht).2
    have hdigits : ∀ d ∈ digits, isHexDigit d = true := fun d hd => isHexDigit_iff.2 (hany d hd)
    obtain ⟨values, hvalues⟩ := exists_hasValues hdigits
    rw [hvalues.length_eq] at hlen
    obtain ⟨c, hc⟩ := exists_ofValues?_iff.2 hlen
    exact ⟨c, values, by rwa [withoutLineEnd_digits hdigits he], hc⟩

/-- **The usual form of channels:** the digits of six values that give them. -/
theorem Rgb.IsBytes.hex_eq (h : c.IsBytes) : ∃ values : List Nat, values.length = 6 ∧ (∀ v ∈ values, v < 16) ∧
    c.hex = '#' :: values.map Nat.digitChar ∧ Rgb.ofValues? values = some c := by
  obtain ⟨r, r', hr, hr', hred⟩ := exists_digits h.red
  obtain ⟨g, g', hg, hg', hgreen⟩ := exists_digits h.green
  obtain ⟨b, b', hb, hb', hblue⟩ := exists_digits h.blue
  have hc : c = ⟨16 * r + r', 16 * g + g', 16 * b + b'⟩ := by
    cases c
    rw [Rgb.mk.injEq]
    exact ⟨hred, hgreen, hblue⟩
  refine ⟨[r, r', g, g', b, b'], rfl, by simp [*], ?_, by rw [hc]; rfl⟩
  rw [hc, Rgb.hex, hexNumeral_byte hr hr', hexNumeral_byte hg hg', hexNumeral_byte hb hb']
  rfl

/-- The color of three bytes has the usual form. -/
theorem Rgb.IsBytes.isUsualForm_hex (h : c.IsBytes) : IsUsualForm c.hex := by
  obtain ⟨values, hlen, hvalues, hhex, -⟩ := h.hex_eq
  refine ⟨values.map Nat.digitChar, hhex, by rw [List.length_map, hlen], fun d hd => ?_⟩
  obtain ⟨v, hv, rfl⟩ := List.mem_map.1 hd
  exact mem_lowerHexDigits.2 ⟨v, hvalues v hv, rfl⟩

/-- **Channels are read from their usual form.** -/
theorem Rgb.IsBytes.hexToRgb?_hex (h : c.IsBytes) : hexToRgb? c.hex = some c := by
  obtain ⟨values, -, hsmall, hhex, hc⟩ := h.hex_eq
  have hvalues : HasValues (values.map Nat.digitChar) values := by
    rw [HasValues, List.forall₂_map_left_iff, List.forall₂_same]
    exact fun v hv => hexValue?_lowerDigit v (hsmall v hv)
  rw [hhex, hexToRgb?_eq_some, ← List.append_nil (values.map _), withoutLineEnd_digits hvalues.isHexDigit (.inl rfl)]
  exact ⟨values, hvalues, hc⟩

/-- The digits of a usual form stand for themselves. -/
theorem IsUsualForm.sixDigits_eq (h : IsUsualForm ('#' :: t)) :
    (sixDigits (withoutLineEnd t)).map Char.toLower = t := by
  obtain ⟨digits, ht, hlen, hdigits⟩ := h
  obtain rfl := (List.cons.inj ht).2
  have hhex : ∀ d ∈ lowerHexDigits, isHexDigit d = true ∧ d.toLower = d := by decide
  rw [← List.append_nil t, withoutLineEnd_digits (fun d hd => (hhex d (hdigits d hd)).1) (.inl rfl), List.append_nil,
    sixDigits, if_neg (by omega), List.take_of_length_le (by omega)]
  exact (List.map_congr_left fun d hd => (hhex d (hdigits d hd)).2).trans (List.map_id _)

/-- **Reading and writing colors.**  Exactly the written forms are read, and every other text behind a number sign is
a fault wherever a color is needed.  What is read are channels of a byte each; their usual form has the digits of the
written one, doubled if it is short, without the opacity and in lower case, and is read as the same channels, as is
the usual form of all such channels. -/
theorem hexForms_spec :
    (∀ t, hexToRgb? ('#' :: t) = none ↔ ¬ IsHexForm ('#' :: t)) ∧
      (∀ t percent, faded ('#' :: t) percent = .error (.badColor ('#' :: t)) ↔ ¬ IsHexForm ('#' :: t)) ∧
      (∀ t c, hexToRgb? ('#' :: t) = some c →
        c.IsBytes ∧ IsUsualForm c.hex ∧ hexToRgb? c.hex = some c ∧
          c.hex = '#' :: (sixDigits (withoutLineEnd t)).map Char.toLower ∧
          (IsUsualForm ('#' :: t) → c.hex = '#' :: t)) ∧
      ∀ c : Rgb, c.IsBytes → hexToRgb? c.hex = some c := by
  have hnone (t : Text) : hexToRgb? ('#' :: t) = none ↔ ¬ IsHexForm ('#' :: t) := by
    rw [← exists_hexToRgb?_iff, Option.eq_none_iff_forall_ne_some, not_exists]
  refine ⟨hnone, fun t percent => ?_, fun t c h => ?_, fun c h => h.hexToRgb?_hex⟩
  · rw [← hnone, faded]
    cases hexToRgb? ('#' :: t) <;> simp
  · obtain ⟨values, hvalues, hc⟩ := hexToRgb?_eq_some.1 h
    obtain ⟨hbytes, hhex⟩ := hex_of_ofValues? hvalues hc
    exact ⟨hbytes, hbytes.isUsualForm_hex, hbytes.hexToRgb?_hex, hhex, fun husual => by rw [hhex, husual.sixDigits_eq]⟩

/-- A short form in mixed case with an opacity and a line feed, a usual form, and channels at both ends. -/
theorem hexForms_spec_short :
    (hexToRgb? "#aB0F\n".toList = some ⟨170, 187, 0⟩ ∧ IsUsualForm "#0a1b2c".toList ∧ Rgb.IsBytes ⟨0, 255, 9⟩) ∧
      Rgb.hex ⟨170, 187, 0⟩ = "#aabb00".toList ∧
      (∀ c, hexToRgb? "#0a1b2c".toList = some c → c.hex = "#0a1b2c".toList) ∧
      hexToRgb? (Rgb.hex ⟨0, 255, 9⟩) = some ⟨0, 255, 9⟩ := by
  obtain ⟨-, -, hread, hwritten⟩ := hexForms_spec
  have hshort : hexToRgb? "#aB0F\n".toList = some ⟨170, 187, 0⟩ := by decide
  have husual : IsUsualForm "#0a1b2c".toList := ⟨"0a1b2c".toList, rfl, rfl, by decide⟩
  have hbytes : Rgb.IsBytes ⟨0, 255, 9⟩ := ⟨by decide, by decide, by decide⟩
  refine ⟨⟨hshort, husual, hbytes⟩, ?_, fun c hc => (hread "0a1b2c".toList c hc).2.2.2.2 husual, hwritten _ hbytes⟩
  exact (hread "aB0F\n".toList _ hshort).2.2.2.1.trans (by decide)

end Color
end ThemeSheet
