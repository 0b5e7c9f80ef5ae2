/-
# Values that are colors

A marker, or a shade of one, is a number sign with digits in lower case behind it.
The evaluator leaves such a value as it is.
-/

import Mathlib.Data.List.TakeWhile
import ThemeSheet.Less.Evaluator
import ThemeSheet.Proofs.Color.Drawing
import ThemeSheet.Proofs.Fallible
import ThemeSheet.Proofs.Text.Boundary

namespace ThemeSheet

open Text

namespace Color

/-- **A computed color:** a number sign, and lower case digits or signs behind it. -/
def IsValue (v : Text) : Prop := ∃ w, v = '#' :: w ∧ ∀ c ∈ w, IsLowerHex c ∨ c = '-'

/-- A character of a color. -/
def isValueChar (c : Char) : Bool := isHexDigit c || c == '#' || c == '-'

/-- The characters of a computed color are those of colors. -/
theorem IsValue.isValueChar {v : Text} (h : IsValue v) {c : Char} (hc : c ∈ v) :
    isValueChar c = true := by
  obtain ⟨w, rfl, hw⟩ := h
  rcases List.mem_cons.1 hc with rfl | hc
  · decide
  · rcases hw c hc with hc | rfl
    · simp [Color.isValueChar, hc.1]
    · decide

/-- A computed color holds no other character. -/
theorem IsValue.notMem {v : Text} (h : IsValue v) {c : Char} (hc : Color.isValueChar c = false) :
    c ∉ v :=
  fun hm => Bool.noConfusion ((h.isValueChar hm).symm.trans hc)

/-- A computed color holds no blank. -/
theorem IsValue.not_blank {v : Text} (h : IsValue v) {c : Char} (hc : c ∈ v) : isBlank c = false := by
  have hv := h.isValueChar hc
  simp only [Color.isValueChar, Bool.or_eq_true, beq_iff_eq] at hv
  rcases hv with (hv | rfl) | rfl
  · exact not_isBlank_of_isHexDigit hv
  · decide
  · decide

/-- A color as it is drawn is a computed color. -/
theorem Drawn.isValue {color : Text} (h : Drawn color) : IsValue color := by
  obtain ⟨ds, rfl, -, hds⟩ := isSixDigit_iff.1 h.six
  refine ⟨ds, rfl, fun c hc => .inl ⟨hds c hc, ?_⟩⟩
  have hfold := (List.cons.inj h.folded).2
  exact List.map_inj_left.1 (hfold.trans (List.map_id _).symm) c hc

/-- A hexadecimal numeral is made of lower case digits and a sign. -/
theorem mem_hexNumeral {n : Int} {c : Char} (h : c ∈ hexNumeral 2 n) : IsLowerHex c ∨ c = '-' := by
  have hdigits {width k : Nat} (hc : c ∈ hexDigits width k) : IsLowerHex c := by
    rcases List.mem_append.1 hc with hc | hc
    · rw [List.eq_of_mem_replicate hc]; decide
    · exact isLowerHex_of_mem_toDigits hc
  cases n with
  | ofNat n => exact .inl (hdigits h)
  | negSucc n => exact (List.mem_cons.1 h).elim .inr fun h => .inl (hdigits h)

/-- The color of three channels is a computed color. -/
theorem Rgb.isValue_hex (c : Rgb) : IsValue c.hex := by
  refine ⟨_, rfl, fun d hd => ?_⟩
  rcases List.mem_append.1 hd with hd | hd
  · exact (List.mem_append.1 hd).elim mem_hexNumeral mem_hexNumeral
  · exact mem_hexNumeral hd

/-- A digit in lower case stays when letters become small. -/
theorem toLower_of_isLowerHex {c : Char} (h : IsLowerHex c) : c.toLower = c := by
  have : ∀ n < 128, IsLowerHex (Char.ofNat n) →
      (Char.ofNat n).toLower = Char.ofNat n := by decide +kernel
  exact Unicode.ascii_cases (p := fun c => IsLowerHex c → c.toLower = c) this
    (Unicode.isHexDigit_lt h.1) h

end Color

namespace Less
namespace Evaluator

/-! ### Variables -/

/-- A text without at signs stays when variables are put in. -/
theorem substituteOnce_of_notMem {defined : Table Text} {source t : Text} (h : '@' ∉ t) :
    substituteOnce defined source t = .ok t := by
  induction t with
  | nil => simp [substituteOnce]
  | cons c t ih =>
    have hr : reference? (c :: t) = none := by
      unfold reference?
      split
      · next he => exact absurd (he ▸ List.mem_cons_self ..) h
      · rfl
    rw [substituteOnce, hr, ih fun hm => h (List.mem_cons_of_mem _ hm)]
    rfl

/-- **A text without references stays as it is.** -/
theorem substitute_of_notMem {defined : Table Text} {source t : Text} (h : '@' ∉ t) (n : Nat) :
    substitute defined source n t = .ok t := by
  cases n with
  | zero => rfl
  | succ n =>
    rw [substitute]
    exact Fallible.bind_eq_ok.2 ⟨t, substituteOnce_of_notMem h, if_pos rfl⟩

/-! ### Colors -/

/-- A text without brackets stays when calls are computed. -/
theorem replaceFades_of_notMem {t : Text} (h : '(' ∉ t) : replaceFades t = .ok t := by
  refine replaceFallibly_of_none fun s _ hs => ?_
  cases hf : dropPrefix? "fade(#".toList s with
  | none => rw [hexFade?, hf]; rfl
  | some r =>
    rw [dropPrefix?_eq_some] at hf
    exact absurd (hs.subset (by rw [hf]; simp)) h

/-- A text without number signs stays when colors become small. -/
theorem lowerColors_of_notMem {t : Text} (h : '#' ∉ t) : lowerColors t = t := calc
  lowerColors t = lowerColors (t ++ []) := by rw [List.append_nil]
  _ = t ++ lowerColors [] := replaceMatches_skip fun a ha u => by
    split
    · next he => exact absurd ((List.cons.inj he).1 ▸ ha) h
    · rfl
  _ = t := by simp [lowerColors, replaceMatches]

/-- **A computed color is in lower case.** -/
theorem lowerColors_of_isValue {v : Text} (h : Color.IsValue v) : lowerColors v = v := by
  obtain ⟨w, rfl, hw⟩ := h
  have hhash : '#' ∉ w := fun hm => by
    rcases hw _ hm with hd | hd
    · exact absurd hd.1 (by decide)
    · exact absurd hd (by decide)
  have hlower : asciiLower (w.takeWhile isHexDigit) = w.takeWhile isHexDigit := by
    refine (List.map_congr_left fun c hc => ?_).trans (List.map_id _)
    have hm := (List.takeWhile_sublist isHexDigit).subset hc
    have hd := List.mem_takeWhile_imp hc
    rcases hw c hm with h | rfl
    · exact Color.toLower_of_isLowerHex h
    · exact absurd hd (by decide)
  rw [lowerColors, replaceMatches]
  split
  · next new rest hmatch =>
    split at hmatch
    · next w' he =>
      obtain rfl := (List.cons.inj he).2
      obtain ⟨-, hmatch⟩ := Option.ite_none_right_eq_some.1 hmatch
      obtain ⟨rfl, rfl⟩ := Prod.mk.inj (Option.some.inj hmatch)
      rw [if_pos (List.dropWhile_sublist _).length_le, hlower]
      have hafter := lowerColors_of_notMem fun hm =>
        hhash ((List.dropWhile_sublist isHexDigit).subset hm)
      rw [lowerColors] at hafter
      rw [hafter, List.cons_append, List.takeWhile_append_dropWhile]
    · simp at hmatch
  · exact congrArg _ (lowerColors_of_notMem hhash)

end Evaluator
end Less
end ThemeSheet
