/-
# Drawn colors

Every color that is drawn is a number sign and six hexadecimal digits in lower case,
so two drawn colors that are equal but for case are equal.  A color that is drawn
until one is free is free.
-/

import ThemeSheet.Color.Draw
import ThemeSheet.Proofs.Color.Replacement

namespace ThemeSheet
namespace Color

open Unicode

/-- **Digits in lower case:** hexadecimal digits that are their own representatives. -/
def IsLowerHex (c : Char) : Prop := isHexDigit c = true ∧ foldCase c = c

/-- Whether a letter is a small digit of a color can be checked. -/
instance (c : Char) : Decidable (IsLowerHex c) := inferInstanceAs (Decidable (_ ∧ _))

/-- The sixteen digits are small digits of a color. -/
theorem isLowerHex_digitChar : ∀ n < 16, IsLowerHex n.digitChar := by
  decide +kernel

/-- A number is written in small digits of a color. -/
theorem isLowerHex_of_mem_toDigits {n : Nat} {c : Char} (h : c ∈ Nat.toDigits 16 n) : IsLowerHex c := by
  induction n using Nat.strongRecOn with
  | _ n ih =>
    rcases Nat.lt_or_ge n 16 with hn | hn
    · rw [Nat.toDigits_of_lt_base hn, List.mem_singleton] at h
      exact h ▸ isLowerHex_digitChar n hn
    · rw [Nat.toDigits_of_base_le (by decide) hn, List.mem_append, List.mem_singleton] at h
      rcases h with h | h
      · exact ih _ (by omega) h
      · exact h ▸ isLowerHex_digitChar _ (Nat.mod_lt _ (by decide))

/-- **At least `width` digits, and no more if the number is small enough.** -/
theorem hexDigits_spec {width n : Nat} (hw : 0 < width) (hn : n < Nat.pow 16 width) :
    (hexDigits width n).length = width ∧ ∀ c ∈ hexDigits width n, IsLowerHex c := by
  have hlen := (Nat.length_toDigits_le_iff (b := 16) (by decide) hw).2 hn
  constructor
  · simp only [hexDigits, zeroPadded, List.length_append, List.length_replicate]
    omega
  · intro c hc
    rcases List.mem_append.1 hc with h | h
    · rw [List.eq_of_mem_replicate h]; decide
    · exact isLowerHex_of_mem_toDigits h

/-- **A color as it is drawn:** six digits, and its own representative. -/
structure Drawn (color : Text) : Prop where
  six : isSixDigit color = true
  folded : color.map foldCase = color

/-- The color of a number is a drawn one. -/
theorem drawn_ofNumber {n : Nat} (h : n < total) : Drawn (ofNumber n) := by
  obtain ⟨hl, hc⟩ := hexDigits_spec (show 0 < 6 by decide) h
  constructor
  · exact isSixDigit_iff.2 ⟨_, rfl, hl, fun d hd => (hc d hd).1⟩
  · have hid : (hexDigits 6 n).map foldCase = hexDigits 6 n :=
      (List.map_congr_left fun c hm => (hc c hm).2).trans (List.map_id _)
    rw [ofNumber, List.map_cons, hid]
    rfl

/-- Colors that are equal but for case are drawn as the same color. -/
theorem Drawn.eq_of_sameText {a b : Text} (ha : Drawn a) (hb : Drawn b)
    (h : a.map foldCase = b.map foldCase) : a = b := by
  rwa [ha.folded, hb.folded] at h

/-- What is drawn is a drawn color. -/
theorem drawn_draw (d : Draws) : Drawn (draw d).1 := by
  have h1 := Int.emod_nonneg d.head (b := (total : Int)) (by decide)
  have h2 := Int.emod_lt_of_pos d.head (b := (total : Int)) (by decide)
  exact drawn_ofNumber (show (d.head % total).toNat < total by omega)

/-- **A color that is drawn until one is free is a drawn color, and free.** -/
theorem of_drawWithin {free : Text → Bool} {tries : Nat} {d rest : Draws} {color : Text}
    (h : drawWithin free tries d = some (color, rest)) : Drawn color ∧ free color = true := by
  induction tries generalizing d with
  | zero => simp [drawWithin] at h
  | succ tries ih =>
    simp only [drawWithin] at h
    split at h
    · next hf =>
      obtain ⟨rfl, rfl⟩ := Prod.mk.inj (Option.some.inj h)
      exact ⟨drawn_draw d, hf⟩
    · exact ih h

/-- A color drawn as a new one is a drawn color, and none of the reserved ones, black or white. -/
theorem of_drawUnique {reserved : List Text} {d rest : Draws} {color : Text}
    (h : drawUnique reserved d = some (color, rest)) : Drawn color ∧ color ∉ black :: white :: reserved := by
  obtain ⟨hd, hf⟩ := of_drawWithin h
  exact ⟨hd, by simpa using hf⟩

end Color
end ThemeSheet
