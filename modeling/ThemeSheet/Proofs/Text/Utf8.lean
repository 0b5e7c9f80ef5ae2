/-
# Texts and their bytes

Reading the bytes of a text gives the text back, so two texts with the same bytes are
the same.
-/

import Mathlib.Data.List.Basic
import Mathlib.Data.Option.Basic
import ThemeSheet.Text.Utf8

namespace ThemeSheet
namespace Utf8

/-- A byte is made from a number below 256 and gives it back. -/
theorem toNat_byte {n : Nat} (h : n < 256) : (UInt8.ofNat n).toNat = n :=
  UInt8.toNat_ofNat_of_lt' h

/-- A following byte carries six bits. -/
theorem toNat_tailByte (n : Nat) : (tailByte n).toNat = 0x80 + n % 64 :=
  toNat_byte (by omega)

/-- A continuation byte adds its six bits. -/
theorem tail_tailByte {more low high bits n : Nat} (hlow : low ≤ 0x80 + n % 64)
    (hhigh : 0x80 + n % 64 ≤ high) (rest : List UInt8) :
    tail (more + 1) low high bits (tailByte n :: rest) =
      tail more 0x80 0xBF (64 * bits + n % 64) rest := by
  rw [tail, toNat_tailByte, if_pos ⟨hlow, hhigh⟩]
  congr 1
  omega

/-- A first byte and the following bytes it asks for are read as one character. -/
theorem units_of_lead {b : UInt8} {l : Lead} {n : Nat} {bytes rest : List UInt8}
    (hl : lead? b.toNat = some l) (ht : tail l.more l.low l.high l.bits bytes = (some n, rest)) :
    units (b :: bytes) = some (Char.ofNat n) :: units rest := by
  rw [units, hl]
  simp only [ht, Option.map_some]

/-- What the first byte of a character announces, by the number of bytes that follow. -/
theorem lead?_two {n : Nat} (h : 0x80 ≤ n) (h' : n < 0x800) :
    lead? (0xC0 + n / 64) = some ⟨1, 0x80, 0xBF, n / 64⟩ := by
  unfold lead?
  rw [if_neg (by omega), if_neg (by omega), if_pos (by omega), Nat.add_sub_cancel_left]

/-- The first of three bytes, and the bounds it puts on the second. -/
theorem lead?_three {n : Nat} (h : 0x800 ≤ n) (h' : n < 0x10000) (hs : n < 0xD800 ∨ 0xDFFF < n) :
    ∃ low high, lead? (0xE0 + n / 4096) = some ⟨2, low, high, n / 4096⟩ ∧
      low ≤ 0x80 + n / 64 % 64 ∧ 0x80 + n / 64 % 64 ≤ high := by
  unfold lead?
  rw [if_neg (by omega), if_neg (by omega), if_neg (by omega)]
  by_cases h0 : n / 4096 = 0
  · exact ⟨_, _, by rw [if_pos (by omega), h0], by omega, by omega⟩
  · rw [if_neg (by omega)]
    by_cases hd : n / 4096 = 0xD
    · exact ⟨_, _, by rw [if_pos (by omega), hd], by omega, by omega⟩
    · exact ⟨_, _, by rw [if_neg (by omega), if_pos (by omega), Nat.add_sub_cancel_left],
        by omega, by omega⟩

/-- The first of four bytes, and the bounds it puts on the second. -/
theorem lead?_four {n : Nat} (h : 0x10000 ≤ n) (h' : n < 0x110000) :
    ∃ low high, lead? (0xF0 + n / 262144) = some ⟨3, low, high, n / 262144⟩ ∧
      low ≤ 0x80 + n / 4096 % 64 ∧ 0x80 + n / 4096 % 64 ≤ high := by
  unfold lead?
  rw [if_neg (by omega), if_neg (by omega), if_neg (by omega), if_neg (by omega), if_neg (by omega),
    if_neg (by omega)]
  by_cases h0 : n / 262144 = 0
  · exact ⟨_, _, by rw [if_pos (by omega), h0], by omega, by omega⟩
  · rw [if_neg (by omega)]
    by_cases h4 : n / 262144 = 4
    · exact ⟨_, _, by rw [if_neg (by omega), if_pos (by omega), h4], by omega, by omega⟩
    · exact ⟨_, _, by rw [if_pos (by omega), Nat.add_sub_cancel_left], by omega, by omega⟩

/-- **The bytes of a character are read as this character.** -/
theorem units_encodeChar (c : Char) (rest : List UInt8) :
    units (encodeChar c ++ rest) = some c :: units rest := by
  have hvalid : c.toNat < 0xD800 ∨ 0xDFFF < c.toNat ∧ c.toNat < 0x110000 := c.valid
  have hc : Char.ofNat c.toNat = c := Char.ofNat_toNat c
  unfold encodeChar
  generalize c.toNat = n at hvalid hc
  rw [← hc]
  dsimp only
  by_cases h1 : n < 0x80
  · rw [if_pos h1]
    refine units_of_lead (l := ⟨0, 0x80, 0xBF, n⟩) ?_ (by simp [tail])
    rw [toNat_byte (by omega), lead?, if_pos h1]
  rw [if_neg h1]
  by_cases h2 : n < 0x800
  · rw [if_pos h2]
    refine units_of_lead (l := ⟨1, 0x80, 0xBF, n / 64⟩) ?_ ?_
    · rw [toNat_byte (by omega), lead?_two (by omega) h2]
    · show tail 1 0x80 0xBF (n / 64) (tailByte n :: rest) = _
      rw [tail_tailByte (by omega) (by omega), tail]
      congr 2
      omega
  rw [if_neg h2]
  by_cases h3 : n < 0x10000
  · obtain ⟨low, high, hl, hlow, hhigh⟩ := lead?_three (by omega) h3 (by omega)
    rw [if_pos h3]
    refine units_of_lead (l := ⟨2, low, high, n / 4096⟩) ?_ ?_
    · rw [toNat_byte (by omega), hl]
    · show tail 2 low high (n / 4096) (tailByte (n / 64) :: tailByte n :: rest) = _
      rw [tail_tailByte hlow hhigh, tail_tailByte (by omega) (by omega), tail]
      congr 2
      omega
  · obtain ⟨low, high, hl, hlow, hhigh⟩ := lead?_four (n := n) (by omega) (by omega)
    rw [if_neg h3]
    refine units_of_lead (l := ⟨3, low, high, n / 262144⟩) ?_ ?_
    · rw [toNat_byte (by omega), hl]
    · show tail 3 low high (n / 262144) (tailByte (n / 4096) :: tailByte (n / 64) :: tailByte n :: rest) = _
      rw [tail_tailByte hlow hhigh, tail_tailByte (by omega) (by omega),
        tail_tailByte (by omega) (by omega), tail]
      congr 2
      omega

/-- **A text is read back from its bytes,** character by character. -/
theorem units_encode (t : Text) : units (encode t) = t.map some := by
  induction t with
  | nil => rw [encode, List.flatMap_nil, units]; rfl
  | cons c t ih =>
    rw [encode, List.flatMap_cons, units_encodeChar, ← encode, ih, List.map_cons]

/-- **Two texts with the same bytes are the same.** -/
theorem encode_injective : Function.Injective encode := by
  intro a b h
  have hu := congrArg units h
  rw [units_encode, units_encode] at hu
  exact List.map_injective_iff.2 (Option.some_injective _) hu

/-- **The bytes of a text are well-formed and write the text.** -/
theorem decode?_encode (t : Text) : decode? (encode t) = some t := by
  rw [decode?, units_encode]
  induction t with
  | nil => rfl
  | cons c t ih => rw [List.map_cons, List.mapM_cons, ih]; rfl

end Utf8

namespace Text

/-! ### Line ends -/

/-- Where every line ends with a line feed, no carriage return is left. -/
theorem notMem_unixLines (t : Text) : '\r' ∉ unixLines t := by
  fun_induction unixLines t with
  | case1 => simp
  | case2 t ih => simpa using ih
  | case3 c t _ ih =>
    by_cases hc : c = '\r'
    · simpa [hc] using ih
    · simpa [hc, eq_comm] using ih

/-- A text without carriage returns has its line ends already. -/
theorem unixLines_of_notMem {t : Text} (h : '\r' ∉ t) : unixLines t = t := by
  fun_induction unixLines t with
  | case1 => rfl
  | case2 t _ => simp at h
  | case3 c t _ ih =>
    rw [List.mem_cons, not_or] at h
    rw [if_neg (Ne.symm h.1), ih h.2]

end Text
end ThemeSheet
