/-
# Hexadecimal text in any letter case

A hexadecimal digit and the number sign are equal but for case only to hexadecimal
digits and to the number sign: no letter beyond ASCII folds to one of them.  So the
search for a color in any letter case looks at ASCII characters alone.
-/

import Mathlib.Data.List.Basic
import ThemeSheet.Text.Blank
import ThemeSheet.Text.Numeral
import ThemeSheet.Text.Replace

namespace ThemeSheet
namespace Unicode

/-- Two letters are the same but for case exactly if they fold alike. -/
theorem sameLetter_iff {a b : Char} : sameLetter a b = true ↔ foldCase a = foldCase b := by
  simp [sameLetter]

/-- The characters that a fold beyond ASCII may end at: itself beyond ASCII, or `i`, `k`, `s`. -/
theorem foldRun_target : ∀ run ∈ foldRuns, 128 ≤ (run.first : Int) + run.shift ∨
    run.first = run.last ∧ (run.first : Int) + run.shift ∈ [105, 107, 115] := by
  decide +kernel

/-- A number is the code point of its character, or the character has the code point zero. -/
theorem toNat_ofNat_eq_or_zero (n : Nat) : (Char.ofNat n).toNat = n ∨ (Char.ofNat n).toNat = 0 := by
  by_cases hn : n.isValidChar
  · exact .inl (by rw [Char.ofNat, dif_pos hn]; rfl)
  · exact .inr (by rw [Char.ofNat, dif_neg hn]; rfl)

/-- **No letter beyond ASCII folds to a hexadecimal digit or the number sign.** -/
theorem foldCase_beyond_ascii {c : Char} (h : 128 ≤ c.toNat) :
    128 ≤ (foldCase c).toNat ∨ (foldCase c).toNat ∈ [0, 105, 107, 115] := by
  rw [foldCase, if_neg (by omega)]
  split
  · next run hrun =>
    have hm := List.mem_of_find?_eq_some hrun
    have hh := List.find?_some hrun
    simp only [FoldRun.holds, Bool.and_eq_true, decide_eq_true_eq] at hh
    have ht := foldRun_target run hm
    rcases toNat_ofNat_eq_or_zero (c.toNat + run.shift).toNat with hv | hv
    · rw [hv]
      simp only [List.mem_cons, List.not_mem_nil, or_false] at ht ⊢
      omega
    · exact .inr (by rw [hv]; simp)
  · exact .inl h

/-- What is true of the ASCII characters is true of a character below 128. -/
theorem ascii_cases {p : Char → Prop} (h : ∀ n < 128, p (Char.ofNat n)) {c : Char}
    (hc : c.toNat < 128) : p c := by
  have := h c.toNat hc
  rwa [Char.ofNat_toNat] at this

/-- Folding an ASCII character makes no hexadecimal digit and unmakes none. -/
theorem foldCase_hex_ascii : ∀ n < 128, isHexDigit (Char.ofNat n) =
    isHexDigit (foldCase (Char.ofNat n)) := by
  decide

/-- A hexadecimal digit is an ASCII character. -/
theorem isHexDigit_lt {c : Char} (h : isHexDigit c = true) : c.toNat < 128 := by
  simp only [isHexDigit, hexValue?] at h
  grind

/-- Folding makes no hexadecimal digit and unmakes none. -/
theorem isHexDigit_foldCase (c : Char) : isHexDigit (foldCase c) = isHexDigit c := by
  by_cases hc : c.toNat < 128
  · exact (ascii_cases (p := fun c => isHexDigit c = isHexDigit (foldCase c))
      foldCase_hex_ascii hc).symm
  · have h1 : isHexDigit c = false := by
      by_contra h
      exact hc (isHexDigit_lt (by simpa using h))
    have h2 := foldCase_beyond_ascii (c := c) (by omega)
    rw [h1]
    simp only [isHexDigit, hexValue?, List.mem_cons, List.not_mem_nil, or_false] at h2 ⊢
    grind

/-- What is equal to digits but for case is made of digits. -/
theorem isHexDigit_of_sameText {q digits : List Char} (hd : ∀ d ∈ digits, isHexDigit d = true)
    (h : q.map foldCase = digits.map foldCase) : ∀ c ∈ q, isHexDigit c = true := by
  intro c hc
  obtain ⟨e, he, hce⟩ := List.mem_map.1 (h ▸ List.mem_map_of_mem hc)
  rw [← isHexDigit_foldCase, ← hce, isHexDigit_foldCase]
  exact hd e he

/-- **The number sign is equal but for case to itself only.** -/
theorem eq_hash_of_sameLetter {c : Char} (h : sameLetter '#' c = true) : c = '#' := by
  have hf : foldCase c = '#' := (sameLetter_iff.1 h).symm
  by_cases hc : c.toNat < 128
  · have : ∀ n < 128, foldCase (Char.ofNat n) = '#' → Char.ofNat n = '#' := by decide
    exact ascii_cases (p := fun c => foldCase c = '#' → c = '#') this hc hf
  · have h2 := foldCase_beyond_ascii (c := c) (by omega)
    rw [hf] at h2
    exact absurd h2 (by decide)

end Unicode

open Unicode

/-! ### The digits one by one -/

/-- The hexadecimal digits in either letter case. -/
def anyHexDigits : Text := "0123456789abcdefABCDEF".toList

/-- The hexadecimal digits, one by one. -/
theorem isHexDigit_iff {c : Char} : isHexDigit c = true ↔ c ∈ anyHexDigits := by
  have hascii : ∀ n < 128, isHexDigit (Char.ofNat n) = true → Char.ofNat n ∈ anyHexDigits := by decide
  have hdigits : ∀ c ∈ anyHexDigits, isHexDigit c = true := by decide
  exact ⟨fun h => ascii_cases (p := fun c => isHexDigit c = true → c ∈ anyHexDigits) hascii (isHexDigit_lt h) h,
    hdigits c⟩

/-- A hexadecimal digit is no blank. -/
theorem not_isBlank_of_isHexDigit {c : Char} (h : isHexDigit c = true) : isBlank c = false := by
  have hdigits : ∀ c ∈ anyHexDigits, isBlank c = false := by decide
  exact hdigits c (isHexDigit_iff.1 h)

namespace Text

/-- **What begins with `p` in any letter case:** some text that is equal to `p` but for case, and a
rest. -/
theorem dropPrefixAnyCase?_eq_some {p t r : Text} :
    dropPrefixAnyCase? p t = some r ↔ ∃ q, q.map foldCase = p.map foldCase ∧ t = q ++ r := by
  induction p generalizing t with
  | nil => simp [dropPrefixAnyCase?, eq_comm]
  | cons a p ih =>
    cases t with
    | nil =>
      simp only [dropPrefixAnyCase?, List.map_cons]
      constructor
      · intro h; simp at h
      · rintro ⟨q, hq, ht⟩
        obtain ⟨rfl, rfl⟩ := List.append_eq_nil_iff.1 ht.symm
        simp at hq
    | cons c t =>
      simp only [dropPrefixAnyCase?]
      split
      · next h =>
        rw [ih]
        constructor
        · rintro ⟨q, hq, rfl⟩
          exact ⟨c :: q, by simp [hq, sameLetter_iff.1 h], rfl⟩
        · rintro ⟨q, hq, ht⟩
          cases q with
          | nil => simp at hq
          | cons d q =>
            simp only [List.map_cons, List.cons.injEq, List.cons_append] at hq ht
            exact ⟨q, hq.2, ht.2⟩
      · next h =>
        constructor
        · intro hn; simp at hn
        · rintro ⟨q, hq, ht⟩
          cases q with
          | nil => simp at hq
          | cons d q =>
            simp only [List.map_cons, List.cons.injEq, List.cons_append] at hq ht
            exact absurd (sameLetter_iff.2 (by rw [ht.1, hq.1])) h

/-- Does the text begin with the needle, in any letter case? -/
def beginsAnyCase (needle t : Text) : Bool := (dropPrefixAnyCase? needle t).isSome

/-- Does the needle occur somewhere in the text, in any letter case? -/
def occursAnyCase (needle : Text) : Text → Bool
  | [] => beginsAnyCase needle []
  | c :: t => beginsAnyCase needle (c :: t) || occursAnyCase needle t

/-- A text begins with a needle in some letter case exactly if its beginning folds alike. -/
theorem beginsAnyCase_iff {needle t : Text} :
    beginsAnyCase needle t = true ↔ ∃ q r, q.map foldCase = needle.map foldCase ∧ t = q ++ r := by
  rw [beginsAnyCase, Option.isSome_iff_exists]
  constructor
  · rintro ⟨r, h⟩
    obtain ⟨q, hq, rfl⟩ := dropPrefixAnyCase?_eq_some.1 h
    exact ⟨q, r, hq, rfl⟩
  · rintro ⟨q, r, hq, rfl⟩
    exact ⟨r, dropPrefixAnyCase?_eq_some.2 ⟨q, hq, rfl⟩⟩

/-- A needle occurs in some letter case exactly if an end of the text begins with it. -/
theorem occursAnyCase_iff {needle t : Text} :
    occursAnyCase needle t = true ↔ ∃ before rest, t = before ++ rest ∧
      beginsAnyCase needle rest = true := by
  induction t with
  | nil =>
    rw [occursAnyCase]
    constructor
    · exact fun h => ⟨[], [], rfl, h⟩
    · rintro ⟨a, b, h, hb⟩
      obtain ⟨rfl, rfl⟩ := List.append_eq_nil_iff.1 h.symm
      exact hb
  | cons c t ih =>
    rw [occursAnyCase, Bool.or_eq_true, ih]
    constructor
    · rintro (h | ⟨a, b, rfl, hb⟩)
      · exact ⟨[], c :: t, rfl, h⟩
      · exact ⟨c :: a, b, rfl, hb⟩
    · rintro ⟨a, b, h, hb⟩
      cases a with
      | nil => exact .inl (by rw [h]; exact hb)
      | cons d a =>
        simp only [List.cons_append, List.cons.injEq] at h
        exact .inr ⟨a, b, h.2, hb⟩

end Text
end ThemeSheet
