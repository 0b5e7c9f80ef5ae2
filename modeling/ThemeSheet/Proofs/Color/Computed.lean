/-
# Colors as they stand in a compiled style sheet

A color is a number sign with six digits behind it, or `rgba(…)` with four numbers.
Either way its first character begins a color and no other one does, and it ends
where its form says: two colors that begin the same text are equal.
-/

import ThemeSheet.Proofs.Color.Replacement
import ThemeSheet.Proofs.Text.Numeral
import ThemeSheet.Color.Fade

namespace ThemeSheet

namespace Decimal

/-- A character of a decimal numeral. -/
def isNumeralChar (c : Char) : Bool := c.isDigit || c == '-' || c == '.'

/-- The digits of a number are characters of a numeral. -/
theorem isNumeralChar_decimalDigits {n : Nat} {c : Char} (h : c ∈ decimalDigits n) :
    isNumeralChar c = true := by
  rw [isNumeralChar, isDigit_of_mem_decimalDigits h, Bool.true_or, Bool.true_or]

/-- The numeral of an integer is made of such characters. -/
theorem isNumeralChar_decimalNumeral {n : Int} {c : Char} (h : c ∈ decimalNumeral n) :
    isNumeralChar c = true := by
  cases n with
  | ofNat n => exact isNumeralChar_decimalDigits h
  | negSucc n =>
    rcases List.mem_cons.1 h with rfl | h
    · rfl
    · exact isNumeralChar_decimalDigits h

/-- A numeral with a point is made of such characters. -/
theorem isNumeralChar_withPoint {places n : Nat} {c : Char} (h : c ∈ withPoint places n) :
    isNumeralChar c = true := by
  have hpadded (k m : Nat) : c ∈ zeroPadded k (decimalDigits m) → isNumeralChar c = true := by
    intro hc
    rcases List.mem_append.1 hc with hc | hc
    · rw [List.eq_of_mem_replicate hc]; rfl
    · exact isNumeralChar_decimalDigits hc
  unfold withPoint at h
  dsimp only at h
  split at h
  · exact isNumeralChar_decimalDigits h
  · rcases List.mem_append.1 h with h | h
    · exact isNumeralChar_decimalDigits h
    · rcases List.mem_cons.1 h with rfl | h
      · rfl
      · exact hpadded _ _ h

/-- A number with a fixed count of places is written in such characters. -/
theorem isNumeralChar_fixed {places m : Nat} {s : Bool} {e : Int} {c : Char}
    (h : c ∈ fixed places (.finite s m e)) : isNumeralChar c = true := by
  rcases List.mem_append.1 h with h | h
  · rw [signText] at h
    split at h
    · rw [List.mem_singleton.1 h]; rfl
    · simp at h
  · exact isNumeralChar_withPoint h

/-- What is left without the end of a text was in the text. -/
theorem mem_of_mem_dropTrailing {a c : Char} {t : Text} (h : c ∈ dropTrailing a t) : c ∈ t :=
  List.mem_reverse.1 ((List.dropWhile_sublist _).mem (List.mem_reverse.1 h))

end Decimal

/-- **Between zero and one** there is no infinite number. -/
theorem Binary64.clampToUnit_finite (x : Binary64) : ∃ s m e, x.clampToUnit = .finite s m e := by
  cases x with
  | finite s m e =>
    rw [clampToUnit]
    split
    · exact ⟨_, _, _, rfl⟩
    · split <;> exact ⟨_, _, _, rfl⟩
  | infinite s => cases s <;> exact ⟨_, _, _, rfl⟩

namespace Color

open Text

/-- A character that stands between the brackets of a computed color. -/
def isNumeric (c : Char) : Bool := Decimal.isNumeralChar c || c == ',' || c == ' '

/-- **A color as it is computed:** `rgba`, and numbers between brackets. -/
def IsComputed (t : Text) : Prop :=
  ∃ inner, t = "rgba(".toList ++ inner ++ [')'] ∧ ∀ c ∈ inner, isNumeric c = true

/-- The text of an opacity is made of characters of a computed color. -/
theorem isNumeric_alphaText {x : Binary64} {c : Char} (h : c ∈ alphaText x.clampToUnit) :
    isNumeric c = true := by
  obtain ⟨s, m, e, hx⟩ := x.clampToUnit_finite
  rw [hx] at h
  rw [isNumeric, Decimal.isNumeralChar_fixed
    (Decimal.mem_of_mem_dropTrailing (Decimal.mem_of_mem_dropTrailing h)), Bool.true_or, Bool.true_or]

/-- A color with an opacity in such characters is computed. -/
theorem isComputed_withAlpha (c : Rgb) {alpha : Text} (h : ∀ x ∈ alpha, isNumeric x = true) :
    IsComputed (c.withAlpha alpha) := by
  refine ⟨decimalNumeral c.red ++ (", ".toList ++ (decimalNumeral c.green ++ (", ".toList ++
    (decimalNumeral c.blue ++ (", ".toList ++ alpha))))),
    by delta Rgb.withAlpha; simp only [List.append_assoc], fun x hx => ?_⟩
  have hnumeral {n : Int} (hx : x ∈ decimalNumeral n) : isNumeric x = true := by
    rw [isNumeric, Decimal.isNumeralChar_decimalNumeral hx, Bool.true_or, Bool.true_or]
  have hcomma : ∀ x ∈ ", ".toList, isNumeric x = true := by decide
  simp only [List.mem_append] at hx
  rcases hx with hx | hx | hx | hx | hx | hx | hx
  · exact hnumeral hx
  · exact hcomma x hx
  · exact hnumeral hx
  · exact hcomma x hx
  · exact hnumeral hx
  · exact hcomma x hx
  · exact h x hx

/-- **A faded color that is not full is a computed color.** -/
theorem isComputed_of_faded {color text : Text} {percent : Binary64}
    (h : faded color percent = .ok text) (hb : beginsWith "rgba".toList text = true) :
    IsComputed text := by
  unfold faded at h
  split at h
  · simp at h
  · next c hc =>
    obtain rfl := Except.ok.inj h
    by_cases hfull : (percent.divNat 100).clampToUnit.atLeastOne = true
    · rw [if_pos hfull] at hb
      obtain ⟨r, hr⟩ := beginsWith_iff.1 hb
      rw [Rgb.hex, List.cons_append, List.cons_append] at hr
      exact absurd (List.cons.inj (show '#' :: _ = 'r' :: ("gba".toList ++ r) from hr)).1 (by decide)
    · rw [if_neg hfull]
      exact isComputed_withAlpha c fun x hx => isNumeric_alphaText hx

/-! ### Where a color begins and where it ends -/

/-- **A color in either form.** -/
def IsColor (t : Text) : Prop := isSixDigit t = true ∨ IsComputed t

/-- The characters that colors begin with. -/
def isStart (c : Char) : Bool := c == '#' || c == 'r'

/-- No color begins with a hexadecimal digit. -/
theorem isStart_eq_false_of_isHexDigit {c : Char} (h : isHexDigit c = true) : isStart c = false := by
  by_contra hs
  simp only [isStart, Bool.not_eq_false, Bool.or_eq_true, beq_iff_eq] at hs
  rcases hs with rfl | rfl <;> exact absurd h (by decide)

/-- No color begins with a character that stands between the brackets. -/
theorem isStart_eq_false_of_isNumeric {c : Char} (h : isNumeric c = true) : isStart c = false := by
  by_contra hs
  simp only [isStart, Bool.not_eq_false, Bool.or_eq_true, beq_iff_eq] at hs
  rcases hs with rfl | rfl <;> exact absurd h (by decide)

/-- No bracket stands between the brackets. -/
theorem bracket_notMem {inner : Text} (h : ∀ c ∈ inner, isNumeric c = true) : ')' ∉ inner :=
  fun hm => absurd (h _ hm) (by decide)

variable {q q' t t' : Text}

/-- A computed color begins with its letter, and no color begins and no call either behind it. -/
theorem IsComputed.eq_cons (h : IsComputed q) :
    ∃ tail, q = 'r' :: tail ∧ ∀ d ∈ tail, isStart d = false ∧ d ≠ 'f' := by
  obtain ⟨inner, rfl, hi⟩ := h
  refine ⟨"gba(".toList ++ inner ++ [')'], rfl, fun d hd => ?_⟩
  have hword : ∀ d ∈ "gba(".toList, isStart d = false ∧ d ≠ 'f' := by decide
  rw [List.mem_append, List.mem_append, List.mem_singleton] at hd
  rcases hd with (hd | hd) | rfl
  · exact hword d hd
  · exact ⟨isStart_eq_false_of_isNumeric (hi d hd), fun hf => absurd (hi d hd) (by rw [hf]; decide)⟩
  · exact ⟨rfl, by decide⟩

/-- **Only the first character of a color begins one.** -/
theorem IsColor.eq_cons (h : IsColor q) : ∃ c tail, q = c :: tail ∧ isStart c = true ∧
    ∀ d ∈ tail, isStart d = false := by
  rcases h with h | h
  · obtain ⟨ds, rfl, -, hds⟩ := isSixDigit_iff.1 h
    exact ⟨'#', ds, rfl, rfl, fun d hd => isStart_eq_false_of_isHexDigit (hds d hd)⟩
  · obtain ⟨tail, rfl, htail⟩ := h.eq_cons
    exact ⟨'r', tail, rfl, rfl, fun d hd => (htail d hd).1⟩

/-- **A bracket ends a color.** -/
theorem IsColor.eq_nil_of_bracket (h : IsColor q) {a b : Text} (hq : q = a ++ ')' :: b) : b = [] := by
  rcases h with h | ⟨inner, rfl, hi⟩
  · obtain ⟨ds, rfl, -, hds⟩ := isSixDigit_iff.1 h
    have hm : ')' ∈ '#' :: ds := by rw [hq]; simp
    rcases List.mem_cons.1 hm with hm | hm
    · exact absurd hm (by decide)
    · exact absurd (hds _ hm) (by decide)
  · have hno : ')' ∉ "rgba(".toList ++ inner := by
      rw [List.mem_append, not_or]
      exact ⟨by decide, bracket_notMem hi⟩
    exact ((List.append_cons_inj_of_notMem hno List.not_mem_nil).1 hq).2.2.symm

/-- **A color that begins in front of a bracket ends in front of it.** -/
theorem IsColor.prefix_of_bracket (h : IsColor q) {b r : Text} (he : b ++ [')'] ++ t = q ++ r) :
    ∃ v, b ++ [')'] = q ++ v := by
  rcases List.append_eq_append_iff.1 he with ⟨w, hq, -⟩ | ⟨v, hv, -⟩
  · obtain rfl := h.eq_nil_of_bracket (a := b) (b := w) (by rw [hq]; simp)
    exact ⟨[], by rw [hq, List.append_nil, List.append_nil]⟩
  · exact ⟨v, hv⟩

/-- A computed color that begins the same text as a color is this color. -/
theorem IsComputed.eq_of_append (h : IsComputed q) (h' : IsColor q') {w : Text} (he : q' = q ++ w) :
    q = q' := by
  obtain ⟨inner, rfl, -⟩ := h
  rw [he, h'.eq_nil_of_bracket (a := "rgba(".toList ++ inner) (b := w) (by rw [he]; simp),
    List.append_nil]

/-- **Of two colors that begin the same text neither goes on behind the other.** -/
theorem IsColor.append_inj (h : IsColor q) (h' : IsColor q') (he : q ++ t = q' ++ t') :
    q = q' ∧ t = t' := by
  suffices hq : q = q' by subst hq; exact ⟨rfl, List.append_cancel_left he⟩
  rcases h with h | h <;> rcases h' with h' | h'
  · obtain ⟨ds, rfl, hl, -⟩ := isSixDigit_iff.1 h
    obtain ⟨ds', rfl, hl', -⟩ := isSixDigit_iff.1 h'
    exact (List.append_inj he (by simp [hl, hl'])).1
  · obtain ⟨ds, rfl, -⟩ := isSixDigit_iff.1 h
    obtain ⟨inner, rfl, -⟩ := h'
    exact absurd (List.cons.inj he).1 (by decide)
  · obtain ⟨ds, rfl, -⟩ := isSixDigit_iff.1 h'
    obtain ⟨inner, rfl, -⟩ := h
    exact absurd (List.cons.inj he).1 (by decide)
  · rcases List.append_eq_append_iff.1 he with ⟨w, hw, -⟩ | ⟨w, hw, -⟩
    · exact h.eq_of_append (.inr h') hw
    · exact (h'.eq_of_append (.inr h) hw).symm

end Color
end ThemeSheet
