/-
# The parts of a shade's name

A name is that of a shade when it is a base, a hyphen and digits, but for one line
feed at its end; base and digits are parts of the name.
-/

import Mathlib.Data.List.Basic
import ThemeSheet.Variable.Shade

namespace ThemeSheet

/-- A text is what remains without its line end, and at most one line feed. -/
theorem Text.withoutLineEnd_append (t : Text) :
    ∃ e, t = Text.withoutLineEnd t ++ e ∧ (e = [] ∨ e = ['\n']) := by
  rw [Text.withoutLineEnd]
  split
  · next h =>
    have hne : t ≠ [] := by rintro rfl; simp at h
    rw [List.getLast?_eq_some_getLast hne, Option.some.injEq] at h
    exact ⟨['\n'], by rw [← h, List.dropLast_append_getLast], .inr rfl⟩
  · exact ⟨[], by simp, .inl rfl⟩

namespace Variable

/-- **The name of a shade is its base, a hyphen and its digits,** but for a line feed at the end. -/
theorem shadeParts?_eq_some {name base digits : Text} (h : shadeParts? name = some (base, digits)) :
    ∃ e, name = base ++ '-' :: digits ++ e ∧ (e = [] ∨ e = ['\n']) := by
  obtain ⟨e, he, hend⟩ := Text.withoutLineEnd_append name
  simp only [shadeParts?] at h
  split at h
  · next b hb =>
    split at h
    · simp at h
    · simp only [Option.some.injEq, Prod.mk.injEq] at h
      obtain ⟨rfl, rfl⟩ := h
      refine ⟨e, ?_, hend⟩
      calc name
        _ = (Text.withoutLineEnd name).reverse.reverse ++ e := by rw [List.reverse_reverse, ← he]
        _ = ((Text.withoutLineEnd name).reverse.takeWhile Unicode.isDigit ++
              '-' :: b).reverse ++ e := by rw [← hb, List.takeWhile_append_dropWhile]
        _ = _ := by simp
  · simp at h

end Variable
end ThemeSheet
