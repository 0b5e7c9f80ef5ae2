/-
# Reading compiled marker rules

A compiled marker rule is a class, the opening of a block, and a value up to the last
semicolon of its line.  Every name that is read back is an `@` sign with characters
of a class behind it.
-/

import ThemeSheet.Marker.Discovery
import ThemeSheet.Proofs.Table
import ThemeSheet.Proofs.Text.Lines
import ThemeSheet.Proofs.Text.Replacement

namespace ThemeSheet
namespace Marker

/-- **What a compiled marker rule is.** -/
theorem compiledRule?_eq_some {t name color rest : Text}
    (h : compiledRule? t = some ((name, color), rest)) :
    t = '.' :: name ++ ruleOpening ++ color ++ ';' :: rest ∧
      (∀ c ∈ name, isClassChar c = true) ∧ '\n' ∉ color := by
  unfold compiledRule? at h
  split at h
  · next t =>
    obtain ⟨value, hv, h⟩ := Option.bind_eq_some_iff.1 h
    obtain ⟨⟨color', rest'⟩, hl, h⟩ := Option.bind_eq_some_iff.1 h
    simp only [Option.ite_none_left_eq_some, Option.some.injEq, Prod.mk.injEq] at h
    obtain ⟨-, ⟨rfl, rfl⟩, rfl⟩ := h
    obtain ⟨hline, hn⟩ := Text.lastInLine?_eq_some hl
    refine ⟨?_, fun c hc => List.mem_takeWhile_imp hc, hn⟩
    calc '.' :: t = '.' :: (t.takeWhile isClassChar ++ t.dropWhile isClassChar) := by
          rw [List.takeWhile_append_dropWhile]
      _ = _ := by rw [Text.dropPrefix?_eq_some.1 hv, hline]; simp
  · simp at h

/-- **A name that is read back is an `@` sign and characters of a class.** -/
theorem name_of_mem_discover {css : Text} {names : Option (List Text)} {e : Text × Text}
    (h : e ∈ (discover css names).entries) :
    ∃ name, e.1 = '@' :: name ∧ ∀ c ∈ name, isClassChar c = true := by
  obtain ⟨⟨name, color⟩, hr, he⟩ := List.mem_filterMap.1 (Table.mem_of_mem_ofList h)
  have happend : ∀ u x r, compiledRule? u = some (x, r) → ∃ p, u = p ++ r := by
    intro u x r hx
    exact ⟨'.' :: x.1 ++ ruleOpening ++ x.2 ++ [';'], by rw [(compiledRule?_eq_some hx).1]; simp⟩
  obtain ⟨before, u, rest, -, hu⟩ := Text.mem_allMatches happend hr
  obtain ⟨-, he⟩ := Option.ite_none_right_eq_some.1 he
  obtain rfl := Option.some.inj he
  exact ⟨name, rfl, (compiledRule?_eq_some hu).2.1⟩

end Marker
end ThemeSheet
