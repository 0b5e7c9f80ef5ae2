/-
# Texts behind block comments

A block comment ends with a slash, so none that begins in front of a text without
slashes ends inside it, and such a text is left as it is.
-/

import ThemeSheet.Css.Comment
import ThemeSheet.Proofs.Text.Boundary

namespace ThemeSheet
namespace Css

open Text

/-- No comment that begins before a text without a slash ends inside it. -/
theorem staysBefore_blockComment {z : Text} (hz : '/' ∉ z) :
    StaysBefore (fun s => (blockComment? s).map fun (_, rest) => (([] : Text), rest)) z := by
  refine staysBefore_of (q := fun p => ∃ front, p = front ++ ['/']) ?_ ?_
  · intro t x r h
    obtain ⟨⟨inside, rest⟩, hb, he⟩ := Option.map_eq_some_iff.1 h
    obtain ⟨-, rfl⟩ := Prod.mk.inj he
    exact ⟨_, (blockComment?_append hb).symm, "/*".toList ++ inside ++ ['*'], by simp⟩
  · rintro u w r - hw rfl ⟨front, hfront⟩
    rcases w.eq_nil_or_concat with rfl | ⟨w, c, rfl⟩
    · exact hw rfl
    · rw [List.concat_eq_append, ← List.append_assoc] at hfront
      obtain rfl : c = '/' := by simpa using (List.append_inj' hfront rfl).2
      exact hz (by simp)

/-- A text without a slash has no comments to leave out. -/
theorem dropComments_of_noSlash {z : Text} (hz : '/' ∉ z) : dropComments z = z := by
  have := replaceMatches_skip (p := z) (t := [])
    (m := fun s => (blockComment? s).map fun (_, rest) => (([] : Text), rest)) fun a ha u => by
      cases hb : blockComment? (a :: u) with
      | none => rfl
      | some m =>
        have he := blockComment?_append hb
        exact absurd (by rw [← (List.cons.inj he).1] at ha; exact ha) hz
  simpa [dropComments, replaceMatches] using this

/-- **Comments that stand before a text without slashes end before it.** -/
theorem dropComments_append {z : Text} (hz : '/' ∉ z) (t : Text) :
    ∃ t', dropComments (t ++ z) = t' ++ z := by
  obtain ⟨t', ht⟩ := replaceMatches_append (staysBefore_blockComment hz) t
  exact ⟨t', ht.trans (congrArg _ (dropComments_of_noSlash hz))⟩

/-- **A text in which no comment is opened stays as it is.** -/
theorem dropComments_of_not_occursIn {t : Text} (h : occursIn "/*".toList t = false) :
    dropComments t = t := by
  induction t with
  | nil => simp [dropComments, replaceMatches]
  | cons c t ih =>
    rw [occursIn, Bool.or_eq_false_iff] at h
    have hnone : blockComment? (c :: t) = none := by
      cases hd : dropPrefix? "/*".toList (c :: t) with
      | none => rw [blockComment?, hd]; rfl
      | some r => rw [beginsWith, hd] at h; exact absurd h.1 (by simp)
    rw [dropComments, replaceMatches_of_none (by rw [hnone]; rfl)]
    exact congrArg _ (ih h.2)

/-- A text without asterisks opens no comment. -/
theorem occursIn_comment_append {t z : Text} (h : occursIn "/*".toList t = false) (hz : '*' ∉ z) :
    occursIn "/*".toList (t ++ z) = false := by
  rw [show "/*".toList = ['/', '*'] from rfl] at h ⊢
  induction t with
  | nil =>
    clear h
    rw [List.nil_append]
    induction z with
    | nil => rfl
    | cons c z ih =>
      rw [occursIn, ih fun hm => hz (List.mem_cons_of_mem _ hm), Bool.or_false]
      by_contra hn
      obtain ⟨r, hr⟩ := beginsWith_iff.1 ((Bool.not_eq_false _).mp hn)
      exact hz (by rw [hr]; simp)
  | cons c t ih =>
    rw [occursIn, Bool.or_eq_false_iff] at h
    rw [List.cons_append, occursIn, ih h.2, Bool.or_false]
    by_contra hn
    obtain ⟨r, hr⟩ := beginsWith_iff.1 ((Bool.not_eq_false _).mp hn)
    obtain ⟨rfl, hr'⟩ := List.cons.inj hr
    cases t with
    | nil => exact hz (by rw [show z = '*' :: r from hr']; simp)
    | cons d t =>
      obtain ⟨rfl, -⟩ := List.cons.inj hr'
      exact absurd h.1 (by simp [beginsWith, dropPrefix?])

end Css
end ThemeSheet
