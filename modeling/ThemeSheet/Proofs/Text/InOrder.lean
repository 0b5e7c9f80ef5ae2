/-
# Texts that stand in another one in order

Texts stand in order in another one where each occurs behind the end of the one before
it.  So they do in what goes on around that text, and texts without the end of a line
stand on its lines.
-/

import ThemeSheet.Proofs.Text.Boundary

namespace ThemeSheet
namespace Text

/-- **The texts stand in the other one in order,** none overlapping the next. -/
inductive InOrder : List Text → Text → Prop
  | nil (t : Text) : InOrder [] t
  | cons {w t : Text} {ws : List Text} (gap : Text) (rest : InOrder ws t) : InOrder (w :: ws) (gap ++ w ++ t)

namespace InOrder

variable {w s t : Text} {us vs ws : List Text}

/-- More text in front changes nothing. -/
theorem prepend (h : InOrder ws t) (front : Text) : InOrder ws (front ++ t) := by
  cases h with
  | nil => exact .nil _
  | cons gap rest =>
    rw [List.append_assoc gap, ← List.append_assoc, ← List.append_assoc]
    exact .cons (front ++ gap) rest

/-- **What stands in two texts stands in both together.** -/
theorem append (hs : InOrder us s) (ht : InOrder vs t) : InOrder (us ++ vs) (s ++ t) := by
  induction hs with
  | nil s => exact ht.prepend s
  | cons gap _ ih =>
    rw [List.append_assoc (gap ++ _)]
    exact .cons gap ih

/-- Texts in order stay in order with more around them. -/
theorem around (h : InOrder ws t) (front back : Text) : InOrder ws (front ++ t ++ back) := by
  have hboth := (h.prepend front).append (.nil back)
  rwa [List.append_nil] at hboth

/-- Each of the texts stands in the other one. -/
theorem infix_of_mem (h : InOrder ws t) (hw : w ∈ ws) : w <:+: t := by
  induction h with
  | nil => exact absurd hw List.not_mem_nil
  | @cons v t ws gap _ ih =>
    rcases List.mem_cons.1 hw with rfl | hw
    · exact ⟨gap, t, rfl⟩
    · exact (ih hw).trans (List.suffix_append (gap ++ v) t).isInfix

/-- **Texts without the mark stand on both sides of it.** -/
theorem split {x : Char} (h : InOrder ws (s ++ x :: t)) (hws : ∀ w ∈ ws, x ∉ w) :
    ∃ us vs, ws = us ++ vs ∧ InOrder us s ∧ InOrder vs t := by
  generalize hst : s ++ x :: t = u at h
  induction h generalizing s with
  | nil => exact ⟨[], [], rfl, .nil s, .nil t⟩
  | @cons w u ws gap rest ih =>
    obtain ⟨hw, hrest⟩ := List.forall_mem_cons.1 hws
    rcases append_eq_append_cases hst with ⟨v, rfl⟩ | ⟨v, hv, hfront, hback⟩
    · -- the first text ends in front of the mark
      obtain rfl : s = gap ++ w ++ v := List.append_cancel_right (by rw [hst, List.append_assoc _ v])
      obtain ⟨us, vs, rfl, hus, hvs⟩ := ih hrest rfl
      exact ⟨w :: us, vs, rfl, .cons gap hus, hvs⟩
    · -- it ends behind the mark, and so it begins there too
      obtain ⟨y, v, rfl⟩ := List.exists_cons_of_ne_nil hv
      obtain ⟨rfl, rfl⟩ := List.cons.inj hback
      refine ⟨[], w :: ws, rfl, .nil s, ?_⟩
      rcases append_eq_append_cases hfront with ⟨v', hv'⟩ | ⟨v', -, -, hw'⟩
      · cases v' with
        | nil => exact absurd ((show _ = w from hv') ▸ List.mem_cons_self ..) hw
        | cons y v' =>
          rw [(List.cons.inj hv').2]
          exact .cons v' rest
      · exact absurd (by rw [hw']; simp) hw

end InOrder
end Text
end ThemeSheet
