/-
# Passes over two texts in a row

A matcher keeps to a boundary when no match that begins before it ends behind it.
A pass over two texts with such a boundary between them is a pass over the second
text, with something before it that comes from the first.  Where the matcher finds in
the first text what it finds there alone, the pass is one over each of them.
-/

import ThemeSheet.Proofs.Fallible
import ThemeSheet.Proofs.Text.Replacement

namespace ThemeSheet
namespace Text

/-- Where two readings of one text cut it, the second cut lies in the second part or the first one
ends inside. -/
theorem append_eq_append_cases {u z p r : Text} (h : u ++ z = p ++ r) :
    (∃ v, r = v ++ z) ∨ ∃ w, w ≠ [] ∧ p = u ++ w ∧ z = w ++ r := by
  rcases List.append_eq_append_iff.1 h with ⟨w, hp, hz⟩ | ⟨v, -, hr⟩
  · cases w with
    | nil => exact .inl ⟨[], by simpa using hz.symm⟩
    | cons c w => exact .inr ⟨c :: w, by simp, hp, hz⟩
  · exact .inl ⟨v, hr⟩

/-- **No match that begins in front of the text ends inside it.** -/
def StaysBefore {α : Type} (m : Text → Option (α × Text)) (z : Text) : Prop :=
  ∀ u, u ≠ [] → ∀ x r, m (u ++ z) = some (x, r) → ∃ v, r = v ++ z

variable {α : Type} {z : Text}

/-- A matcher keeps to a boundary if it leaves an end of what it looks at and no match can go on
behind it. -/
theorem staysBefore_of {m : Text → Option (α × Text)} {q : Text → Prop}
    (hm : ∀ t x r, m t = some (x, r) → ∃ p, t = p ++ r ∧ q p)
    (hz : ∀ u w r, u ≠ [] → w ≠ [] → z = w ++ r → ¬ q (u ++ w)) : StaysBefore m z := by
  intro u hu x r h
  obtain ⟨p, hp, hq⟩ := hm _ _ _ h
  rcases append_eq_append_cases hp with hv | ⟨w, hw, rfl, hz'⟩
  · exact hv
  · exact absurd hq (hz u w r hu hw hz')

/-- **A pass over two texts ends with a pass over the second.** -/
theorem replaceMatches_append {m : Matcher} (hm : StaysBefore m z) (t : Text) :
    ∃ t', replaceMatches m (t ++ z) = t' ++ replaceMatches m z := by
  induction hlen : t.length using Nat.strongRecOn generalizing t with
  | _ n ih =>
    subst hlen
    cases t with
    | nil => exact ⟨[], rfl⟩
    | cons c t =>
      have hchar := ih t.length (by simp) t rfl
      rw [List.cons_append, replaceMatches]
      split
      · next new rest h =>
        obtain ⟨v, rfl⟩ := hm (c :: t) (by simp) _ _ h
        split
        · next hle =>
          obtain ⟨t', ht'⟩ := ih v.length (by simp at hle ⊢; omega) v rfl
          exact ⟨new ++ t', by rw [ht', List.append_assoc]⟩
        · obtain ⟨t', ht'⟩ := hchar
          exact ⟨c :: t', by rw [ht']; rfl⟩
      · obtain ⟨t', ht'⟩ := hchar
        exact ⟨c :: t', by rw [ht']; rfl⟩

/-- **The matches in two texts end with those in the second.** -/
theorem allMatches_append {m : Text → Option (α × Text)} (hm : StaysBefore m z) (t : Text) :
    ∃ found, allMatches m (t ++ z) = found ++ allMatches m z := by
  induction hlen : t.length using Nat.strongRecOn generalizing t with
  | _ n ih =>
    subst hlen
    cases t with
    | nil => exact ⟨[], rfl⟩
    | cons c t =>
      have hchar := ih t.length (by simp) t rfl
      rw [List.cons_append, allMatches]
      split
      · next new rest h =>
        obtain ⟨v, rfl⟩ := hm (c :: t) (by simp) _ _ h
        split
        · next hle =>
          obtain ⟨found, hf⟩ := ih v.length (by simp at hle ⊢; omega) v rfl
          exact ⟨new :: found, by rw [hf]; rfl⟩
        · exact hchar
      · exact hchar

/-- **What is found at the beginning of a text is found when another one follows,** unless it reaches over the
boundary; the matcher finds what is written in front of the rest. -/
theorem append_of_written {m : Text → Option (α × Text)} {p : α → Prop} {w : α → Text}
    (hm : ∀ t x r, m t = some (x, r) ↔ p x ∧ t = w x ++ r) {s : Text}
    (hcross : ∀ x v r, p x → w x = s ++ v → v ≠ [] → z ≠ v ++ r) :
    m (s ++ z) = (m s).map fun (x, r) => (x, r ++ z) := by
  cases hfound : m (s ++ z) with
  | some found =>
    obtain ⟨x, r⟩ := found
    obtain ⟨hx, he⟩ := (hm _ x r).1 hfound
    rcases append_eq_append_cases he with ⟨v, rfl⟩ | ⟨v, hv, hw, hz⟩
    · rw [← List.append_assoc] at he
      rw [(hm s x v).2 ⟨hx, List.append_cancel_right he⟩]
      rfl
    · exact absurd hz (hcross x v r hx hw hv)
  | none =>
    cases halone : m s with
    | none => rfl
    | some found =>
      obtain ⟨x, r⟩ := found
      obtain ⟨hx, rfl⟩ := (hm s x r).1 halone
      rw [(hm _ x (r ++ z)).2 ⟨hx, List.append_assoc ..⟩] at hfound
      exact absurd hfound (Option.some_ne_none _)

/-- **The matcher finds in the first text what it finds there alone,** whatever part of it it looks at. -/
def SeesApart (m : Text → Option (α × Text)) (s z : Text) : Prop :=
  ∀ front kept, s = front ++ kept → kept ≠ [] → m (kept ++ z) = (m kept).map fun (x, r) => (x, r ++ z)

namespace SeesApart

variable {m : Text → Option (α × Text)} {c : Char} {p s t : Text}

/-- A matcher that sees two texts apart sees the end of the first apart from the second. -/
theorem of_append (h : SeesApart m (p ++ s) z) : SeesApart m s z :=
  fun front kept hs hne => h (p ++ front) kept (by rw [hs, List.append_assoc]) hne

/-- A matcher that sees two texts apart does so behind the first character. -/
theorem tail (h : SeesApart m (c :: t) z) : SeesApart m t z := h.of_append (p := [c])

/-- What is found at the beginning of both texts is found in the first alone, with the second left over. -/
theorem at_head (h : SeesApart m (c :: t) z) :
    m (c :: (t ++ z)) = (m (c :: t)).map fun (x, r) => (x, r ++ z) :=
  h [] (c :: t) rfl (List.cons_ne_nil c t)

/-- What is not found in the first text is not found with the second behind it. -/
theorem at_none (h : SeesApart m (c :: t) z) (hnone : m (c :: t) = none) : m (c :: (t ++ z)) = none := by
  rw [h.at_head, hnone]
  rfl

/-- What is found in the first text is found with the second behind it. -/
theorem at_some (h : SeesApart m (c :: t) z) {x : α} {r : Text} (hfound : m (c :: t) = some (x, r)) :
    m (c :: (t ++ z)) = some (x, r ++ z) := by
  rw [h.at_head, hfound]
  rfl

/-- Behind a match the texts are seen apart as well. -/
theorem behind (hm : ∀ t x r, m t = some (x, r) → ∃ p, t = p ++ r) (h : SeesApart m s z) {x : α} {r : Text}
    (hfound : m s = some (x, r)) : SeesApart m r z := by
  obtain ⟨p, rfl⟩ := hm _ _ _ hfound
  exact h.of_append

/-- Changing what a match gives leaves where it ends. -/
theorem map {β : Type} (h : SeesApart m s z) (f : α → β) :
    SeesApart (fun t => (m t).map fun (x, r) => (f x, r)) s z := by
  intro front kept hs hne
  dsimp only
  rw [h front kept hs hne, Option.map_map, Option.map_map]
  rfl

end SeesApart

/-- **A pass over two texts that are seen apart** is a pass over each. -/
theorem replaceMatches_append_of_apart {m : Matcher} (hm : ∀ t x r, m t = some (x, r) → ∃ p, t = p ++ r)
    {s : Text} (h : SeesApart m s z) :
    replaceMatches m (s ++ z) = replaceMatches m s ++ replaceMatches m z := by
  fun_induction replaceMatches m s with
  | case1 => rfl
  | case2 c t new rest hfound hle ih =>
    have hle' : (rest ++ z).length ≤ (t ++ z).length := by simpa using hle
    rw [List.cons_append, replaceMatches, h.at_some hfound]
    dsimp only
    rw [if_pos hle', ih (h.behind hm hfound), List.append_assoc]
  | case3 c t new rest hfound hle ih =>
    have hle' : ¬ (rest ++ z).length ≤ (t ++ z).length := by simpa using hle
    rw [List.cons_append, replaceMatches, h.at_some hfound]
    dsimp only
    rw [if_neg hle', ih h.tail, List.cons_append]
  | case4 c t hnone ih =>
    rw [List.cons_append, replaceMatches, h.at_none hnone]
    dsimp only
    rw [ih h.tail, List.cons_append]

/-- **The matches in two texts that are seen apart** are those in each. -/
theorem allMatches_append_of_apart {m : Text → Option (α × Text)}
    (hm : ∀ t x r, m t = some (x, r) → ∃ p, t = p ++ r) {s : Text} (h : SeesApart m s z) :
    allMatches m (s ++ z) = allMatches m s ++ allMatches m z := by
  fun_induction allMatches m s with
  | case1 => rfl
  | case2 c t x rest hfound hle ih =>
    have hle' : (rest ++ z).length ≤ (t ++ z).length := by simpa using hle
    rw [List.cons_append, allMatches, h.at_some hfound]
    dsimp only
    rw [if_pos hle', ih (h.behind hm hfound), List.cons_append]
  | case3 c t x rest hfound hle ih =>
    have hle' : ¬ (rest ++ z).length ≤ (t ++ z).length := by simpa using hle
    rw [List.cons_append, allMatches, h.at_some hfound]
    dsimp only
    rw [if_neg hle', ih h.tail]
  | case4 c t hnone ih =>
    rw [List.cons_append, allMatches, h.at_none hnone]
    exact ih h.tail

/-- **What is made of two texts that are seen apart** is made of each, the first one first. -/
theorem replaceFallibly_append_of_apart {ε : Type} {m : Text → Option (Except ε Text × Text)}
    (hm : ∀ t x r, m t = some (x, r) → ∃ p, t = p ++ r) {s : Text} (h : SeesApart m s z) :
    replaceFallibly m (s ++ z) =
      (replaceFallibly m s).bind fun out => (replaceFallibly m z).map (out ++ ·) := by
  have hchar (c : Char) (made : Except ε Text) :
      (made.bind fun out => (replaceFallibly m z).map (out ++ ·)).map (c :: ·) =
        (made.map (c :: ·)).bind fun out => (replaceFallibly m z).map (out ++ ·) := by
    cases made <;> cases replaceFallibly m z <;> rfl
  fun_induction replaceFallibly m s with
  | case1 => cases hz : replaceFallibly m z <;> simp [hz, Except.bind, Except.map]
  | case2 c t new rest hfound hle ih =>
    have hle' : (rest ++ z).length ≤ (t ++ z).length := by simpa using hle
    rw [List.cons_append, replaceFallibly, h.at_some hfound]
    dsimp only
    rw [if_pos hle', ih (h.behind hm hfound)]
    cases new <;> cases replaceFallibly m rest <;> cases replaceFallibly m z <;>
      simp [bind, Except.bind, Except.map, pure, Except.pure]
  | case3 c t new rest hfound hle ih =>
    have hle' : ¬ (rest ++ z).length ≤ (t ++ z).length := by simpa using hle
    rw [List.cons_append, replaceFallibly, h.at_some hfound]
    dsimp only
    rw [if_neg hle', ih h.tail, hchar]
  | case4 c t hnone ih =>
    rw [List.cons_append, replaceFallibly, h.at_none hnone]
    dsimp only
    rw [ih h.tail, hchar]

/-- What is made of two texts without a fault ends with what is made of the second. -/
theorem replaceFallibly_append {ε : Type} {m : Text → Option (Except ε Text × Text)}
    (hm : StaysBefore m z) {t out : Text} (h : replaceFallibly m (t ++ z) = .ok out) :
    ∃ t' z', replaceFallibly m z = .ok z' ∧ out = t' ++ z' := by
  induction hlen : t.length using Nat.strongRecOn generalizing t out with
  | _ n ih =>
    subst hlen
    cases t with
    | nil => exact ⟨[], out, h, rfl⟩
    | cons c t =>
      have hchar (hc : (replaceFallibly m (t ++ z)).map (c :: ·) = .ok out) :
          ∃ t' z', replaceFallibly m z = .ok z' ∧ out = t' ++ z' := by
        obtain ⟨out', hr, rfl⟩ := Fallible.map_eq_ok.1 hc
        obtain ⟨t', z', hz, rfl⟩ := ih t.length (by simp) hr rfl
        exact ⟨c :: t', z', hz, rfl⟩
      rw [List.cons_append, replaceFallibly] at h
      split at h
      · next new rest hmatch =>
        obtain ⟨v, rfl⟩ := hm (c :: t) (by simp) _ _ hmatch
        split at h
        · next hle =>
          obtain ⟨new', -, h⟩ := Fallible.bind_eq_ok.1 h
          obtain ⟨out', hr, h⟩ := Fallible.bind_eq_ok.1 h
          obtain ⟨t', z', hz, rfl⟩ := ih v.length (by simp at hle ⊢; omega) hr rfl
          refine ⟨new' ++ t', z', hz, ?_⟩
          rw [List.append_assoc]
          exact (Except.ok.inj h).symm
        · exact hchar h
      · exact hchar h

end Text
end ThemeSheet
