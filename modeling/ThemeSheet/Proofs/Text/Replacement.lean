/-
# One pass of replacements

What one pass of `replaceMatches` does at the beginning of a text, and the
replacement of several needles in one pass: at every place the first needle of the
list that occurs there, in any letter case, gives way to the text beside it.
-/

import Mathlib.Data.List.Basic
import ThemeSheet.Proofs.Text.AnyCase

namespace ThemeSheet
namespace Text

open Unicode

/-! ### The beginning of a text -/

/-- A character at which nothing matches stays. -/
theorem replaceMatches_of_none {m : Matcher} {c : Char} {t : Text} (h : m (c :: t) = none) :
    replaceMatches m (c :: t) = c :: replaceMatches m t := by
  rw [replaceMatches, h]

/-- What is put in for a match comes first, and the reading goes on behind the match. -/
theorem replaceMatches_of_some {m : Matcher} {p t new : Text} (hp : p ≠ [])
    (h : m (p ++ t) = some (new, t)) : replaceMatches m (p ++ t) = new ++ replaceMatches m t := by
  obtain ⟨c, p, rfl⟩ := List.exists_cons_of_ne_nil hp
  rw [List.cons_append] at h ⊢
  rw [replaceMatches, h]
  exact if_pos (by simp)

/-- Where the matcher applies at no character of a text, the pass leaves the text alone. -/
theorem replaceMatches_skip {m : Matcher} {p t : Text} (h : ∀ a ∈ p, ∀ u, m (a :: u) = none) :
    replaceMatches m (p ++ t) = p ++ replaceMatches m t := by
  induction p with
  | nil => rfl
  | cons a p ih =>
    rw [List.cons_append, replaceMatches_of_none (h a (List.mem_cons_self ..) _),
      ih fun b hb => h b (List.mem_cons_of_mem _ hb)]
    rfl

/-- Where a matcher applies nowhere in a text, the pass leaves the text alone. -/
theorem replaceMatches_skip_of_none {m : Matcher} {w t : Text}
    (h : ∀ front back, w = front ++ back → back ≠ [] → m (back ++ t) = none) :
    replaceMatches m (w ++ t) = w ++ replaceMatches m t := by
  induction w with
  | nil => rfl
  | cons c w ih =>
    have hnone : m (c :: (w ++ t)) = none := h [] (c :: w) rfl (by simp)
    rw [List.cons_append, replaceMatches_of_none hnone,
      ih fun front back hw hb => h (c :: front) back (by rw [hw]; rfl) hb]
    rfl

/-- Where a matcher applies at no place of a text, the pass leaves it as it is. -/
theorem replaceMatches_eq_self {m : Matcher} {t : Text} (h : ∀ s, s ≠ [] → s <:+ t → m s = none) :
    replaceMatches m t = t := by
  have hskip := replaceMatches_skip_of_none (m := m) (w := t) (t := []) fun front back ht hne =>
    (List.append_nil back).symm ▸ h back hne ⟨front, ht.symm⟩
  rwa [List.append_nil, replaceMatches, List.append_nil] at hskip

/-- **Where a matcher applies at no place of a text, nothing is made of it.** -/
theorem replaceFallibly_skip {ε : Type} {m : Text → Option (Except ε Text × Text)} {p z : Text}
    (h : ∀ s, s ≠ [] → s <:+ p → m (s ++ z) = none) :
    replaceFallibly m (p ++ z) = (replaceFallibly m z).map (p ++ ·) := by
  induction p with
  | nil =>
    rw [List.nil_append]
    cases replaceFallibly m z <;> rfl
  | cons c p ih =>
    have hc : m (c :: (p ++ z)) = none := h (c :: p) (by simp) (List.suffix_refl _)
    rw [List.cons_append, replaceFallibly, hc,
      ih fun s hs hsp => h s hs (hsp.trans (List.suffix_cons ..))]
    cases replaceFallibly m z <;> rfl

/-- A text in which nothing matches stays. -/
theorem replaceFallibly_of_none {ε : Type} {m : Text → Option (Except ε Text × Text)} {t : Text}
    (h : ∀ s, s ≠ [] → s <:+ t → m s = none) : replaceFallibly m t = .ok t := by
  have hskip := replaceFallibly_skip (p := t) (z := []) fun s hs ht => by simpa using h s hs ht
  rw [List.append_nil] at hskip
  rw [hskip]
  simp [replaceFallibly, Except.map]

/-- What is put in for a match comes first if it can be had, and the reading goes on behind the match. -/
theorem replaceFallibly_of_some {ε : Type} {m : Text → Option (Except ε Text × Text)} {p t : Text}
    {new : Except ε Text} (hp : p ≠ []) (h : m (p ++ t) = some (new, t)) :
    replaceFallibly m (p ++ t) = new >>= fun x => (replaceFallibly m t).map (x ++ ·) := by
  obtain ⟨c, p, rfl⟩ := List.exists_cons_of_ne_nil hp
  rw [List.cons_append] at h ⊢
  rw [replaceFallibly, h]
  dsimp only
  rw [if_pos (by simp)]
  cases new with
  | error e => rfl
  | ok x => cases replaceFallibly m t <;> rfl

/-- Every match that is found is one at some place of the text, where the matcher leaves an end of
what it looks at. -/
theorem mem_allMatches {α : Type} {m : Text → Option (α × Text)}
    (hm : ∀ u x r, m u = some (x, r) → ∃ p, u = p ++ r) {t : Text} {found : α}
    (h : found ∈ allMatches m t) : ∃ before u rest, t = before ++ u ∧ m u = some (found, rest) := by
  fun_induction allMatches m t with
  | case1 => simp at h
  | case2 c t found' rest he hlen ih =>
    rcases List.mem_cons.1 h with rfl | h
    · exact ⟨[], c :: t, rest, rfl, he⟩
    · obtain ⟨before, u, r, rfl, hu⟩ := ih h
      obtain ⟨p, hp⟩ := hm _ _ _ he
      exact ⟨p ++ before, u, r, by rw [hp, List.append_assoc], hu⟩
  | case3 c t found' rest he hlen ih =>
    obtain ⟨before, u, r, rfl, hu⟩ := ih h
    exact ⟨c :: before, u, r, rfl, hu⟩
  | case4 c t he ih =>
    obtain ⟨before, u, r, rfl, hu⟩ := ih h
    exact ⟨c :: before, u, r, rfl, hu⟩

/-! ### One needle -/

/-- A character at which the needle does not begin stays. -/
theorem replaceAll_cons {needle new t : Text} {c : Char} (h : dropPrefix? needle (c :: t) = none) :
    replaceAll needle new (c :: t) = c :: replaceAll needle new t :=
  replaceMatches_of_none (by rw [h]; rfl)

/-- The needle at the beginning gives way. -/
theorem replaceAll_whole {needle : Text} (new t : Text) (h : needle ≠ []) :
    replaceAll needle new (needle ++ t) = new ++ replaceAll needle new t :=
  replaceMatches_of_some h (by rw [dropPrefix?_eq_some.2 rfl]; rfl)

/-- **What a pass makes of a text** is built up from the end: at every place the needle gives way, or a
character stays. -/
theorem replaceAll_induction {needle new : Text} (hn : needle ≠ []) {p : Text → Text → Prop} (nil : p [] [])
    (found : ∀ t, p t (replaceAll needle new t) → p (needle ++ t) (new ++ replaceAll needle new t))
    (plain : ∀ c t, dropPrefix? needle (c :: t) = none → p t (replaceAll needle new t) →
      p (c :: t) (c :: replaceAll needle new t)) (t : Text) : p t (replaceAll needle new t) := by
  induction hlen : t.length using Nat.strongRecOn generalizing t with
  | _ n ih =>
    subst hlen
    cases t with
    | nil => simpa [replaceAll, replaceMatches] using nil
    | cons c t =>
      cases hd : dropPrefix? needle (c :: t) with
      | none =>
        rw [replaceAll_cons hd]
        exact plain c t hd (ih t.length (by simp) t rfl)
      | some rest =>
        have he := dropPrefix?_eq_some.1 hd
        have hlen := congrArg List.length he
        have hpos := List.length_pos_iff.2 hn
        rw [he, replaceAll_whole new rest hn]
        exact found rest (ih rest.length (by simp at hlen ⊢; omega) rest rfl)

/-- A pass leaves a text alone in which the needle does not occur. -/
theorem replaceAll_eq_self {needle new t : Text} (h : ¬ needle <:+: t) : replaceAll needle new t = t := by
  induction t with
  | nil => simp [replaceAll, replaceMatches]
  | cons c t ih =>
    have hnone : dropPrefix? needle (c :: t) = none := by
      refine Option.eq_none_iff_forall_ne_some.2 fun rest hd => h ⟨[], rest, ?_⟩
      rw [List.nil_append, dropPrefix?_eq_some.1 hd]
    rw [replaceAll_cons hnone, ih fun hi => h (List.infix_cons hi)]

/-- Where a pass leaves letters in front that do not hold the first one of what it puts in, they stood
there. -/
theorem replaceAll_prefix {needle new w t : Text} {c : Char} (hn : needle ≠ []) (hw : c ∉ w)
    (h : w <+: replaceAll needle (c :: new) t) : w <+: t := by
  induction w generalizing t with
  | nil => exact List.nil_prefix
  | cons x w ih =>
    rw [List.mem_cons, not_or] at hw
    cases t with
    | nil => simp [replaceAll, replaceMatches] at h
    | cons d t =>
      cases hd : dropPrefix? needle (d :: t) with
      | some rest =>
        rw [dropPrefix?_eq_some.1 hd, replaceAll_whole _ _ hn] at h
        exact absurd (List.cons_prefix_cons.1 h).1.symm hw.1
      | none =>
        rw [replaceAll_cons hd] at h
        obtain ⟨rfl, htail⟩ := List.cons_prefix_cons.1 h
        exact List.cons_prefix_cons.2 ⟨rfl, ih hw.2 htail⟩

/-- A pass finds nothing in a text in which the needle begins nowhere, whatever follows. -/
theorem replaceAll_skip {needle new w t : Text}
    (h : ∀ front back, w = front ++ back → back ≠ [] → dropPrefix? needle (back ++ t) = none) :
    replaceAll needle new (w ++ t) = w ++ replaceAll needle new t :=
  replaceMatches_skip_of_none fun front back hw hb => by rw [h front back hw hb]; rfl

/-! ### Several needles, one after another -/

/-- The passes for several pairs, one after another. -/
def passes (pairs : List (Text × Text)) (t : Text) : Text := pairs.foldl (fun t e => replaceAll e.1 e.2 t) t

/-- The passes of two lists are those of the one, then those of the other. -/
theorem passes_append (first rest : List (Text × Text)) (t : Text) :
    passes (first ++ rest) t = passes rest (passes first t) := List.foldl_append

/-- **Two passes may change places** if either one passes over the needle of the other and over what the
other puts in, and what they put in begins with a character that stands in neither needle. -/
theorem replaceAll_comm {p q a b : Text} {x : Char} (hp : p ≠ []) (hq : q ≠ []) (hxp : x ∉ p) (hxq : x ∉ q)
    (hpq : ∀ t, replaceAll p (x :: a) (q ++ t) = q ++ replaceAll p (x :: a) t)
    (hqp : ∀ t, replaceAll q (x :: b) (p ++ t) = p ++ replaceAll q (x :: b) t)
    (hpb : ∀ t, replaceAll p (x :: a) (x :: b ++ t) = x :: b ++ replaceAll p (x :: a) t)
    (hqa : ∀ t, replaceAll q (x :: b) (x :: a ++ t) = x :: a ++ replaceAll q (x :: b) t) (t : Text) :
    replaceAll p (x :: a) (replaceAll q (x :: b) t) = replaceAll q (x :: b) (replaceAll p (x :: a) t) := by
  induction hlen : t.length using Nat.strongRecOn generalizing t with
  | _ n ih =>
    subst hlen
    have hshorter {w u : Text} (hw : w ≠ []) (ht : t = w ++ u) : u.length < t.length := by
      have := List.length_pos_iff.2 hw
      rw [ht, List.length_append]
      omega
    by_cases hp' : p <+: t
    · obtain ⟨u, rfl⟩ := hp'
      rw [hqp, replaceAll_whole _ _ hp, replaceAll_whole _ _ hp, hqa, ih _ (hshorter hp rfl) u rfl]
    by_cases hq' : q <+: t
    · obtain ⟨u, rfl⟩ := hq'
      rw [hpq, replaceAll_whole _ _ hq, replaceAll_whole _ _ hq, hpb, ih _ (hshorter hq rfl) u rfl]
    cases t with
    | nil => simp [replaceAll, replaceMatches]
    | cons c t =>
      -- where neither needle stands, none stands after the other pass
      have hnone {w : Text} (h : ¬ w <+: c :: t) : dropPrefix? w (c :: t) = none :=
        Option.eq_none_iff_forall_ne_some.2 fun r hr => h ⟨r, (dropPrefix?_eq_some.1 hr).symm⟩
      have hafter {w v d : Text} (hv : v ≠ []) (hxw : x ∉ w) (hw : ¬ w <+: c :: t) (hv' : ¬ v <+: c :: t) :
          dropPrefix? w (c :: replaceAll v (x :: d) t) = none := by
        refine Option.eq_none_iff_forall_ne_some.2 fun r hr => hw ?_
        have hprefix : w <+: replaceAll v (x :: d) (c :: t) := by
          rw [replaceAll_cons (hnone hv')]
          exact ⟨r, (dropPrefix?_eq_some.1 hr).symm⟩
        exact replaceAll_prefix hv hxw hprefix
      rw [replaceAll_cons (hnone hp'), replaceAll_cons (hnone hq'), replaceAll_cons (hafter hq hxp hp' hq'),
        replaceAll_cons (hafter hp hxq hq' hp'), ih t.length (by simp) t rfl]

/-! ### Several needles at once -/

/-- Matches the first needle of the list that begins the text, in any letter case. -/
def firstOf (pairs : List (Text × Text)) : Matcher := fun t =>
  pairs.findSome? fun (needle, new) => (dropPrefixAnyCase? needle t).map (new, ·)

/-- One pass in which every occurrence of a needle, in any letter case, gives way to the text
beside the first needle that occurs there. -/
def replaceEvery (pairs : List (Text × Text)) (t : Text) : Text := replaceMatches (firstOf pairs) t

/-- A character at which no needle begins stays. -/
theorem replaceEvery_of_none {pairs : List (Text × Text)} {c : Char} {t : Text}
    (h : firstOf pairs (c :: t) = none) : replaceEvery pairs (c :: t) = c :: replaceEvery pairs t :=
  replaceMatches_of_none h

/-- What is matched is a needle of the list in some letter case. -/
theorem firstOf_eq_some {pairs : List (Text × Text)} {t new rest : Text}
    (h : firstOf pairs t = some (new, rest)) :
    ∃ needle q, (needle, new) ∈ pairs ∧ q.map foldCase = needle.map foldCase ∧ t = q ++ rest := by
  obtain ⟨l₁, ⟨needle, new'⟩, l₂, rfl, hp, -⟩ := List.findSome?_eq_some_iff.1 h
  obtain ⟨r, hr, he⟩ := Option.map_eq_some_iff.1 hp
  obtain ⟨rfl, rfl⟩ := Prod.mk.inj he
  obtain ⟨q, hq, rfl⟩ := dropPrefixAnyCase?_eq_some.1 hr
  exact ⟨needle, q, by simp, hq, rfl⟩

/-- Nothing is matched exactly if the text begins with none of the needles. -/
theorem firstOf_eq_none {pairs : List (Text × Text)} {t : Text} :
    firstOf pairs t = none ↔ ∀ p ∈ pairs, beginsAnyCase p.1 t = false := by
  simp [firstOf, beginsAnyCase]

/-- A further needle is matched where none before it is. -/
theorem firstOf_append_single {pairs : List (Text × Text)} {needle new t : Text} :
    firstOf (pairs ++ [(needle, new)]) t =
      (firstOf pairs t).or ((dropPrefixAnyCase? needle t).map (new, ·)) := by
  simp [firstOf, List.findSome?_append]

/-- Replacing one needle is a pass with one pair. -/
theorem replaceAnyCase_eq (needle new t : Text) :
    replaceAnyCase needle new t = replaceEvery [(needle, new)] t := by
  have : (fun s => (dropPrefixAnyCase? needle s).map (new, ·)) = firstOf [(needle, new)] := by
    funext s
    cases h : dropPrefixAnyCase? needle s <;> simp [firstOf, h]
  rw [replaceAnyCase, replaceEvery, this]

/-- A character at which the color does not begin, in any letter case, stays. -/
theorem replaceAnyCase_cons {color new t : Text} {c : Char} (h : beginsAnyCase color (c :: t) = false) :
    replaceAnyCase color new (c :: t) = c :: replaceAnyCase color new t := by
  rw [replaceAnyCase_eq, replaceAnyCase_eq]
  exact replaceEvery_of_none (firstOf_eq_none.2 fun p hm => List.mem_singleton.1 hm ▸ h)

/-- A pass without pairs changes nothing. -/
theorem replaceEvery_nil (t : Text) : replaceEvery [] t = t := by
  have := replaceMatches_skip (m := firstOf []) (p := t) (t := []) fun _ _ _ => rfl
  simpa [replaceEvery, replaceMatches] using this

end Text
end ThemeSheet
