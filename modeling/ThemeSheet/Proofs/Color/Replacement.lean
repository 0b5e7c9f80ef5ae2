/-
# Replacing colors one after another

A color is a number sign and six hexadecimal digits.  Replacing several colors in as
many passes, each over the result of the last, is the same as replacing them all in
one pass: no text that is put in holds a number sign, so none holds a color, and
none continues the digits in front of it into a color.  The one exception is a text
that begins with a single digit (`color(…)` does) behind a number sign and five
digits, which is why no color may stand directly behind a digit.
-/

import Mathlib.Data.List.Induction
import ThemeSheet.Proofs.Text.Replacement

namespace ThemeSheet
namespace Color

open Text Unicode

/-- Is the text a number sign and six hexadecimal digits, in any letter case? -/
def isSixDigit : Text → Bool
  | '#' :: ds => ds.length == 6 && ds.all isHexDigit
  | _ => false

/-- A color with six digits is a number sign and six hexadecimal digits. -/
theorem isSixDigit_iff {t : Text} : isSixDigit t = true ↔
    ∃ ds, t = '#' :: ds ∧ ds.length = 6 ∧ ∀ d ∈ ds, isHexDigit d = true := by
  unfold isSixDigit
  split
  · next ds => simp
  · next h => simp only [Bool.false_eq_true, false_iff]; rintro ⟨ds, rfl, -⟩; exact h ds rfl

/-- **A text that is a color but for case is a color.** -/
theorem isSixDigit_of_sameText {color q : Text} (hc : isSixDigit color = true)
    (hq : q.map foldCase = color.map foldCase) : isSixDigit q = true := by
  obtain ⟨ds, rfl, hlen, hds⟩ := isSixDigit_iff.1 hc
  cases q with
  | nil => simp at hq
  | cons c q =>
    simp only [List.map_cons, List.cons.injEq] at hq
    obtain rfl := eq_hash_of_sameLetter (sameLetter_iff.2 hq.1.symm)
    have hl : q.length = 6 := by simpa [hlen] using congrArg List.length hq.2
    exact isSixDigit_iff.2 ⟨q, rfl, hl, isHexDigit_of_sameText hds hq.2⟩

/-- **What begins with a color begins with a number sign and six digits.** -/
theorem dropPrefixAnyCase?_color {color t r : Text} (hc : isSixDigit color = true)
    (h : dropPrefixAnyCase? color t = some r) :
    ∃ ds, t = '#' :: ds ++ r ∧ ds.length = 6 ∧ ∀ d ∈ ds, isHexDigit d = true := by
  obtain ⟨q, hq, rfl⟩ := dropPrefixAnyCase?_eq_some.1 h
  obtain ⟨ds, rfl, hl, hds⟩ := isSixDigit_iff.1 (isSixDigit_of_sameText hc hq)
  exact ⟨ds, rfl, hl, hds⟩

/-- A color begins with a number sign only. -/
theorem beginsAnyCase_color_cons {color t : Text} {c : Char} (hc : isSixDigit color = true)
    (h : c ≠ '#') : beginsAnyCase color (c :: t) = false := by
  by_contra hb
  rw [Bool.not_eq_false, beginsAnyCase, Option.isSome_iff_exists] at hb
  obtain ⟨r, hr⟩ := hb
  obtain ⟨ds, ht, -⟩ := dropPrefixAnyCase?_color hc hr
  exact h (List.cons.inj ht).1

/-- No color begins in a text without a number sign. -/
theorem occursAnyCase_skip {color p t : Text} (hc : isSixDigit color = true) (h : '#' ∉ p) :
    occursAnyCase color (p ++ t) = occursAnyCase color t := by
  induction p with
  | nil => rfl
  | cons a p ih =>
    rw [List.cons_append, occursAnyCase,
      beginsAnyCase_color_cons hc (fun ha => h (ha ▸ List.mem_cons_self ..)),
      Bool.false_or, ih fun hm => h (List.mem_cons_of_mem _ hm)]

/-- **A text that may stand for a color:** it holds no number sign, and of its first two characters one
is no hexadecimal digit. -/
structure Inert (new : Text) : Prop where
  no_hash : '#' ∉ new
  breaks : ∃ front c back, new = front ++ c :: back ∧ front.length ≤ 1 ∧ isHexDigit c = false

/-- No color of the list stands directly behind a hexadecimal digit. -/
def Detached (colors : List Text) (t : Text) : Prop :=
  ∀ color ∈ colors, ∀ before x rest, t = before ++ x :: rest →
    beginsAnyCase color rest = true → isHexDigit x = false

/-- The end of a text in which colors are detached is one too. -/
theorem Detached.tail {colors : List Text} {p t : Text} (h : Detached colors (p ++ t)) :
    Detached colors t :=
  fun color hc before x rest ht => h color hc (p ++ before) x rest (by rw [ht, List.append_assoc])

/-- Does no color of the list stand directly behind a hexadecimal digit? -/
def isDetached (colors : List Text) : Text → Bool
  | [] => true
  | x :: rest => !(isHexDigit x && colors.any (beginsAnyCase · rest)) && isDetached colors rest

/-- The check tells whether colors are detached. -/
theorem isDetached_iff {colors : List Text} {t : Text} :
    isDetached colors t = true ↔ Detached colors t := by
  induction t with
  | nil => simp [isDetached, Detached]
  | cons x t ih =>
    rw [isDetached, Bool.and_eq_true, ih, Bool.not_eq_true', Bool.and_eq_false_iff, List.any_eq_false]
    constructor
    · rintro ⟨hx, ht⟩ color hc before y rest he hb
      cases before with
      | nil =>
        obtain ⟨rfl, rfl⟩ := List.cons.inj he
        exact hx.resolve_right fun hn => hn color hc hb
      | cons z before => exact ht color hc before y rest (List.cons.inj he).2 hb
    · intro h
      refine ⟨?_, h.tail (p := [x])⟩
      by_cases hx : isHexDigit x = true
      · exact .inr fun color hc hb => absurd (h color hc [] x t rfl hb) (by simp [hx])
      · exact .inl (by simpa using hx)

/-- Whether colors are detached can be checked. -/
instance (colors : List Text) (t : Text) : Decidable (Detached colors t) :=
  decidable_of_iff _ isDetached_iff

/-- Colors and the texts that stand for them. -/
structure Colored (pairs : List (Text × Text)) : Prop where
  color : ∀ p ∈ pairs, isSixDigit p.1 = true
  inert : ∀ p ∈ pairs, Inert p.2

namespace Colored

variable {pairs : List (Text × Text)}

/-- No color begins with another character than a number sign. -/
theorem firstOf_cons_of_ne (hp : Colored pairs) {c : Char} (h : c ≠ '#') (t : Text) :
    firstOf pairs (c :: t) = none :=
  firstOf_eq_none.2 fun p hm => beginsAnyCase_color_cons (hp.color p hm) h

/-- What is matched is a number sign with six digits, and an inert text is put in for it. -/
theorem firstOf_hash (hp : Colored pairs) {t new rest : Text} (h : firstOf pairs t = some (new, rest)) :
    Inert new ∧ ∃ ds, t = '#' :: ds ++ rest ∧ ds.length = 6 ∧ ∀ d ∈ ds, isHexDigit d = true := by
  obtain ⟨color, q, hm, hq, rfl⟩ := firstOf_eq_some h
  obtain ⟨ds, rfl, hl, hds⟩ := isSixDigit_iff.1 (isSixDigit_of_sameText (hp.color _ hm) hq)
  exact ⟨hp.inert _ hm, ds, rfl, hl, hds⟩

/-- A text without a number sign is left alone. -/
theorem replaceEvery_skip (hp : Colored pairs) {p t : Text} (h : '#' ∉ p) :
    replaceEvery pairs (p ++ t) = p ++ replaceEvery pairs t :=
  replaceMatches_skip fun _ ha u => hp.firstOf_cons_of_ne (fun hc => h (hc ▸ ha)) u

/-- The text that stands for a color at the beginning comes first, and the pass goes on behind the color. -/
theorem replaceEvery_of_some (hp : Colored pairs) {t new rest : Text}
    (h : firstOf pairs t = some (new, rest)) :
    replaceEvery pairs t = new ++ replaceEvery pairs rest := by
  obtain ⟨-, ds, rfl, -⟩ := hp.firstOf_hash h
  exact replaceMatches_of_some (List.cons_ne_nil _ _) h

/-- **Induction along a pass:** at every place a color gives way, or a character stays. -/
theorem pass_induction (hp : Colored pairs) {motive : Text → Prop} (nil : motive [])
    (found : ∀ new ds rest, firstOf pairs ('#' :: ds ++ rest) = some (new, rest) → Inert new →
      (∀ d ∈ ds, isHexDigit d = true) → motive rest → motive ('#' :: ds ++ rest))
    (plain : ∀ c t, firstOf pairs (c :: t) = none → motive t → motive (c :: t)) (t : Text) : motive t := by
  induction hlen : t.length using Nat.strongRecOn generalizing t with
  | _ n ih =>
    subst hlen
    cases t with
    | nil => exact nil
    | cons c t =>
      cases hf : firstOf pairs (c :: t) with
      | none => exact plain c t hf (ih t.length (by simp) t rfl)
      | some m =>
        obtain ⟨new, rest⟩ := m
        obtain ⟨hinert, ds, he, -, hds⟩ := hp.firstOf_hash hf
        have hshort : rest.length < (c :: t).length := by
          rw [he, List.length_append, List.length_cons]
          omega
        rw [he] at hf ⊢
        exact found new ds rest hf hinert hds (ih rest.length hshort rest rfl)

/-- Digits behind a digit in the result are digits of the text itself: between them nothing was put
in. -/
theorem digits_of_replaceEvery_behind {x : Char} {t q r : Text} (hx : isHexDigit x = true)
    (hq : ∀ d ∈ q, isHexDigit d = true) (ht : Detached (pairs.map Prod.fst) (x :: t))
    (h : replaceEvery pairs t = q ++ r) : ∃ u, t = q ++ u ∧ r = replaceEvery pairs u := by
  induction q generalizing x t with
  | nil => exact ⟨t, rfl, by rw [h]; rfl⟩
  | cons y q ih =>
    cases t with
    | nil => simp [replaceEvery, replaceMatches] at h
    | cons d t =>
      have hn : firstOf pairs (d :: t) = none := by
        refine firstOf_eq_none.2 fun p hm => ?_
        by_contra hb
        have := ht p.1 (List.mem_map_of_mem hm) [] x (d :: t) rfl (by simpa using hb)
        rw [hx] at this
        exact Bool.noConfusion this
      rw [replaceEvery_of_none hn, List.cons_append] at h
      obtain ⟨rfl, hrest⟩ := List.cons.inj h
      obtain ⟨u, rfl, hr⟩ :=
        ih (hq d (List.mem_cons_self ..)) (fun e he => hq e (List.mem_cons_of_mem _ he))
        (ht.tail (p := [x])) hrest
      exact ⟨u, rfl, hr⟩

/-- **No color is made:** two or more digits in front of the result are digits of the text itself. -/
theorem digits_of_replaceEvery (hp : Colored pairs) {t q r : Text} (hl : 2 ≤ q.length)
    (hq : ∀ d ∈ q, isHexDigit d = true) (ht : Detached (pairs.map Prod.fst) t)
    (h : replaceEvery pairs t = q ++ r) : ∃ u, t = q ++ u ∧ r = replaceEvery pairs u := by
  cases hf : firstOf pairs t with
  | some m =>
    -- the text put in has a character among its first two that is no digit
    obtain ⟨new, rest⟩ := m
    rw [hp.replaceEvery_of_some hf] at h
    obtain ⟨front, c, back, rfl, hfront, hc⟩ := (hp.firstOf_hash hf).1.breaks
    have hget : q[front.length]? = some c := by
      have := congrArg (·[front.length]?) h
      simp only [List.append_assoc, List.cons_append] at this
      rw [List.getElem?_append_right (Nat.le_refl _), List.getElem?_append_left (by omega)] at this
      simpa using this.symm
    have := hq c (List.mem_of_getElem? hget)
    rw [hc] at this
    exact Bool.noConfusion this
  | none =>
    obtain ⟨y, q, rfl⟩ := List.exists_cons_of_length_pos (show 0 < q.length by omega)
    cases t with
    | nil => simp [replaceEvery, replaceMatches] at h
    | cons d t =>
      rw [replaceEvery_of_none hf, List.cons_append] at h
      obtain ⟨rfl, hrest⟩ := List.cons.inj h
      obtain ⟨u, rfl, hr⟩ := digits_of_replaceEvery_behind (hq d (List.mem_cons_self ..))
        (fun e he => hq e (List.mem_cons_of_mem _ he)) ht hrest
      exact ⟨u, rfl, hr⟩

/-- **A color in front of the result of a pass is a color in front of the text itself.** -/
theorem begins_of_replaceEvery (hp : Colored pairs) {color t : Text} {c : Char}
    (hc : isSixDigit color = true) (ht : Detached (pairs.map Prod.fst) t)
    (h : beginsAnyCase color (c :: replaceEvery pairs t) = true) :
    beginsAnyCase color (c :: t) = true := by
  obtain ⟨q, r, hq, he⟩ := beginsAnyCase_iff.1 h
  obtain ⟨ds, rfl, hl, hds⟩ := isSixDigit_iff.1 (isSixDigit_of_sameText hc hq)
  obtain ⟨rfl, hrest⟩ := List.cons.inj he
  obtain ⟨u, rfl, -⟩ := hp.digits_of_replaceEvery (by omega) hds ht hrest
  exact beginsAnyCase_iff.2 ⟨_, u, hq, rfl⟩

/-- A further color and an inert text for it can be added. -/
theorem append (hp : Colored pairs) {color new : Text} (hc : isSixDigit color = true) (hn : Inert new) :
    Colored (pairs ++ [(color, new)]) where
  color p hm := by
    rcases List.mem_append.1 hm with h | h
    · exact hp.color p h
    · rw [List.mem_singleton.1 h]; exact hc
  inert p hm := by
    rcases List.mem_append.1 hm with h | h
    · exact hp.inert p h
    · rw [List.mem_singleton.1 h]; exact hn

/-- One color and an inert text for it are colors and their texts. -/
theorem single {color new : Text} (hc : isSixDigit color = true) (hn : Inert new) :
    Colored [(color, new)] :=
  (show Colored [] from ⟨by simp, by simp⟩).append hc hn

/-- **One more pass is one more color in the same pass.** -/
theorem replaceAnyCase_replaceEvery (hp : Colored pairs) {color new : Text}
    (hc : isSixDigit color = true) (hn : Inert new) {t : Text}
    (ht : Detached (pairs.map Prod.fst) t) :
    replaceAnyCase color new (replaceEvery pairs t) = replaceEvery (pairs ++ [(color, new)]) t := by
  have hone := single hc hn
  have hall := hp.append hc hn
  rw [replaceAnyCase_eq]
  induction t using hall.pass_induction with
  | nil => simp [replaceEvery, replaceMatches]
  | found put ds rest hf hput hds ih =>
    have hrest := ih ht.tail
    rw [hall.replaceEvery_of_some hf]
    rw [firstOf_append_single] at hf
    cases hearlier : firstOf pairs ('#' :: ds ++ rest) with
    | some m =>
      -- an earlier color stands here: what is put in holds no number sign
      rw [hearlier, Option.some_or] at hf
      obtain rfl := Option.some.inj hf
      rw [hp.replaceEvery_of_some hearlier, hone.replaceEvery_skip hput.no_hash, hrest]
    | none =>
      -- the color itself stands here, and the earlier passes have left it alone
      rw [hearlier, Option.none_or] at hf
      obtain ⟨r, hr, he⟩ := Option.map_eq_some_iff.1 hf
      obtain ⟨rfl, rfl⟩ := Prod.mk.inj he
      obtain ⟨q, hq, he⟩ := dropPrefixAnyCase?_eq_some.1 hr
      obtain rfl := List.append_cancel_right he
      have hno : '#' ∉ ds := fun hm => absurd (hds _ hm) (by decide)
      have hthis : firstOf [(color, new)] ('#' :: (ds ++ replaceEvery pairs r)) =
          some (new, replaceEvery pairs r) := by
        have hdrop : dropPrefixAnyCase? color ('#' :: (ds ++ replaceEvery pairs r)) = some (replaceEvery pairs r) :=
          dropPrefixAnyCase?_eq_some.2 ⟨'#' :: ds, hq, rfl⟩
        simp only [firstOf, List.findSome?_cons, hdrop, Option.map_some]
      rw [List.cons_append] at hearlier ⊢
      rw [replaceEvery_of_none hearlier, hp.replaceEvery_skip hno, hone.replaceEvery_of_some hthis, hrest]
  | plain c t hf ih =>
    -- no color stands here, and the text behind has not become one
    have hrest := ih (ht.tail (p := [c]))
    have hnone := firstOf_eq_none.1 hf
    have hearlier : firstOf pairs (c :: t) = none :=
      firstOf_eq_none.2 fun p hm => hnone p (List.mem_append_left _ hm)
    have hthis : firstOf [(color, new)] (c :: replaceEvery pairs t) = none := by
      refine firstOf_eq_none.2 fun p hm => ?_
      rw [List.mem_singleton.1 hm]
      by_contra hb
      have := hp.begins_of_replaceEvery hc (ht.tail (p := [c])) (by simpa using hb)
      rw [hnone (color, new) (by simp)] at this
      exact Bool.noConfusion this
    rw [replaceEvery_of_none hearlier, replaceEvery_of_none hf, replaceEvery_of_none hthis, hrest]

/-- **Passes one after another are one pass.** -/
theorem foldl_replaceAnyCase (hp : Colored pairs) {t : Text} (ht : Detached (pairs.map Prod.fst) t) :
    pairs.foldl (fun u p => replaceAnyCase p.1 p.2 u) t = replaceEvery pairs t := by
  induction pairs using List.reverseRecOn with
  | nil => rw [List.foldl_nil, replaceEvery_nil]
  | append_singleton pairs p ih =>
    have hp' : Colored pairs :=
      ⟨fun q hq => hp.color q (by simp [hq]), fun q hq => hp.inert q (by simp [hq])⟩
    have ht' : Detached (pairs.map Prod.fst) t := fun color hc => ht color (by simp_all)
    rw [List.foldl_append, ih hp' ht', List.foldl_cons, List.foldl_nil]
    exact hp'.replaceAnyCase_replaceEvery (hp.color p (by simp)) (hp.inert p (by simp)) ht'

/-- **After the pass no color of the list is left,** in any letter case. -/
theorem occursAnyCase_replaceEvery (hp : Colored pairs) {color t : Text}
    (hm : color ∈ pairs.map Prod.fst) (ht : Detached (pairs.map Prod.fst) t) :
    occursAnyCase color (replaceEvery pairs t) = false := by
  obtain ⟨p, hp', rfl⟩ := List.mem_map.1 hm
  have hc := hp.color p hp'
  induction t using hp.pass_induction with
  | nil =>
    obtain ⟨ds, he, -⟩ := isSixDigit_iff.1 hc
    simp [replaceEvery, replaceMatches, occursAnyCase, beginsAnyCase, he, dropPrefixAnyCase?]
  | found new ds rest hf hinert hds ih =>
    rw [hp.replaceEvery_of_some hf, occursAnyCase_skip hc hinert.no_hash]
    exact ih ht.tail
  | plain c t hf ih =>
    have hb : beginsAnyCase p.1 (c :: replaceEvery pairs t) = false := by
      by_contra hb
      have := hp.begins_of_replaceEvery hc (ht.tail (p := [c])) (by simpa using hb)
      rw [firstOf_eq_none.1 hf p hp'] at this
      exact Bool.noConfusion this
    rw [replaceEvery_of_none hf, occursAnyCase, hb, Bool.false_or]
    exact ih (ht.tail (p := [c]))

/-- Two colors that begin one text are equal but for case. -/
theorem sameText_of_begins (hp : Colored pairs) {p p' : Text × Text} (hm : p ∈ pairs) (hm' : p' ∈ pairs)
    {t : Text} (h : beginsAnyCase p.1 t = true) (h' : beginsAnyCase p'.1 t = true) :
    p.1.map foldCase = p'.1.map foldCase := by
  obtain ⟨q, r, hq, rfl⟩ := beginsAnyCase_iff.1 h
  obtain ⟨q', r', hq', he⟩ := beginsAnyCase_iff.1 h'
  obtain ⟨ds, rfl, hl, -⟩ := isSixDigit_iff.1 (isSixDigit_of_sameText (hp.color p hm) hq)
  obtain ⟨ds', rfl, hl', -⟩ := isSixDigit_iff.1 (isSixDigit_of_sameText (hp.color p' hm') hq')
  rw [← hq, ← hq', (List.append_inj he (by simp [hl, hl'])).1]

/-- **Where no two colors are equal but for case, their order means nothing.** -/
theorem replaceEvery_perm (hp : Colored pairs) {pairs' : List (Text × Text)} (h : pairs'.Perm pairs)
    (hd : pairs.Pairwise fun p p' => p.1.map foldCase ≠ p'.1.map foldCase) (t : Text) :
    replaceEvery pairs' t = replaceEvery pairs t := by
  suffices hm : firstOf pairs' = firstOf pairs by rw [replaceEvery, replaceEvery, hm]
  funext u
  induction h with
  | nil => rfl
  | cons p h ih =>
    have hp' : Colored _ := ⟨fun q hq => hp.color q (List.mem_cons_of_mem _ hq),
      fun q hq => hp.inert q (List.mem_cons_of_mem _ hq)⟩
    simp only [firstOf, List.findSome?_cons] at ih ⊢
    rw [ih hp' (List.pairwise_cons.1 hd).2]
  | swap p q l =>
    -- two different colors do not begin the same text
    have hne := (List.pairwise_cons.1 hd).1 q (List.mem_cons_self ..)
    have hnot : ¬ (beginsAnyCase p.1 u = true ∧ beginsAnyCase q.1 u = true) := fun hb =>
      hne (hp.sameText_of_begins (List.mem_cons_self ..) (by simp) hb.1 hb.2)
    simp only [firstOf, List.findSome?_cons]
    simp only [beginsAnyCase] at hnot
    cases hpu : dropPrefixAnyCase? p.1 u <;> cases hqu : dropPrefixAnyCase? q.1 u <;> simp_all
  | trans h₁ h₂ ih₁ ih₂ =>
    have hp₂ : Colored _ :=
      ⟨fun q hq => hp.color q (h₂.mem_iff.1 hq), fun q hq => hp.inert q (h₂.mem_iff.1 hq)⟩
    rw [ih₁ hp₂ (h₂.symm.pairwise hd fun hne => hne.symm), ih₂ hp hd]

end Colored
end Color
end ThemeSheet
