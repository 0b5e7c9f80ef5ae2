/-
# The short layout is a normal form

Tightening behind characters that say nothing to the reader of strings and comments
keeps a text bare.  So the short layout of a style sheet holds no comment again, its
lines are filled and its runs of blanks are as short as they get: a second pass finds
nothing to do.
-/

import ThemeSheet.Proofs.Css.Layout
import ThemeSheet.Proofs.Css.Scan

namespace ThemeSheet
namespace Css

open Text

/-- Characters behind which the reader of strings and comments remembers something, and the space. -/
def readMarks : List Char := [' ', '\\', '*', '/', ':']

section Tightens
variable {joints : List Char} {p c : Char} {t u : Text}

/-! ### The beginning of a tightened text -/

/-- The next character stays, or a space is put in before it, or it is a blank that is left out. -/
theorem Tightens.cons_cases (hspace : ' ' ∉ joints) (h : Tightens joints p (c :: t) u) :
    (∃ v, u = c :: v ∧ Tightens joints c t v) ∨
    (p ∈ joints ∧ ∃ v, u = ' ' :: c :: v ∧ Tightens joints c t v) ∨
    (p ∈ joints ∧ isBlank c = true ∧ Tightens joints p t u) := by
  cases h with
  | keep h => exact .inl ⟨_, rfl, h⟩
  | drop hp hc h => exact .inr (.inr ⟨hp, hc, h⟩)
  | put hp h =>
    cases h with
    | keep h => exact .inr (.inl ⟨hp, _, rfl, h⟩)
    | drop hs => exact absurd hs hspace
    | put hs => exact absurd hs hspace

/-- Behind a character that is no joint the next one stays. -/
theorem Tightens.cons_of_notMem (hp : p ∉ joints) (h : Tightens joints p (c :: t) u) :
    ∃ v, u = c :: v ∧ Tightens joints c t v := by
  cases h with
  | keep h => exact ⟨_, rfl, h⟩
  | drop hp' => exact absurd hp' hp
  | put hp' => exact absurd hp' hp

/-- Behind a character that is no joint nothing is put in at the end. -/
theorem Tightens.nil_of_notMem (hp : p ∉ joints) (h : Tightens joints p [] u) : u = [] := by
  cases h with
  | nil => rfl
  | put hp' => exact absurd hp' hp

/-- Behind a character that is no joint both texts begin with the same character. -/
theorem Tightens.head?_eq (hp : p ∉ joints) (h : Tightens joints p t u) : u.head? = t.head? := by
  cases t with
  | nil => rw [h.nil_of_notMem hp]
  | cons c t =>
    obtain ⟨v, rfl, -⟩ := h.cons_of_notMem hp
    rfl

/-! ### Strings and comments in a tightened text -/

/-- **Tightening closes no comment.** -/
theorem Tightens.isChain (hjoints : '*' ∉ joints) (h : Tightens joints p t u) (ht : (p :: t).IsChain Apart) :
    (p :: u).IsChain Apart := by
  have hleft : ∀ {p : Char}, p ∈ joints → p ≠ '*' := by rintro p hp rfl; exact hjoints hp
  induction h with
  | nil => exact ht
  | keep _ ih =>
    rw [List.isChain_cons_cons] at ht ⊢
    exact ⟨ht.1, ih ht.2⟩
  | @drop p c t u hp _ _ ih =>
    exact ih (List.isChain_cons.2 ⟨fun d _ => .of_left (hleft hp) d, (List.isChain_cons_cons.1 ht).2.tail⟩)
  | @put p t u hp _ ih =>
    have hspace : (' ' :: t).IsChain Apart :=
      List.isChain_cons.2 ⟨fun d _ => .of_left (by decide) d, (List.isChain_cons.1 ht).2⟩
    exact List.isChain_cons_cons.2 ⟨.of_left (hleft hp) ' ', ih hspace⟩

/-- Where a star is no joint, no comment comes to begin or end in the tightened text. -/
theorem Tightens.isChain_of_notMem (hjoints : '*' ∉ joints) (hp : p ∉ joints) (h : Tightens joints p t u)
    (ht : t.IsChain Apart) : u.IsChain Apart := by
  cases t with
  | nil => rw [h.nil_of_notMem hp]; exact .nil
  | cons c t =>
    obtain ⟨v, rfl, hv⟩ := h.cons_of_notMem hp
    exact hv.isChain hjoints ht

/-- **A string stays closed**: neither its end nor what a backslash takes with it goes. -/
theorem Closing.tightens (hjoints : ∀ d ∈ readMarks, d ∉ joints) {q : Char} (hq : isQuote q = true)
    {cs rest : Text} (hcs : Closing q cs) (h : Tightens joints p (cs ++ rest) u) :
    ∃ ds v, u = ds ++ v ∧ Closing q ds ∧ Tightens joints q rest v := by
  have hspace : ' ' ∉ joints := hjoints ' ' (by decide)
  have put_space : ∀ {ds : Text}, Closing q ds → Closing q (' ' :: ds) :=
    .plain (ne_of_isQuote hq (by rfl)).symm (by decide) (by decide)
  induction hcs generalizing p u with
  | quote =>
    rcases h.cons_cases hspace with ⟨v, rfl, hv⟩ | ⟨-, v, rfl, hv⟩ | ⟨-, hb, -⟩
    · exact ⟨[q], v, rfl, .quote, hv⟩
    · exact ⟨[' ', q], v, rfl, put_space .quote, hv⟩
    · rcases isQuote_iff.1 hq with rfl | rfl <;> exact absurd hb (by decide)
  | @escape c cs hc _ ih =>
    have escaped : ∀ {v : Text}, Tightens joints '\\' (c :: (cs ++ rest)) v →
        ∃ ds w, '\\' :: v = ds ++ w ∧ Closing q ds ∧ Tightens joints q rest w := by
      intro v hv
      obtain ⟨w, rfl, hw⟩ := hv.cons_of_notMem (hjoints '\\' (by decide))
      obtain ⟨ds, x, rfl, hds, hx⟩ := ih hw
      exact ⟨'\\' :: c :: ds, x, rfl, .escape hc hds, hx⟩
    rcases h.cons_cases hspace with ⟨v, rfl, hv⟩ | ⟨-, v, rfl, hv⟩ | ⟨-, hb, -⟩
    · exact escaped hv
    · obtain ⟨ds, w, he, hds, hw⟩ := escaped hv
      exact ⟨' ' :: ds, w, by rw [he]; rfl, put_space hds, hw⟩
    · exact absurd hb (by decide)
  | @plain c cs hcq hslash hfeed _ ih =>
    rcases h.cons_cases hspace with ⟨v, rfl, hv⟩ | ⟨-, v, rfl, hv⟩ | ⟨-, -, hv⟩
    · obtain ⟨ds, w, rfl, hds, hw⟩ := ih hv
      exact ⟨c :: ds, w, rfl, .plain hcq hslash hfeed hds, hw⟩
    · obtain ⟨ds, w, rfl, hds, hw⟩ := ih hv
      exact ⟨' ' :: c :: ds, w, rfl, put_space (.plain hcq hslash hfeed hds), hw⟩
    · exact ih hv

/-- **A character that opens no comment opens none** in front of the tightened text. -/
theorem Tightens.not_opensComment (hjoints : ∀ d ∈ readMarks, d ∉ joints) (h : Tightens joints c t u)
    {afterColon : Bool} (hopen : ¬ OpensComment afterColon c t) : ¬ OpensComment afterColon c u := by
  rw [opensComment_iff] at hopen ⊢
  rintro ⟨rfl, hu⟩
  have hslash := hjoints '/' (by decide)
  have hstar := hjoints '*' (by decide)
  rcases hu with ⟨s, rfl, hs⟩ | ⟨hac, hu⟩
  · obtain ⟨t, rfl⟩ := List.head?_eq_some_iff.1 (h.head?_eq hslash).symm
    obtain ⟨v, he, hv⟩ := h.cons_of_notMem hslash
    obtain rfl := (List.cons.inj he).2
    exact hopen ⟨rfl, .inl ⟨t, rfl, fun ht => hs (hv.isChain_of_notMem hstar hstar ht)⟩⟩
  · exact hopen ⟨rfl, .inr ⟨hac, (h.head?_eq hslash).symm.trans hu⟩⟩

/-- **A tightened bare text is bare.** -/
theorem Bare.tightens (hjoints : ∀ d ∈ readMarks, d ∉ joints) {afterColon : Bool} (ht : Bare afterColon t)
    (hp : p ∈ joints → afterColon = false) (h : Tightens joints p t u) : Bare afterColon u := by
  have hspace : ' ' ∉ joints := hjoints ' ' (by decide)
  have put_space : ∀ {u : Text}, Bare false u → Bare false (' ' :: u) := fun hu =>
    .plain (by rfl) (not_opensComment_of_ne (by decide) _) hu
  induction ht generalizing p u with
  | nil =>
    cases h with
    | nil => exact .nil
    | put hp' h =>
      rw [h.nil_of_notMem hspace, hp hp']
      exact put_space .nil
  | @quoted _ q cs rest hq hcs _ ih =>
    have hquoted : ∀ {b : Bool} {v : Text}, Tightens joints q (cs ++ rest) v → Bare b (q :: v) := by
      intro b v hv
      obtain ⟨ds, w, rfl, hds, hw⟩ := hcs.tightens hjoints hq hv
      exact .quoted hq hds (ih (fun _ => rfl) hw)
    rcases h.cons_cases hspace with ⟨v, rfl, hv⟩ | ⟨hp', v, rfl, hv⟩ | ⟨-, hb, -⟩
    · exact hquoted hv
    · rw [hp hp']
      exact put_space (hquoted hv)
    · rcases isQuote_iff.1 hq with rfl | rfl <;> exact absurd hb (by decide)
  | @plain afterColon c t hc hopen _ ih =>
    have hcolon : ∀ {d : Char}, d ∈ joints → decide (d = ':') = false := fun hd =>
      decide_eq_false fun he => hjoints ':' (by decide) (he ▸ hd)
    have hplain : ∀ {v : Text}, Tightens joints c t v → Bare afterColon (c :: v) := fun hv =>
      .plain hc (hv.not_opensComment hjoints hopen) (ih hcolon hv)
    rcases h.cons_cases hspace with ⟨v, rfl, hv⟩ | ⟨hp', v, rfl, hv⟩ | ⟨hp', hb, hv⟩
    · exact hplain hv
    · rw [hp hp'] at hplain ⊢
      exact put_space (hplain hv)
    · have hc' : decide (c = ':') = false := decide_eq_false (by rintro rfl; exact absurd hb (by decide))
      rw [hc'] at ih
      rw [hp hp']
      exact ih (fun _ => rfl) hv

end Tightens

/-! ### A second pass -/

section Minify
variable {t : Text}

/-- **The short layout is bare** where what is left without comments is. -/
theorem bare_minify (h : Bare false (withoutComments t)) : Bare false (minify t) := by
  have hlines := h.tightens (by decide) (fun _ => rfl) (tightens_withoutBlankLines (withoutComments t))
  rw [minify_eq_respace]
  exact hlines.tightens (by decide) (fun _ => rfl) (tightens_respace joins_cases _)

/-- **The short layout has no blank lines.** -/
theorem filled_minify (t : Text) : Filled true (minify t) := by
  rw [minify_eq_respace]
  exact (filled_withoutBlankLines _).tightens (by decide) (tightens_respace joins_cases _) (by decide)

/-- **No lines are left to be joined in the short layout.** -/
theorem respace_minify (t : Text) : respace joins (minify t) = minify t := by
  rw [minify_eq_respace, respace_respace isBlank_joins, joins_andThen_joins]

/-- **The short layout of a short layout is itself**, for every text whose quotes all stand in comments or in
strings closed on their line and in which no colon and slash stand in front of a comment. -/
theorem minify_minify (hquotes : ∀ c, Piece.plain c ∈ pieces false t → isQuote c = false)
    (hslashes : occursIn "://*".toList t = false) : minify (minify t) = minify t := by
  have hnot : ¬ "://*".toList <:+: t := by
    rintro ⟨a, b, h⟩
    exact absurd (hslashes.symm.trans (occursIn_iff.2 ⟨a, b, h.symm⟩)) (by simp)
  have hbare := bare_minify (bare_withoutComments hquotes hnot)
  rw [minify_eq_respace (minify t), withoutComments_of_bare hbare, withoutBlankLines_of_filled (filled_minify t),
    respace_minify]

/-- A rule over four lines, with a string that holds the beginning of a comment and a comment that holds a quote. -/
theorem minify_minify_rule :
    minify (minify "a \x7b\n  b: \"/*\";/* ' */\n\n\x7d".toList) = minify "a \x7b\n  b: \"/*\";/* ' */\n\n\x7d".toList := by
  have hpieces : pieces false "a \x7b\n  b: \"/*\";/* ' */\n\n\x7d".toList =
      "a \x7b\n  b: ".toList.map .plain ++ .quoted "\"/*\"".toList ::
        (";".toList.map .plain ++ .comment "/* ' */".toList :: "\n\n\x7d".toList.map .plain) := by
    simp [pieces, nextPiece, quotedTail?, blockComment?, dropPrefix?, cutAt?]
  refine minify_minify ?_ (by decide)
  rw [hpieces]
  simp [isQuote]

example : minify "a \x7b\n  b: \"/*\";/* ' */\n\n\x7d".toList = "a \x7bb: \"/*\";\x7d".toList := by cbv

end Minify

end Css
end ThemeSheet
