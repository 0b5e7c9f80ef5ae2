/-
# Color literals as wholes

A literal is a number sign and all the characters of a name behind it.  The passes that
put variables in the place of colors look for the digits of a color and not for its end,
so a color is found in front of a longer literal too.  No pass reaches over a number
sign: a literal is kept or lost with what follows it, whatever stands in front.  And
what follows begins with no digit, except that a call for a shade may have come there,
whose first letter is one.
-/

import ThemeSheet.Proofs.Marker.Stylesheet
import ThemeSheet.Proofs.Style.Token
import ThemeSheet.Proofs.Text.Boundary
import ThemeSheet.Proofs.Theme.Substitution

namespace ThemeSheet

open Text Unicode

/-- **Variables with hexadecimal colors,** of any of their lengths. -/
structure Discovered.Hex (d : Discovered) : Prop where
  name : ∀ e ∈ d.entries, Variable.isReference e.1 = true
  color : ∀ e ∈ d.entries, e.2.any Color.isHexColor = true

namespace Color

variable {color digits w t s z : Text}

/-- **A text that begins with a hexadecimal color** begins with a number sign and digits. -/
theorem exists_of_beginsAnyCase (hc : isHexColor color = true) (h : beginsAnyCase color t = true) :
    ∃ q r, t = '#' :: q ++ r ∧ ('#' :: q).map foldCase = color.map foldCase ∧
      ∀ c ∈ q, isHexDigit c = true := by
  obtain ⟨ds, rfl, -, hds⟩ := isHexColor_iff.1 hc
  obtain ⟨q, r, hq, rfl⟩ := beginsAnyCase_iff.1 h
  cases q with
  | nil => simp at hq
  | cons c q =>
    obtain ⟨hhead, htail⟩ := List.cons.inj hq
    obtain rfl := eq_hash_of_sameLetter (sameLetter_iff.2 hhead.symm)
    exact ⟨q, r, rfl, hq, isHexDigit_of_sameText hds htail⟩

/-- No color in digits begins with another character than a number sign. -/
theorem beginsAnyCase_of_ne (hc : isHexColor color = true) {c : Char} (h : c ≠ '#') :
    beginsAnyCase color (c :: t) = false := by
  refine Bool.eq_false_iff.2 fun hbegins => h ?_
  obtain ⟨q, r, ht, -⟩ := exists_of_beginsAnyCase hc hbegins
  exact (List.cons.inj ht).1

/-- Digits are looked for up to the next number sign. -/
theorem dropPrefixAnyCase?_append_hash (hd : ∀ d ∈ digits, isHexDigit d = true) (s z : Text) :
    dropPrefixAnyCase? digits (s ++ '#' :: z) = (dropPrefixAnyCase? digits s).map (· ++ '#' :: z) := by
  induction digits generalizing s with
  | nil => rfl
  | cons d digits ih =>
    cases s with
    | nil =>
      have hne : ¬ sameLetter d '#' = true := by
        intro h
        obtain rfl := eq_hash_of_sameLetter (sameLetter_iff.2 (sameLetter_iff.1 h).symm)
        exact absurd (hd '#' (List.mem_cons_self ..)) (by decide)
      exact if_neg hne
    | cons c s =>
      rw [List.cons_append, dropPrefixAnyCase?, dropPrefixAnyCase?, ih fun e he => hd e (List.mem_cons_of_mem _ he)]
      split <;> rfl

/-- **No pass reaches over a number sign.** -/
theorem replaceAnyCase_append_hash (hc : isHexColor color = true) (new s z : Text) :
    replaceAnyCase color new (s ++ '#' :: z) = replaceAnyCase color new s ++ replaceAnyCase color new ('#' :: z) := by
  refine replaceMatches_append_of_apart (fun t x r h => ?_) fun front kept _ hne => ?_
  · obtain ⟨r', hr, he⟩ := Option.map_eq_some_iff.1 h
    obtain ⟨q, -, rfl⟩ := dropPrefixAnyCase?_eq_some.1 hr
    exact ⟨q, by rw [(Prod.mk.inj he).2]⟩
  · obtain ⟨ds, rfl, -, hds⟩ := isHexColor_iff.1 hc
    obtain ⟨c, kept, rfl⟩ := List.exists_cons_of_ne_nil hne
    rw [List.cons_append, dropPrefixAnyCase?, dropPrefixAnyCase?, dropPrefixAnyCase?_append_hash hds]
    split
    · rw [Option.map_map, Option.map_map]
      rfl
    · rfl

/-- Text without a number sign stays in front. -/
theorem replaceAnyCase_skip (hc : isHexColor color = true) (new : Text) (hw : '#' ∉ w) (t : Text) :
    replaceAnyCase color new (w ++ t) = w ++ replaceAnyCase color new t := by
  induction w with
  | nil => rfl
  | cons c w ih =>
    rw [List.cons_append, replaceAnyCase_cons (beginsAnyCase_of_ne hc (List.ne_of_not_mem_cons hw).symm),
      ih (List.not_mem_of_not_mem_cons hw), List.cons_append]

/-- **A literal that the color does not begin stays in front.** -/
theorem replaceAnyCase_literal (hc : isHexColor color = true) (new : Text) (hw : '#' ∉ w)
    (h : beginsAnyCase color ('#' :: w ++ t) = false) :
    replaceAnyCase color new ('#' :: w ++ t) = '#' :: w ++ replaceAnyCase color new t :=
  (replaceAnyCase_cons h).trans (congrArg ('#' :: ·) (replaceAnyCase_skip hc new hw t))

/-- **A color in front gives way.** -/
theorem replaceAnyCase_begins (hc : isHexColor color = true) (new : Text)
    (h : beginsAnyCase color t = true) : ∃ rest, replaceAnyCase color new t = new ++ rest := by
  obtain ⟨q, r, rfl, hq, -⟩ := exists_of_beginsAnyCase hc h
  exact ⟨_, replaceMatches_of_some (List.cons_ne_nil '#' q)
    (by rw [dropPrefixAnyCase?_eq_some.2 ⟨'#' :: q, hq, rfl⟩, Option.map_some])⟩

end Color

namespace Theme

variable {d : Discovered} {e : Text × Option Text} {entries : List (Text × Option Text)} {w b t : Text}

/-- What stands for a color begins with an `@` sign or with `co`. -/
theorem referenceTo_begins {name : Text} (h : Variable.isReference name = true) :
    (∃ rest, referenceTo name = '@' :: rest) ∨ ∃ rest, referenceTo name = 'c' :: 'o' :: rest := by
  rw [referenceTo]
  split
  · next call hcall =>
    rw [Variable.shadeCall] at hcall
    split at hcall
    · exact absurd hcall (by simp)
    · exact .inr (Except.ok.inj hcall ▸ Variable.paletteCall_begins ..)
  · cases name with
    | nil => exact absurd h (by decide)
    | cons c rest =>
      by_cases hc : c = '@'
      · exact .inl ⟨rest, by rw [hc]⟩
      · exact absurd h (by simp [Variable.isReference, hc])

/-- An entry of a table of variables with hexadecimal colors. -/
def IsHexEntry (e : Text × Option Text) : Prop :=
  Variable.isReference e.1 = true ∧ ∃ color, e.2 = some color ∧ Color.isHexColor color = true

/-- The entries of a table with colors in digits have colors in digits. -/
theorem isHexEntry_of_mem (hd : d.Hex) (he : e ∈ d.entries) : IsHexEntry e := by
  have hcolor := hd.color e he
  rw [Option.any_eq_true] at hcolor
  obtain ⟨color, hc, hhex⟩ := hcolor
  exact ⟨hd.name e he, color, hc, hhex⟩

/-- A pass puts the reference in the place of the color, in any letter case. -/
theorem substituteOne_eq {color : Text} (hc : e.2 = some color) (hhex : Color.isHexColor color = true) (css : Text) :
    substituteOne css e = replaceAnyCase color (referenceTo e.1) css := by
  simp only [substituteOne, hc, Color.isColorText_of_isHexColor hhex, if_true]

/-! ### What follows a literal -/

/-- **What may follow a literal in the course of the passes:** no digit, unless a call for a shade has come
there. -/
def FollowsLiteral (t : Text) : Prop :=
  (∀ c, t.head? = some c → isHexDigit c = false) ∨ ∃ rest, t = 'c' :: 'o' :: rest

/-- What ends a name may follow a literal. -/
theorem followsLiteral_of_nameEnds (h : nameEnds t = true) : FollowsLiteral t := by
  refine .inl fun c hc => Bool.eq_false_iff.2 fun hhex => ?_
  exact Bool.eq_false_iff.1 (Style.not_isNameChar_of_nameEnds h c hc) (Marker.isNameChar_of_isHexDigit hhex)

/-- A pass keeps it so. -/
theorem FollowsLiteral.substituteOne (he : IsHexEntry e) (h : FollowsLiteral t) :
    FollowsLiteral (substituteOne t e) := by
  obtain ⟨hname, color, hc, hhex⟩ := he
  rw [substituteOne_eq hc hhex]
  cases hbegins : beginsAnyCase color t with
  | true =>
    obtain ⟨rest, hpass⟩ := Color.replaceAnyCase_begins hhex (referenceTo e.1) hbegins
    rw [hpass]
    rcases referenceTo_begins hname with ⟨r, hr⟩ | ⟨r, hr⟩
    · refine .inl fun c hc => ?_
      rw [hr] at hc
      exact Option.some.inj hc ▸ (by decide)
    · exact .inr ⟨r ++ rest, by rw [hr]; rfl⟩
  | false =>
    rcases h with h | ⟨rest, rfl⟩
    · cases t with
      | nil => exact .inl (by simp [replaceAnyCase, replaceMatches])
      | cons c t =>
        refine .inl fun c' hc' => ?_
        rw [replaceAnyCase_cons hbegins] at hc'
        exact Option.some.inj hc' ▸ h c rfl
    · exact .inr ⟨_, Color.replaceAnyCase_skip hhex (referenceTo e.1) (w := ['c', 'o']) (by decide) rest⟩

/-- Passes leave what may follow a literal. -/
theorem FollowsLiteral.foldl (hentries : ∀ e ∈ entries, IsHexEntry e) (h : FollowsLiteral t) :
    FollowsLiteral (entries.foldl Theme.substituteOne t) := by
  induction entries generalizing t with
  | nil => exact h
  | cons e entries ih =>
    exact ih (fun e he => hentries e (List.mem_cons_of_mem _ he)) (h.substituteOne (hentries e (List.mem_cons_self ..)))

/-- **Where a color begins:** in the literal, or with the first letter of a call for a shade behind it. -/
theorem beginsAnyCase_literal_iff {color : Text} (hhex : Color.isHexColor color = true) (h : FollowsLiteral t) :
    beginsAnyCase color ('#' :: w ++ t) = true ↔ beginsAnyCase color ('#' :: w) = true ∨
      (color.map foldCase = ('#' :: w ++ ['c']).map foldCase ∧ t.head? = some 'c') := by
  constructor
  · intro hbegins
    obtain ⟨q, r, hq, hfold, hdigits⟩ := Color.exists_of_beginsAnyCase hhex hbegins
    rcases append_eq_append_cases hq.symm with ⟨v, rfl⟩ | ⟨v, -, hw, -⟩
    · rw [← List.append_assoc] at hq
      obtain rfl : w ++ v = q := (List.cons.inj (List.append_cancel_right hq)).2
      cases v with
      | nil => exact .inl (beginsAnyCase_iff.2 ⟨_, [], hfold, by simp⟩)
      | cons c v =>
        have hdigit : isHexDigit c = true := hdigits c (by simp)
        rcases h with h | ⟨rest, hrest⟩
        · rw [h c rfl] at hdigit
          exact absurd hdigit (by decide)
        · obtain ⟨rfl, htail⟩ := List.cons.inj hrest
          cases v with
          | nil => exact .inr ⟨hfold.symm, rfl⟩
          | cons o v =>
            obtain ⟨rfl, -⟩ := List.cons.inj htail
            exact absurd (hdigits 'o' (by simp)) (by decide)
    · exact .inl (beginsAnyCase_iff.2 ⟨_, v, hfold, hw⟩)
  · rintro (hbegins | ⟨hfold, hhead⟩)
    · obtain ⟨q, r, hfold, hq⟩ := beginsAnyCase_iff.1 hbegins
      exact beginsAnyCase_iff.2 ⟨q, r ++ t, hfold, by rw [hq, List.append_assoc]⟩
    · obtain ⟨rest, rfl⟩ : ∃ rest, t = 'c' :: rest := by
        cases t with
        | nil => exact absurd hhead (by simp)
        | cons c rest => exact ⟨rest, by rw [Option.some.inj hhead]⟩
      exact beginsAnyCase_iff.2 ⟨_, rest, hfold.symm, by simp⟩

/-! ### The passes at a literal -/

/-- **No pass finds its color at the literal,** with what follows as the passes before have left it. -/
def Untouched (entries : List (Text × Option Text)) (w b : Text) : Prop :=
  ∀ before e after color, entries = before ++ e :: after → e.2 = some color →
    beginsAnyCase color ('#' :: w ++ before.foldl substituteOne b) = false

/-- No pass finds its color exactly if the first does not, and none of the others in what it leaves. -/
theorem untouched_cons_iff {color : Text} (hc : e.2 = some color) :
    Untouched (e :: entries) w b ↔
      beginsAnyCase color ('#' :: w ++ b) = false ∧ Untouched entries w (substituteOne b e) := by
  constructor
  · refine fun h => ⟨h [] e entries color rfl hc, fun before e' after color' hsplit hc' => ?_⟩
    exact h (e :: before) e' after color' (by rw [hsplit]; rfl) hc'
  · rintro ⟨hfirst, h⟩ before e' after color' hsplit hc'
    cases before with
    | nil =>
      obtain ⟨rfl, -⟩ := List.cons.inj hsplit
      obtain rfl := Option.some.inj (hc.symm.trans hc')
      exact hfirst
    | cons e'' before =>
      obtain ⟨rfl, htail⟩ := List.cons.inj hsplit
      exact h before e' after color' htail hc'

/-- **A literal at which no pass finds its color stays,** and what stands on either side of it is substituted on
its own. -/
theorem Untouched.foldl (hentries : ∀ e ∈ entries, IsHexEntry e) (hw : '#' ∉ w) (h : Untouched entries w b)
    (a : Text) : entries.foldl substituteOne (a ++ '#' :: w ++ b) =
      entries.foldl substituteOne a ++ '#' :: w ++ entries.foldl substituteOne b := by
  induction entries generalizing a b with
  | nil => rfl
  | cons e entries ih =>
    obtain ⟨-, color, hc, hhex⟩ := hentries e (List.mem_cons_self ..)
    obtain ⟨hfirst, hrest⟩ := (untouched_cons_iff hc).1 h
    have hpass : substituteOne (a ++ '#' :: w ++ b) e =
        substituteOne a e ++ '#' :: w ++ substituteOne b e := by
      simp only [substituteOne_eq hc hhex]
      rw [List.append_assoc, List.cons_append, Color.replaceAnyCase_append_hash hhex, ← List.cons_append,
        Color.replaceAnyCase_literal hhex _ hw hfirst, List.append_assoc]
    rw [List.foldl_cons, hpass, ih (fun e he => hentries e (List.mem_cons_of_mem _ he)) hrest]
    rfl

/-- A text that begins with no number sign keeps its first character. -/
theorem head?_foldl (hentries : ∀ e ∈ entries, IsHexEntry e) {c : Char} (hc : c ≠ '#') (t : Text) :
    (entries.foldl substituteOne (c :: t)).head? = some c := by
  induction entries generalizing t with
  | nil => rfl
  | cons e entries ih =>
    obtain ⟨-, color, hcolor, hhex⟩ := hentries e (List.mem_cons_self ..)
    rw [List.foldl_cons, substituteOne_eq hcolor hhex]
    rw [show c :: t = [c] ++ t from rfl, Color.replaceAnyCase_skip hhex _ (by simpa using hc.symm)]
    exact ih (fun e he => hentries e (List.mem_cons_of_mem _ he)) _

/-- **A literal that keeps its number sign** is one at which no pass finds its color. -/
theorem untouched_of_head? (hentries : ∀ e ∈ entries, IsHexEntry e) (hw : '#' ∉ w)
    (h : (entries.foldl substituteOne ('#' :: w ++ b)).head? = some '#') : Untouched entries w b := by
  induction entries generalizing b with
  | nil => exact fun before e after color hsplit => absurd hsplit (by simp)
  | cons e entries ih =>
    obtain ⟨hname, color, hc, hhex⟩ := hentries e (List.mem_cons_self ..)
    have hrest : ∀ e ∈ entries, IsHexEntry e := fun e he => hentries e (List.mem_cons_of_mem _ he)
    rw [List.foldl_cons, substituteOne_eq hc hhex] at h
    cases hbegins : beginsAnyCase color ('#' :: w ++ b) with
    | false =>
      rw [Color.replaceAnyCase_literal hhex _ hw hbegins, ← substituteOne_eq hc hhex] at h
      exact (untouched_cons_iff hc).2 ⟨hbegins, ih hrest h⟩
    | true =>
      -- what stands for the color begins with another character, which stays
      obtain ⟨rest, hpass⟩ := Color.replaceAnyCase_begins hhex (referenceTo e.1) hbegins
      rw [hpass] at h
      rcases referenceTo_begins hname with ⟨r, hr⟩ | ⟨r, hr⟩ <;>
      · rw [hr, List.cons_append, head?_foldl hrest (by decide)] at h
        exact absurd h (by decide)

/-- **A call for a shade completes the literal to a color:** it has come behind the literal in an earlier pass,
and its first letter is the last digit of the color. -/
def Completed (d : Discovered) (w b : Text) : Prop :=
  ∃ before e after color, d.entries = before ++ e :: after ∧ e.2 = some color ∧
    color.map foldCase = ('#' :: w ++ ['c']).map foldCase ∧ (before.foldl substituteOne b).head? = some 'c'

/-- The colors of a table are those of its entries. -/
theorem mem_colors_iff {color : Text} : color ∈ d.colors ↔ ∃ e ∈ d.entries, e.2 = some color := by
  rw [Discovered.colors, List.mem_filterMap]

/-- A literal stays exactly if it begins with no color and no call completes it to one. -/
theorem untouched_iff (hd : d.Hex) (hb : nameEnds b = true) : Untouched d.entries w b ↔
    (∀ color ∈ d.colors, beginsAnyCase color ('#' :: w) = false) ∧ ¬ Completed d w b := by
  have hbegins : ∀ before e after color, d.entries = before ++ e :: after → e.2 = some color →
      (beginsAnyCase color ('#' :: w ++ before.foldl substituteOne b) = true ↔
        beginsAnyCase color ('#' :: w) = true ∨ (color.map foldCase = ('#' :: w ++ ['c']).map foldCase ∧
          (before.foldl substituteOne b).head? = some 'c')) := by
    intro before e after color hsplit hc
    have hmem : ∀ e' ∈ before ++ e :: after, IsHexEntry e' := fun e' he' => isHexEntry_of_mem hd (hsplit ▸ he')
    obtain ⟨-, color', hc', hhex⟩ := hmem e (by simp)
    obtain rfl := Option.some.inj (hc'.symm.trans hc)
    exact beginsAnyCase_literal_iff hhex <|
      (followsLiteral_of_nameEnds hb).foldl fun e' he' => hmem e' (List.mem_append_left _ he')
  constructor
  · refine fun h => ⟨fun color hcolor => Bool.eq_false_iff.2 fun hfound => ?_,
      fun ⟨before, e, after, color, hsplit, hc, hcompleted⟩ => ?_⟩
    · obtain ⟨e, he, hc⟩ := mem_colors_iff.1 hcolor
      obtain ⟨before, after, hsplit⟩ := List.append_of_mem he
      exact Bool.eq_false_iff.1 (h before e after color hsplit hc) ((hbegins _ _ _ _ hsplit hc).2 (.inl hfound))
    · exact Bool.eq_false_iff.1 (h before e after color hsplit hc) ((hbegins _ _ _ _ hsplit hc).2 (.inr hcompleted))
  · rintro ⟨hcolors, hcompleted⟩ before e after color hsplit hc
    refine Bool.eq_false_iff.2 fun hfound => ?_
    rcases (hbegins before e after color hsplit hc).1 hfound with h | h
    · exact Bool.eq_false_iff.1 (hcolors color (mem_colors_iff.2 ⟨e, by rw [hsplit]; simp, hc⟩)) h
    · exact hcompleted ⟨before, e, after, color, hsplit, hc, h⟩

/-- Nothing becomes of the empty text. -/
theorem substituteVariables_nil (d : Discovered) : substituteVariables [] d = [] := by
  refine List.foldl_fixed' (fun e => ?_) _
  rw [substituteOne]
  split
  · rw [replaceAnyCase, replaceMatches, ite_self]
  · rfl

/-- **When a literal stays.**  Whatever stands in front, a whole literal is unchanged, with the texts on its sides
substituted on their own, exactly if no discovered color begins it, in any letter case, and no call for a shade
completes it to one. -/
theorem substituteVariables_literal_iff (hd : d.Hex) (hw : ∀ c ∈ w, isNameChar c = true)
    (hb : nameEnds b = true) :
    (∀ a, substituteVariables (a ++ '#' :: w ++ b) d =
      substituteVariables a d ++ '#' :: w ++ substituteVariables b d) ↔
    (∀ color ∈ d.colors, beginsAnyCase color ('#' :: w) = false) ∧ ¬ Completed d w b := by
  have hentries : ∀ e ∈ d.entries, IsHexEntry e := fun e he => isHexEntry_of_mem hd he
  have hhash : '#' ∉ w := notMem_of_isNameChar hw (by decide)
  rw [← untouched_iff hd hb]
  refine ⟨fun h => untouched_of_head? hentries hhash ?_, fun h => h.foldl hentries hhash⟩
  have hfront := h []
  rw [substituteVariables_nil, List.nil_append] at hfront
  exact congrArg List.head? hfront

/-- The literal is the front of a color, and a call for a shade comes behind it. -/
theorem substituteVariables_literal_iff_shade :
    let d : Discovered :=
      ⟨[("@primary-1".toList, some "#ABC".toList), ("@link".toList, some "#123456".toList)], by decide⟩
    ∀ a, substituteVariables (a ++ "#12345".toList ++ "#abc;".toList) d =
      substituteVariables a d ++ "#12345".toList ++ substituteVariables "#abc;".toList d := by
  intro d
  have hd : d.Hex := ⟨by decide, by decide⟩
  refine (substituteVariables_literal_iff hd (by decide) (by decide)).2 ⟨by decide, ?_⟩
  rintro ⟨before, e, after, color, hsplit, hc, hfold, -⟩
  have hnone : ∀ color ∈ d.colors, color.map foldCase ≠ "#12345c".toList.map foldCase := by decide
  exact hnone color (mem_colors_iff.2 ⟨e, by rw [hsplit]; simp, hc⟩) hfold

/-- **A literal that is no discovered color may be changed:** one of six digits is found in front of one of
eight. -/
theorem not_forall_substituteVariables_literal : ¬ ∀ (d : Discovered) (a w b : Text), d.Hex →
    (∀ c ∈ w, isNameChar c = true) → nameEnds b = true →
    (∀ color ∈ d.colors, color.map foldCase ≠ ('#' :: w).map foldCase) →
    substituteVariables (a ++ '#' :: w ++ b) d =
      substituteVariables a d ++ '#' :: w ++ substituteVariables b d := by
  intro hall
  let d : Discovered := ⟨[("@primary-color".toList, some "#123456".toList)], by decide⟩
  have hstays := hall d "color: ".toList "12345678".toList ";".toList ⟨by decide, by decide⟩ (by decide) (by decide)
    (by decide)
  have hchanged : substituteVariables "color: #12345678;".toList d = "color: @primary-color78;".toList := by
    decide +kernel
  have hsame : substituteVariables "color: #12345678;".toList d = "color: #12345678;".toList := by
    exact hstays.trans (by decide +kernel)
  exact absurd (hchanged.symm.trans hsame) (by decide)

end Theme
end ThemeSheet
