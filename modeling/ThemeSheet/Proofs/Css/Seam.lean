/-
# Reading on behind the end of a text

What is read at the beginning of a text stays the same when the text goes on, as long as
something is left behind it and a separator stands where the two texts meet.  The
readers look at most up to the next separator to see where a piece ends.
-/

import Mathlib.Data.List.Basic
import ThemeSheet.Proofs.Css.Source

namespace ThemeSheet
namespace Css

variable {c : Char} {r s t y : Text}

/-! ### What is left is an end of the text -/

/-- Leaving out a separator leaves an end of the text. -/
theorem dropSpace_suffix (t : Text) : dropSpace t <:+ t := by
  cases t with
  | nil => exact List.suffix_refl _
  | cons c t =>
    rw [dropSpace]
    split
    · exact List.suffix_cons c t
    · exact List.suffix_refl _

/-- Reading an escape leaves an end of the text. -/
theorem escape_suffix (t : Text) : (escape t).2 <:+ t := by
  simp only [escape]
  split
  · split
    · exact List.suffix_refl _
    · exact List.suffix_cons ..
  · exact (dropSpace_suffix _).trans (List.drop_suffix ..)

/-- Reading a name leaves an end of the text. -/
theorem name_suffix (t : Text) : (name t).2 <:+ t := by
  fun_induction name t with
  | case1 => exact List.suffix_refl _
  | case2 c t hc chars rest h ih => exact (h ▸ ih).trans (List.suffix_cons c t)
  | case3 c t hc he chars rest h ih =>
    exact (h ▸ ih).trans ((escape_suffix t).trans (List.suffix_cons c t))
  | case4 => exact List.suffix_refl _

/-- Reading a string leaves an end of the text. -/
theorem quoted_suffix (quote : Char) (before t : Text) : (quoted quote before t).2 <:+ t := by
  fun_induction quoted quote before t with
  | case1 => exact List.suffix_refl _
  | case2 => exact List.suffix_cons ..
  | case3 => exact List.nil_suffix
  | case4 before r _ ih => exact ih.trans ⟨['\\', '\n'], rfl⟩
  | case5 before d r _ _ ih => exact ih.trans ((escape_suffix _).trans (List.suffix_cons ..))
  | case6 => exact List.suffix_refl _
  | case7 before c t _ _ _ ih => exact ih.trans (List.suffix_cons c t)

/-- Skipping a malformed address leaves an end of the text. -/
theorem skipBadUrl_suffix (t : Text) : skipBadUrl t <:+ t := by
  fun_induction skipBadUrl t with
  | case1 => exact List.suffix_refl _
  | case2 t ih => exact ih.trans ⟨['\\', ')'], rfl⟩
  | case3 => exact List.suffix_cons ..
  | case4 c t _ _ ih => exact ih.trans (List.suffix_cons c t)

/-- Reading the closing bracket of an address leaves an end of the text. -/
theorem closeUrl_suffix (value t : Text) : (closeUrl value t).2 <:+ t := by
  have h := List.dropWhile_suffix isSpace (l := t)
  unfold closeUrl
  split
  · exact List.nil_suffix
  · next c r hr =>
    rw [hr] at h
    split
    · exact (List.suffix_cons c r).trans h
    · exact (skipBadUrl_suffix _).trans h

/-- Reading an address without quotes leaves an end of the text. -/
theorem bareUrl_suffix (before t : Text) : (bareUrl before t).2 <:+ t := by
  fun_induction bareUrl before t with
  | case1 => exact List.suffix_refl _
  | case2 => exact List.suffix_cons ..
  | case3 before c t _ _ => exact (closeUrl_suffix _ t).trans (List.suffix_cons c t)
  | case4 before c t _ _ _ ih => exact ih.trans ((escape_suffix t).trans (List.suffix_cons c t))
  | case5 before c t _ _ _ _ => exact (skipBadUrl_suffix t).trans (List.suffix_cons c t)
  | case6 before c t _ _ _ _ ih => exact ih.trans (List.suffix_cons c t)

/-- Reading an address behind its opening bracket leaves an end of the text. -/
theorem url?_suffix {read : List Token × Text} (h : url? t = some read) : read.2 <:+ t := by
  have hd := List.dropWhile_suffix isSpace (l := t)
  unfold url? at h
  split at h
  · rw [← Option.some.inj h]
    exact List.nil_suffix
  · next c u hu =>
    split at h
    · exact absurd h (by simp)
    · rw [← Option.some.inj h]
      exact (bareUrl_suffix _ _).trans (hu ▸ hd)

/-- Skipping a comment leaves an end of the text. -/
theorem skipComment_suffix (t : Text) : skipComment t <:+ t := by
  fun_induction skipComment t with
  | case1 => exact List.suffix_refl _
  | case2 t => exact ⟨['*', '/'], rfl⟩
  | case3 c t _ ih => exact ih.trans (List.suffix_cons c t)

/-- What begins with a name leaves an end of the text. -/
theorem ReadsIdent.suffix {read : List Lexeme × Text} (h : ReadsIdent t read) : read.2 <:+ t := by
  have hn := name_suffix t
  cases h with
  | address hname hurl hread =>
    rw [hname] at hn
    exact (url?_suffix hread).trans ((List.suffix_cons ..).trans hn)
  | call hname hquoted =>
    rw [hname] at hn
    exact (List.suffix_cons ..).trans hn
  | ident hname hr =>
    rw [hname] at hn
    exact hn

/-- What stands behind a numeral leaves an end of the text. -/
theorem ReadsNumber.suffix {ds : Text} {read : List Lexeme × Text} (h : ReadsNumber ds t read) : read.2 <:+ t := by
  cases h with
  | dimension hi => exact name_suffix t
  | percentage after => exact List.suffix_cons ..
  | number hi hp => exact List.suffix_refl _

/-- What a single character begins leaves an end of the text. -/
theorem ReadsMark.suffix {read : List Lexeme × Text} (h : ReadsMark c t read) : read.2 <:+ t := by
  cases h with
  | opens b => exact List.suffix_refl _
  | closes b => exact List.suffix_refl _
  | atKeyword hs => exact name_suffix t
  | hash hs => exact name_suffix t
  | quoted hq => exact quoted_suffix c [] t
  | comment u => exact (skipComment_suffix u).trans (List.suffix_cons ..)
  | sheetMark u => exact ⟨"!--".toList, rfl⟩
  | bar u => exact List.suffix_cons ..
  | equals hj => exact List.suffix_cons ..
  | alone ha => exact List.suffix_refl _

/-- **What is left is an end of the text.** -/
theorem nextLexemes_suffix (c : Char) (t : Text) : (nextLexemes c t).2 <:+ c :: t := by
  have h := reads c t
  generalize nextLexemes c t = read at h
  cases h with
  | space hspace => exact (List.dropWhile_suffix _).trans (List.suffix_cons c t)
  | @range _ u hrange => exact (unicodeRange_suffix u).trans ⟨[c, '+'], rfl⟩
  | arrow u => exact ⟨"-->".toList, rfl⟩
  | ident hplain hi h => exact h.suffix
  | @number _ _ ds _ _ hplain hi hn h => exact h.suffix.trans ⟨ds, (number?_spec hn).1.symm⟩
  | mark hplain hi hn h => exact h.suffix.trans (List.suffix_cons c t)

/-! ### Two texts with a separator between them -/

/-- **Does a separator stand where the texts meet,** at the end of the first one or at the beginning of the
second? -/
def Parted (t y : Text) : Prop := t.getLast?.any isSpace = true ∨ y.head?.any isSpace = true

/-- An end of the first text, unless it is empty, is parted from the second one as the whole is. -/
theorem Parted.of_suffix (h : Parted t y) (hr : r <:+ t) (hne : r ≠ []) : Parted r y := by
  obtain ⟨front, rfl⟩ := hr
  rwa [Parted, List.getLast?_append, List.getLast?_eq_some_getLast hne, Option.some_or,
    ← List.getLast?_eq_some_getLast hne] at h

/-- A first character that is no separator does not matter to the separator where the texts meet. -/
theorem Parted.tail (h : Parted (c :: t) y) (hc : isSpace c = false) : Parted t y := by
  cases t with
  | nil => exact .inr (h.resolve_left (by simp [hc]))
  | cons d t => exact h.of_suffix (List.suffix_cons c _) (List.cons_ne_nil d t)

/-- A beginning without separators does not matter to the separator where the texts meet. -/
theorem Parted.behind (h : Parted (s ++ t) y) (hs : ∀ c ∈ s, isSpace c = false) : Parted t y := by
  induction s with
  | nil => exact h
  | cons c s ih =>
    obtain ⟨hc, hs⟩ := List.forall_mem_cons.1 hs
    exact ih (h.tail hc) hs

/-- Behind the empty text, the separator is the first character of the second one. -/
theorem Parted.exists_space (h : Parted [] y) : ∃ d z, y = d :: z ∧ isSpace d = true := by
  have hy := h.resolve_left (by simp)
  cases y with
  | nil => exact absurd hy (by simp)
  | cons d z => exact ⟨d, z, rfl, by simpa using hy⟩

/-- The separators are the space, the line feed and the tabulator. -/
theorem eq_of_isSpace (h : isSpace c = true) : c = ' ' ∨ c = '\n' ∨ c = '\t' := by
  simpa [isSpace, or_assoc] using h

/-- What holds of none of the three separators is false of every separator. -/
theorem not_of_isSpace {p : Char → Bool} (hp : p ' ' = false ∧ p '\n' = false ∧ p '\t' = false)
    (h : isSpace c = true) : p c = false := by
  rcases eq_of_isSpace h with rfl | rfl | rfl
  · exact hp.1
  · exact hp.2.1
  · exact hp.2.2

/-- A run that ends in a text ends there when the text goes on. -/
theorem run_append {p : Char → Bool} (h : t.dropWhile p ≠ []) :
    (t ++ y).takeWhile p = t.takeWhile p ∧ (t ++ y).dropWhile p = t.dropWhile p ++ y := by
  induction t with
  | nil => exact absurd rfl h
  | cons c t ih =>
    cases hc : p c with
    | false => simp [hc]
    | true =>
      rw [List.dropWhile_cons_of_pos hc] at h
      simp [hc, ih h]

/-- A run of other characters ends in the first text or with it. -/
theorem Parted.run {p : Char → Bool} (h : Parted t y) (hp : ∀ c, isSpace c = true → p c = false) :
    (t ++ y).takeWhile p = t.takeWhile p ∧ (t ++ y).dropWhile p = t.dropWhile p ++ y := by
  induction t with
  | nil =>
    obtain ⟨d, z, rfl, hd⟩ := h.exists_space
    simp [hp d hd]
  | cons c t ih =>
    cases hc : p c with
    | false => simp [hc]
    | true =>
      have hspace : isSpace c = false := by
        by_contra hs
        rw [hp c (by simpa using hs)] at hc
        exact Bool.noConfusion hc
      obtain ⟨htake, hdrop⟩ := ih (h.tail hspace)
      simp [hc, htake, hdrop]

/-- The same run, cut off after so many characters, and what is left behind it. -/
theorem Parted.run_take {p : Char → Bool} (h : Parted t y) (hp : ∀ c, isSpace c = true → p c = false) (n : Nat) :
    ((t ++ y).takeWhile p).take n = (t.takeWhile p).take n ∧
      (t ++ y).drop ((t.takeWhile p).take n).length = t.drop ((t.takeWhile p).take n).length ++ y ∧
      Parted (t.drop ((t.takeWhile p).take n).length) y := by
  obtain ⟨u, hu⟩ : (t.takeWhile p).take n <+: t := (List.take_prefix ..).trans (List.takeWhile_prefix _)
  have hrun : ∀ c ∈ (t.takeWhile p).take n, isSpace c = false := by
    intro c hc
    have hpc := List.mem_takeWhile_imp (List.mem_of_mem_take hc)
    by_contra hs
    rw [hp c (by simpa using hs)] at hpc
    exact Bool.noConfusion hpc
  rw [(h.run hp).1]
  generalize (t.takeWhile p).take n = run at hu hrun
  subst hu
  rw [List.append_assoc, List.drop_left, List.drop_left]
  exact ⟨rfl, rfl, h.behind hrun⟩

/-- A property that no separator has is seen at the first character of the first text or not at all. -/
theorem Parted.head? {p : Char → Bool} (h : Parted t y) (hp : ∀ c, isSpace c = true → p c = false) :
    (t ++ y).head?.any p = t.head?.any p := by
  cases t with
  | nil =>
    obtain ⟨d, z, rfl, hd⟩ := h.exists_space
    simp [hp d hd]
  | cons c t => rfl

/-- A word without separators stands in the first text if anywhere. -/
theorem Parted.dropPrefix? {w : Text} (h : Parted t y) (hw : ∀ c ∈ w, isSpace c = false) :
    Text.dropPrefix? w (t ++ y) = (Text.dropPrefix? w t).map (· ++ y) := by
  induction w generalizing t with
  | nil => rfl
  | cons c w ih =>
    obtain ⟨hc, hw⟩ := List.forall_mem_cons.1 hw
    cases t with
    | nil =>
      obtain ⟨d, z, rfl, hd⟩ := h.exists_space
      have hne : ¬ c = d := fun he => by rw [he, hd] at hc; exact Bool.noConfusion hc
      simp [Text.dropPrefix?, hne]
    | cons d t =>
      rw [List.cons_append, Text.dropPrefix?, Text.dropPrefix?]
      split
      · next he => exact ih (h.tail (he ▸ hc)) hw
      · rfl

/-! ### Escapes and names -/

/-- A separator is left out alike when the text goes on, if something is left behind it. -/
theorem dropSpace_append (h : dropSpace t ≠ []) : dropSpace (t ++ y) = dropSpace t ++ y := by
  cases t with
  | nil => exact absurd rfl h
  | cons c t =>
    rw [List.cons_append, dropSpace, dropSpace]
    split <;> rfl

/-- **An escape ends in front of what is left.** -/
theorem escape_of_parted (h : Parted t y) (hrest : (escape t).2 ≠ []) :
    escape (t ++ y) = ((escape t).1, (escape t).2 ++ y) := by
  have htake := (h.run (p := isHexDigit) fun _ => not_of_isSpace (by decide)).1
  simp only [escape] at hrest ⊢
  rw [htake]
  split at hrest
  · next hnone =>
    rw [if_pos hnone, if_pos hnone]
    cases t with
    | nil => exact absurd rfl hrest
    | cons c t => rfl
  · next hsome =>
    rw [if_neg hsome, if_neg hsome]
    have hle : ((t.takeWhile isHexDigit).take 6).length ≤ t.length :=
      (List.length_take_le' ..).trans (List.takeWhile_prefix _).length_le
    rw [List.drop_append_of_le_length hle, dropSpace_append hrest]

/-- Only a backslash at the very end may begin an escape or not. -/
theorem startsEscape_append_of_ne (ht : t ≠ ['\\']) (hne : t ≠ []) : startsEscape (t ++ y) = startsEscape t := by
  obtain ⟨c, t, rfl⟩ := List.exists_cons_of_ne_nil hne
  by_cases hc : c = '\\'
  · subst hc
    cases t with
    | nil => exact absurd rfl ht
    | cons d t =>
      by_cases hd : d = '\n'
      · subst hd; rfl
      · simp [startsEscape, hd]
  · rw [startsEscape_cons hc, List.cons_append, startsEscape_cons hc]

/-- Something behind the backslash decides whether an escape begins. -/
theorem startsEscape_cons_append (h : startsEscape (c :: t) = true → t ≠ []) :
    startsEscape (c :: (t ++ y)) = startsEscape (c :: t) := by
  refine startsEscape_append_of_ne (t := c :: t) (fun he => ?_) (List.cons_ne_nil c t)
  obtain ⟨rfl, rfl⟩ := List.cons.inj he
  exact h rfl rfl

/-- **A name ends in front of what is left.** -/
theorem name_of_parted (h : Parted t y) (hrest : (name t).2 ≠ []) :
    name (t ++ y) = ((name t).1, (name t).2 ++ y) := by
  fun_induction name t with
  | case1 => exact absurd rfl hrest
  | case2 c t hc chars rest hname ih =>
    rw [hname] at ih
    rw [List.cons_append, name, if_pos hc, ih (h.tail (isSpace_of_isNamePart hc)) hrest]
  | case3 c t hc he chars rest hname ih =>
    rw [hname] at ih
    have hescape : (escape t).2 ≠ [] := by
      intro hnil
      rw [hnil, name] at hname
      exact hrest (Prod.mk.inj hname).2.symm
    have ht : t ≠ [] := fun hnil => hescape (List.suffix_nil.1 (hnil ▸ escape_suffix t))
    have hpart := h.of_suffix (List.suffix_cons c t) ht
    rw [List.cons_append, name, if_neg hc, startsEscape_cons_append fun _ => ht, if_pos he,
      escape_of_parted hpart hescape, ih (hpart.of_suffix (escape_suffix t) hescape) hrest]
  | case4 c t hc he =>
    rw [List.cons_append, name, if_neg hc, startsEscape_cons_append fun hs => absurd hs he, if_neg he]

/-- A backslash at the end of the text is read as the end of a name, also behind a hyphen. -/
theorem name_backslash : (name ['\\']).2 = [] ∧ (name ['-', '\\']).2 = [] := by
  have hback : name ['\\'] = ([replacementChar], []) := by
    rw [name, if_neg (by decide), if_pos (by decide), show (escape []).2 = [] from rfl, name]
    rfl
  refine ⟨by rw [hback], ?_⟩
  rw [name, if_pos (by decide), hback]

/-- An escape begins where it does when the text goes on behind a separator. -/
theorem startsEscape_of_parted (h : Parted t y) (hrest : startsEscape t = true → (name t).2 ≠ []) :
    startsEscape (t ++ y) = startsEscape t := by
  cases t with
  | nil =>
    obtain ⟨d, z, rfl, hd⟩ := h.exists_space
    exact startsEscape_cons (by rintro rfl; exact absurd hd (by decide))
  | cons c t =>
    refine startsEscape_append_of_ne (fun he => ?_) (List.cons_ne_nil c t)
    rw [he] at hrest
    exact hrest rfl name_backslash.1

/-- **An identifier begins there or not** as it does where the first text stands alone. -/
theorem startsIdent_of_parted (h : Parted t y) (hrest : startsIdent t = true → (name t).2 ≠ []) :
    startsIdent (t ++ y) = startsIdent t := by
  have hspace {d : Char} (hd : isSpace d = true) : d ≠ '-' ∧ d ≠ '\\' ∧ isNameStart d = false := by
    rcases eq_of_isSpace hd with rfl | rfl | rfl <;> decide
  cases t with
  | nil =>
    obtain ⟨d, z, rfl, hd⟩ := h.exists_space
    obtain ⟨hhyphen, hback, hstart⟩ := hspace hd
    rw [List.nil_append, startsIdent_cons hhyphen hback, hstart]
    rfl
  | cons c t =>
    by_cases hc : c = '-'
    · subst hc
      cases t with
      | nil =>
        obtain ⟨d, z, rfl, hd⟩ := (h.tail (by decide)).exists_space
        obtain ⟨hhyphen, hback, hstart⟩ := hspace hd
        simp only [List.cons_append, List.nil_append, startsIdent, hstart, startsEscape_cons hback,
          beq_eq_false_iff_ne.2 hhyphen]
        decide
      | cons d t =>
        have hne : d :: t ≠ ['\\'] := by
          intro he
          rw [he] at hrest
          exact hrest (by decide) name_backslash.2
        rw [List.cons_append, List.cons_append, startsIdent, startsIdent, ← List.cons_append,
          startsEscape_append_of_ne hne (List.cons_ne_nil d t)]
    · by_cases hback : c = '\\'
      · subst hback
        have hne : '\\' :: t ≠ ['\\'] := by
          intro he
          rw [he] at hrest
          exact hrest (by decide) name_backslash.1
        have hstarts := startsEscape_append_of_ne (y := y) hne (List.cons_ne_nil _ t)
        simp only [List.cons_append] at hstarts ⊢
        simp [startsIdent, hstarts]
      · rw [List.cons_append, startsIdent_cons hc hback, startsIdent_cons hc hback]

/-- Where no name begins, none begins when the text goes on. -/
theorem not_startsIdent_of_parted (h : Parted t y) (hi : startsIdent t = false) : startsIdent (t ++ y) = false := by
  rw [startsIdent_of_parted h fun hs => absurd hs (by simp [hi]), hi]

/-! ### Numbers and ranges -/

/-- A run of digits is read alike when the text goes on behind a separator. -/
theorem digits_of_parted (h : Parted t y) : digits (t ++ y) = ((digits t).1, (digits t).2 ++ y) := by
  obtain ⟨htake, hdrop⟩ := h.run (p := Char.isDigit) fun _ => not_of_isSpace (by decide)
  rw [digits, htake, hdrop, digits]

/-- A sign is read alike when the text goes on behind a separator, and what is left is parted from it too. -/
theorem sign_of_parted (h : Parted t y) :
    sign (t ++ y) = ((sign t).1, (sign t).2 ++ y) ∧ Parted (sign t).2 y := by
  cases t with
  | nil =>
    obtain ⟨d, z, rfl, hd⟩ := h.exists_space
    refine ⟨?_, h⟩
    rcases eq_of_isSpace hd with rfl | rfl | rfl <;> rfl
  | cons c t =>
    by_cases hplus : c = '+'
    · subst hplus
      exact ⟨rfl, h.tail (by decide)⟩
    · by_cases hminus : c = '-'
      · subst hminus
        exact ⟨rfl, h.tail (by decide)⟩
      · have hsign (u : Text) : sign (c :: u) = ([], c :: u) := by
          unfold sign
          split
          · next he => exact absurd (List.cons.inj he).1 hplus
          · next he => exact absurd (List.cons.inj he).1 hminus
          · rfl
        rw [List.cons_append, hsign, hsign]
        exact ⟨rfl, h⟩

/-- A digit stands first or not, also when the text goes on behind a separator. -/
theorem startsDigit_of_parted (h : Parted t y) : startsDigit (t ++ y) = startsDigit t :=
  h.head? fun _ => not_of_isSpace (by decide)

/-- A fraction begins or not, also when the text goes on behind a separator. -/
theorem startsFraction_of_parted (h : Parted t y) : startsFraction (t ++ y) = startsFraction t := by
  have hother {c : Char} (u : Text) (hc : c ≠ '.') : startsFraction (c :: u) = false := by
    unfold startsFraction
    split
    · next he => exact absurd (List.cons.inj he).1 hc
    · rfl
  cases t with
  | nil =>
    obtain ⟨d, z, rfl, hd⟩ := h.exists_space
    exact hother z (by rintro rfl; exact absurd hd (by decide))
  | cons c t =>
    by_cases hc : c = '.'
    · subst hc
      exact startsDigit_of_parted (h.tail (by decide))
    · rw [List.cons_append, hother _ hc, hother _ hc]

/-- An exponent begins or not, also when the text goes on behind a separator. -/
theorem startsExponent_of_parted (h : Parted t y) : startsExponent (t ++ y) = startsExponent t := by
  have hother {c : Char} (u : Text) (hc : ¬ (c = 'e' ∨ c = 'E')) : startsExponent (c :: u) = false := by
    rw [startsExponent, exponent, if_neg hc]
    rfl
  cases t with
  | nil =>
    obtain ⟨d, z, rfl, hd⟩ := h.exists_space
    exact hother z (by rintro (rfl | rfl) <;> exact absurd hd (by decide))
  | cons c t =>
    by_cases hc : c = 'e' ∨ c = 'E'
    · have hspace : isSpace c = false := by rcases hc with rfl | rfl <;> decide
      obtain ⟨hsign, hpart⟩ := sign_of_parted (h.tail hspace)
      rw [List.cons_append, startsExponent, startsExponent, exponent, exponent, if_pos hc, if_pos hc, hsign]
      dsimp only
      rw [digits_of_parted hpart]
      rcases digits (sign t).2 with ⟨_ | ⟨d, ds⟩, after⟩ <;> rfl
    · rw [List.cons_append, hother _ hc, hother _ hc]

/-- A text that begins with no numeral begins with none when it goes on behind a separator. -/
theorem number?_eq_none_of_parted (h : Parted t y) (hnone : number? t = none) : number? (t ++ y) = none := by
  obtain ⟨hsign, hpart⟩ := sign_of_parted h
  rw [number?_eq_none_iff, startsNumber] at hnone ⊢
  rw [hsign, startsDigit_of_parted hpart, startsFraction_of_parted hpart, hnone]

/-- **A number ends in front of what is left.** -/
theorem number?_eq_some_of_parted {ds : Text} (h : Parted r y) (hsome : number? t = some (ds, r)) :
    number? (t ++ y) = some (ds, r ++ y) := by
  obtain ⟨rfl, hds, hends⟩ := number?_spec hsome
  rw [List.append_assoc]
  refine number?_append hds ⟨?_, ?_, ?_⟩
  · rw [startsDigit_of_parted h, hends.digit]
  · rw [startsFraction_of_parted h]
    exact hends.fraction
  · rw [startsExponent_of_parted h]
    exact hends.exponent

/-- A range of code points begins or not, also when the text goes on behind a separator. -/
theorem startsUnicodeRange_of_parted (h : Parted (c :: t) y) (hc : isSpace c = false) :
    startsUnicodeRange (c :: (t ++ y)) = startsUnicodeRange (c :: t) := by
  have hother {d : Char} (u : Text) (hd : d ≠ '+') : startsUnicodeRange (c :: d :: u) = false := by
    unfold startsUnicodeRange
    split
    · next he => exact absurd (List.cons.inj (List.cons.inj he).2).1 hd
    · rfl
  have ht := h.tail hc
  cases t with
  | nil =>
    obtain ⟨d, z, rfl, hd⟩ := ht.exists_space
    rw [List.nil_append, hother z (by rintro rfl; exact absurd hd (by decide))]
    rfl
  | cons d t =>
    by_cases hd : d = '+'
    · subst hd
      cases t with
      | nil =>
        obtain ⟨e, z, rfl, he⟩ := (ht.tail (by decide)).exists_space
        rcases eq_of_isSpace he with rfl | rfl | rfl <;> exact Bool.and_false _
      | cons e t => rfl
    · rw [List.cons_append, hother _ hd, hother _ hd]

/-- **A range of code points ends in front of what is left.** -/
theorem unicodeRange_of_parted (h : Parted t y) :
    unicodeRange (t ++ y) = ((unicodeRange t).1, (unicodeRange t).2 ++ y) := by
  have hhex : ∀ d, isSpace d = true → isHexDigit d = false := fun _ => not_of_isSpace (by decide)
  obtain ⟨hlow, hafter, hpart⟩ := h.run_take hhex 6
  simp only [unicodeRange, hlow, hafter]
  generalize t.drop ((t.takeWhile isHexDigit).take 6).length = u at hpart
  generalize (t.takeWhile isHexDigit).take 6 = low
  obtain ⟨hmarks, hrest, -⟩ := hpart.run_take (p := (· == '?'))
    (fun _ => not_of_isSpace (p := (· == '?')) (by decide)) (6 - low.length)
  rw [hmarks, hrest]
  split
  · rfl
  · -- only a hyphen and a digit behind it carry the range on
    cases u with
    | nil =>
      obtain ⟨d, z, rfl, hd⟩ := hpart.exists_space
      rcases eq_of_isSpace hd with rfl | rfl | rfl <;> rfl
    | cons c u =>
      by_cases hc : c = '-'
      · subst hc
        cases u with
        | nil =>
          obtain ⟨d, z, rfl, hd⟩ := (hpart.tail (by decide)).exists_space
          simp [hhex d hd]
        | cons d u =>
          obtain ⟨hhigh, hbehind, -⟩ := (hpart.tail (by decide)).run_take hhex 6
          simp only [List.cons_append] at hhigh hbehind ⊢
          cases hd : isHexDigit d with
          | true => simp only [if_true, hhigh, hbehind]
          | false => rfl
      · rw [List.cons_append]
        split
        · next he => exact absurd (List.cons.inj he).1 hc
        · split
          · next he => exact absurd (List.cons.inj he).1 hc
          · rfl

/-! ### Strings, addresses and comments -/

/-- A text with an end that is not empty is not empty. -/
theorem ne_nil_of_suffix (hr : r ≠ []) (hs : r <:+ t) : t ≠ [] :=
  fun ht => hr (List.suffix_nil.1 (ht ▸ hs))

/-- **A string ends in front of what is left.** -/
theorem quoted_of_parted {quote : Char} {before : Text} (h : Parted t y) (hrest : (quoted quote before t).2 ≠ []) :
    quoted quote before (t ++ y) = ((quoted quote before t).1, (quoted quote before t).2 ++ y) := by
  fun_induction quoted quote before t with
  | case1 => exact absurd rfl hrest
  | case2 before t => exact quoted_quote _ before (t ++ y)
  | case3 => exact absurd rfl hrest
  | case4 before r hq ih =>
    have hr := ne_nil_of_suffix hrest (quoted_suffix ..)
    rw [List.cons_append, List.cons_append, quoted.eq_def]
    simp only [if_neg hq, if_true]
    exact ih (h.of_suffix ⟨['\\', '\n'], rfl⟩ hr) hrest
  | case5 before d r hd hq ih =>
    have hescape := ne_nil_of_suffix hrest (quoted_suffix ..)
    have hpart : Parted (d :: r) y := h.of_suffix (List.suffix_cons ..) (List.cons_ne_nil d r)
    have hread := escape_of_parted hpart hescape
    rw [List.cons_append] at hread
    rw [List.cons_append, List.cons_append, quoted.eq_def]
    simp only [if_neg hq, if_true, if_neg hd, hread]
    exact ih (hpart.of_suffix (escape_suffix _) hescape) hrest
  | case6 before t hq hb =>
    rw [List.cons_append, quoted.eq_def]
    simp only [if_neg hq, if_neg hb, if_true]
  | case7 before c t hq hb hn ih =>
    have ht := ne_nil_of_suffix hrest (quoted_suffix ..)
    rw [List.cons_append, quoted_char before _ hq hb hn]
    exact ih (h.of_suffix (List.suffix_cons c t) ht) hrest

/-- A malformed address is skipped alike when the text goes on, if something is left behind it. -/
theorem skipBadUrl_append (hrest : skipBadUrl t ≠ []) : skipBadUrl (t ++ y) = skipBadUrl t ++ y := by
  fun_induction skipBadUrl t with
  | case1 => exact absurd rfl hrest
  | case2 t ih => exact ih hrest
  | case3 t => rfl
  | case4 c t hpair hc ih =>
    obtain ⟨d, t, rfl⟩ := List.exists_cons_of_ne_nil (ne_nil_of_suffix hrest (skipBadUrl_suffix t))
    rw [List.cons_append, skipBadUrl, if_neg hc, ih hrest]
    rintro u hb hu
    exact hpair t hb (by rw [(List.cons.inj hu).1])

/-- What follows the end of an address that is closed or broken off. -/
theorem closeUrl_append {value : Text} (hrest : (closeUrl value t).2 ≠ []) :
    closeUrl value (t ++ y) = ((closeUrl value t).1, (closeUrl value t).2 ++ y) := by
  unfold closeUrl at hrest ⊢
  cases hdrop : t.dropWhile isSpace with
  | nil => rw [hdrop] at hrest; exact absurd rfl hrest
  | cons c r =>
    have happend : (t ++ y).dropWhile isSpace = c :: (r ++ y) := by
      rw [(run_append (by simp [hdrop])).2, hdrop, List.cons_append]
    rw [hdrop] at hrest
    rw [happend]
    dsimp only at hrest ⊢
    split at hrest
    · next hc => rw [if_pos hc, if_pos hc]
    · next hc =>
      rw [if_neg hc, if_neg hc, ← List.cons_append, skipBadUrl_append hrest]

/-- **An address ends in front of what is left.** -/
theorem bareUrl_of_parted {before : Text} (h : Parted t y) (hrest : (bareUrl before t).2 ≠ []) :
    bareUrl before (t ++ y) = ((bareUrl before t).1, (bareUrl before t).2 ++ y) := by
  fun_induction bareUrl before t with
  | case1 => exact absurd rfl hrest
  | case2 before t => rw [List.cons_append, bareUrl, if_pos rfl]
  | case3 before c t hc hs => rw [List.cons_append, bareUrl, if_neg hc, if_pos hs, closeUrl_append hrest]
  | case4 before c t hc hs he ih =>
    have hescape := ne_nil_of_suffix hrest (bareUrl_suffix ..)
    have hpart := h.of_suffix (List.suffix_cons c t) (ne_nil_of_suffix hescape (escape_suffix t))
    have ht := ne_nil_of_suffix hescape (escape_suffix t)
    rw [List.cons_append, bareUrl, if_neg hc, if_neg hs, startsEscape_cons_append fun _ => ht, if_pos he,
      escape_of_parted hpart hescape]
    exact ih (hpart.of_suffix (escape_suffix t) hescape) hrest
  | case5 before c t hc hs he hbad =>
    rw [List.cons_append, bareUrl, if_neg hc, if_neg hs, startsEscape_cons_append fun h => absurd h he, if_neg he,
      if_pos hbad, skipBadUrl_append hrest]
  | case6 before c t hc hs he hbad ih =>
    have ht := ne_nil_of_suffix hrest (bareUrl_suffix ..)
    rw [List.cons_append, bareUrl, if_neg hc, if_neg hs, startsEscape_cons_append fun h => absurd h he, if_neg he,
      if_neg hbad]
    exact ih (h.of_suffix (List.suffix_cons c t) ht) hrest

/-- **Where an address may begin** there is a quote, or an address in front of what is left. -/
theorem url?_of_parted (h : Parted t y) (hrest : ∀ read, url? t = some read → read.2 ≠ []) :
    url? (t ++ y) = (url? t).map fun (tokens, r) => (tokens, r ++ y) := by
  unfold url? at hrest ⊢
  cases hdrop : t.dropWhile isSpace with
  | nil => rw [hdrop] at hrest; exact absurd rfl (hrest _ rfl)
  | cons c r =>
    have happend : (t ++ y).dropWhile isSpace = c :: (r ++ y) := by
      rw [(run_append (by simp [hdrop])).2, hdrop, List.cons_append]
    rw [hdrop] at hrest
    rw [happend]
    dsimp only at hrest ⊢
    split
    · rfl
    · next hc =>
      have hpart : Parted (c :: r) y := h.of_suffix (hdrop ▸ List.dropWhile_suffix _) (List.cons_ne_nil c r)
      rw [if_neg hc] at hrest
      rw [← List.cons_append, bareUrl_of_parted hpart (hrest _ rfl)]
      rfl

/-- A comment is skipped alike when the text goes on, if something is left behind it. -/
theorem skipComment_append (hrest : skipComment t ≠ []) : skipComment (t ++ y) = skipComment t ++ y := by
  fun_induction skipComment t with
  | case1 => exact absurd rfl hrest
  | case2 t => rfl
  | case3 c t hend ih =>
    obtain ⟨d, t, rfl⟩ := List.exists_cons_of_ne_nil (ne_nil_of_suffix hrest (skipComment_suffix t))
    rw [List.cons_append, skipComment, ih hrest]
    rintro u hc hu
    exact hend t hc (by rw [(List.cons.inj hu).1])

/-! ### Lexemes -/

/-- Where something is left behind what begins with a name, something is left behind the name. -/
theorem ReadsIdent.name_ne_nil {ls : List Lexeme} (h : ReadsIdent t (ls, r)) (hr : r ≠ []) : (name t).2 ≠ [] := by
  cases h with
  | address hname => simp [hname]
  | call hname => simp [hname]
  | ident hname => rwa [hname]

/-- What begins with a name is read alike when the text goes on behind a separator. -/
theorem ReadsIdent.of_parted {ls : List Lexeme} (h : ReadsIdent t (ls, r)) (hpart : Parted t y) (hr : r ≠ []) :
    ReadsIdent (t ++ y) (ls, r ++ y) := by
  have hsuffix := name_suffix t
  cases h with
  | @address n inner _ tokens hname hurl hread =>
    have happend : name (t ++ y) = (n, '(' :: (inner ++ y)) := by
      rw [name_of_parted hpart (by simp [hname]), hname]
      rfl
    rw [hname] at hsuffix
    have hinner := (hpart.of_suffix hsuffix (List.cons_ne_nil _ _)).tail (by decide)
    refine .address happend hurl ?_
    rw [url?_of_parted hinner fun read hfound => ?_, hread]
    · rfl
    · obtain rfl := Option.some.inj (hread.symm.trans hfound)
      exact hr
  | @call n _ hname hquoted =>
    have happend : name (t ++ y) = (n, '(' :: (r ++ y)) := by
      rw [name_of_parted hpart (by simp [hname]), hname]
      rfl
    rw [hname] at hsuffix
    have hinner := (hpart.of_suffix hsuffix (List.cons_ne_nil _ _)).tail (by decide)
    refine .call happend fun hurl => ?_
    have hnone := hquoted hurl
    rw [url?_of_parted hinner fun read hfound => absurd (hnone.symm.trans hfound) (by simp), hnone]
    rfl
  | ident hname hhead =>
    have happend := name_of_parted hpart (by rwa [hname])
    rw [hname] at happend
    refine .ident happend ?_
    rwa [List.head?_append_of_ne_nil r hr]

/-- What stands behind a numeral is read alike when the text goes on behind a separator. -/
theorem ReadsNumber.of_parted {ds : Text} {ls : List Lexeme} (h : ReadsNumber ds t (ls, r)) (hpart : Parted t y)
    (hr : r ≠ []) : ReadsNumber ds (t ++ y) (ls, r ++ y) := by
  cases h with
  | dimension hi =>
    have hread : ReadsNumber ds (t ++ y) _ := .dimension ((startsIdent_of_parted hpart fun _ => hr).trans hi)
    rwa [name_of_parted hpart hr] at hread
  | percentage => exact .percentage (r ++ y)
  | number hi hp =>
    refine .number (not_startsIdent_of_parted hpart hi) ?_
    rwa [List.head?_append_of_ne_nil r hr]

/-- A character that begins nothing longer begins nothing longer when the text goes on behind a separator. -/
theorem IsAlone.of_parted (h : IsAlone c t) (hpart : Parted t y) (ht : t ≠ []) : IsAlone c (t ++ y) := by
  have hhead : (t ++ y).head? = t.head? := List.head?_append_of_ne_nil t ht
  exact {
    opened := h.opened
    closed := h.closed
    atKeyword := fun hc => not_startsIdent_of_parted hpart (h.atKeyword hc)
    hash := fun hc => by
      have hs := Bool.or_eq_false_iff.1 (h.hash hc)
      rw [hhead, startsEscape_of_parted hpart fun h => absurd h (by simp [hs.2]), h.hash hc]
    quote := h.quote
    comment := hhead ▸ h.comment
    sheetMark := fun hc => by
      have hword := hpart.dropPrefix? (w := "!--".toList) (by decide)
      rw [dropPrefix?_eq_none.2 (h.sheetMark hc)] at hword
      exact dropPrefix?_eq_none.1 hword
    bar := hhead ▸ h.bar
    equals := hhead ▸ h.equals }

/-- What a single character begins is read alike when the text goes on behind a separator. -/
theorem ReadsMark.of_parted {ls : List Lexeme} (h : ReadsMark c t (ls, r)) (hpart : Parted t y) (hr : r ≠ []) :
    ReadsMark c (t ++ y) (ls, r ++ y) := by
  have ht := ne_nil_of_suffix hr h.suffix
  cases h with
  | opens b => exact .opens b (r ++ y)
  | closes b => exact .closes b (r ++ y)
  | atKeyword hs =>
    have hread := ReadsMark.atKeyword ((startsIdent_of_parted hpart fun _ => hr).trans hs)
    rwa [name_of_parted hpart hr] at hread
  | hash hs =>
    have hhead : (t ++ y).head? = t.head? := List.head?_append_of_ne_nil t ht
    rw [← hhead, ← startsEscape_of_parted hpart fun _ => hr] at hs
    have hread := ReadsMark.hash hs
    rwa [name_of_parted hpart hr, startsIdent_of_parted hpart fun _ => hr] at hread
  | quoted hq =>
    have hread := ReadsMark.quoted (t := t ++ y) hq
    rwa [quoted_of_parted hpart hr] at hread
  | comment u =>
    have hread := ReadsMark.comment (u ++ y)
    rwa [skipComment_append hr] at hread
  | sheetMark _ => exact .sheetMark (r ++ y)
  | bar _ => exact .bar (r ++ y)
  | equals hj => exact .equals hj
  | alone ha => exact .alone (ha.of_parted hpart ht)

/-- The checks that come first give the same when the text goes on behind a separator. -/
theorem IsPlain.of_parted (h : IsPlain c t) (hpart : Parted (c :: t) y) : IsPlain c (t ++ y) where
  space := h.space
  range := by rw [startsUnicodeRange_of_parted hpart h.space, h.range]
  arrow := by
    have hword := hpart.dropPrefix? (w := "-->".toList) (by decide)
    rw [dropPrefix?_eq_none.2 h.arrow] at hword
    exact dropPrefix?_eq_none.1 hword

/-- **What stands at the beginning of a text is read alike when the text goes on behind a separator,** if
something is left behind it. -/
theorem Reads.of_parted {ls : List Lexeme} (h : Reads c t (ls, r)) (hpart : Parted (c :: t) y) (hr : r ≠ []) :
    Reads c (t ++ y) (ls, r ++ y) := by
  generalize hread : (ls, r) = read at h
  cases h with
  | space hspace =>
    obtain ⟨rfl, rfl⟩ := Prod.mk.inj hread
    have happend := Reads.space (t := t ++ y) hspace
    rwa [(run_append hr).1, (run_append hr).2] at happend
  | @range _ u hrange =>
    obtain ⟨rfl, rfl⟩ := Prod.mk.inj hread
    have hc : isSpace c = false := by
      rcases eq_of_startsUnicodeRange hrange with rfl | rfl <;> decide
    have happend := Reads.range (c := c) (t := u ++ y) ((startsUnicodeRange_of_parted hpart hc).trans hrange)
    rwa [unicodeRange_of_parted ((hpart.tail hc).tail (by decide))] at happend
  | arrow u =>
    obtain ⟨rfl, rfl⟩ := Prod.mk.inj hread
    exact .arrow (r ++ y)
  | ident hplain hi h =>
    subst hread
    have hname : startsIdent (c :: t) = true → (name (c :: t)).2 ≠ [] := fun _ => h.name_ne_nil hr
    exact .ident (hplain.of_parted hpart) ((startsIdent_of_parted hpart hname).trans hi) (h.of_parted hpart hr)
  | @number _ _ ds rest _ hplain hi hn h =>
    subst hread
    have hbehind : Parted rest y := hpart.of_suffix ⟨ds, (number?_spec hn).1.symm⟩ (ne_nil_of_suffix hr h.suffix)
    exact .number (hplain.of_parted hpart) (not_startsIdent_of_parted hpart hi)
      (number?_eq_some_of_parted hbehind hn) (h.of_parted hbehind hr)
  | mark hplain hi hn h =>
    subst hread
    exact .mark (hplain.of_parted hpart) (not_startsIdent_of_parted hpart hi) (number?_eq_none_of_parted hpart hn)
      (h.of_parted (hpart.tail hplain.space) hr)

/-- **What begins a text stays the same when the text goes on,** as long as something is left. -/
theorem nextLexemes_of_parted (h : Parted (c :: t) y) (hrest : (nextLexemes c t).2 ≠ []) :
    nextLexemes c (t ++ y) = ((nextLexemes c t).1, (nextLexemes c t).2 ++ y) :=
  ((reads c t).of_parted h hrest).eq

end Css
end ThemeSheet
