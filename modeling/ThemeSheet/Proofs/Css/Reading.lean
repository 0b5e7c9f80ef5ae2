/-
# What the lexer reads at one place

The lexer tries its rules in an order and takes the piece of the first one that applies.
`Reads c t read` lists the rules, each with what the ones before it leave over, and
`ReadsIdent`, `ReadsNumber` and `ReadsMark` do so for what begins with a name, for what
stands behind a numeral and for single characters.
What is read at the beginning of `c :: t` is what one of the rules gives.
-/

import Mathlib.Tactic.ByContra
import ThemeSheet.Css.Lexer
import ThemeSheet.Text.Word

namespace ThemeSheet
namespace Css

variable {c : Char} {t : Text} {read : List Lexeme × Text}

/-! ### Names, calls and addresses -/

/-- What begins with a name is an address, a call or the name alone. -/
inductive ReadsIdent (t : Text) : List Lexeme × Text → Prop
  | address {n inner after : Text} {tokens : List Token} (hname : name t = (n, '(' :: inner))
      (hurl : isUrlName n = true) (hread : url? inner = some (tokens, after)) :
      ReadsIdent t (tokens.map .token, after)
  | call {n inner : Text} (hname : name t = (n, '(' :: inner)) (hquoted : isUrlName n = true → url? inner = none) :
      ReadsIdent t ([.calls n], inner)
  | ident {n r : Text} (hname : name t = (n, r)) (hr : r.head? ≠ some '(') : ReadsIdent t ([.token (.ident n)], r)

/-- What begins with a name is read as the rules say. -/
theorem ReadsIdent.eq (h : ReadsIdent t read) : identLexemes t = read := by
  rw [identLexemes]
  cases h with
  | address hname hurl hread => simp only [hname, if_pos hurl, hread]
  | @call n inner hname hquoted =>
    have hnone : (if isUrlName n = true then url? inner else none) = none := by
      split
      · next hurl => exact hquoted hurl
      · rfl
    simp only [hname, hnone]
  | ident hname hr =>
    rw [hname]
    dsimp only
    split
    · exact absurd rfl hr
    · rfl

/-- The reader of names keeps to the rules. -/
theorem readsIdent (t : Text) : ReadsIdent t (identLexemes t) := by
  obtain ⟨n, r, hname⟩ : ∃ n r, name t = (n, r) := ⟨_, _, rfl⟩
  rw [identLexemes, hname]
  dsimp only
  split
  · next inner =>
    by_cases hurl : isUrlName n = true
    · rw [if_pos hurl]
      cases hread : url? inner with
      | some found => exact .address hname hurl hread
      | none => exact .call hname fun _ => hread
    · rw [if_neg hurl]
      exact .call hname fun h => absurd h hurl
  · next hr =>
    refine .ident hname fun hhead => ?_
    obtain ⟨inner, rfl⟩ := List.head?_eq_some_iff.1 hhead
    exact hr inner rfl

/-! ### What stands behind a numeral -/

/-- A numeral goes on as a dimension or a percentage, or is a number alone. -/
inductive ReadsNumber (ds : Text) : Text → List Lexeme × Text → Prop
  | dimension {t : Text} (hi : startsIdent t = true) :
      ReadsNumber ds t ([.token (.dimension ds (name t).1)], (name t).2)
  | percentage (t : Text) : ReadsNumber ds ('%' :: t) ([.token (.percentage ds)], t)
  | number {t : Text} (hi : startsIdent t = false) (hp : t.head? ≠ some '%') :
      ReadsNumber ds t ([.token (.number ds)], t)

/-- What stands behind a numeral is read as the rules say. -/
theorem ReadsNumber.eq {ds : Text} (h : ReadsNumber ds t read) : numberLexemes ds t = read := by
  unfold numberLexemes
  cases h with
  | dimension hi => rw [if_pos hi]
  | percentage after => rfl
  | number hi hp =>
    rw [if_neg (by simp [hi])]
    split
    · exact absurd rfl hp
    · rfl

/-- The reader behind numerals keeps to the rules. -/
theorem readsNumber (ds t : Text) : ReadsNumber ds t (numberLexemes ds t) := by
  unfold numberLexemes
  split
  · next hi => exact .dimension hi
  · next hi =>
    split
    · next after => exact .percentage after
    · next hp =>
      refine .number (by simpa using hi) fun hhead => ?_
      obtain ⟨after, rfl⟩ := List.head?_eq_some_iff.1 hhead
      exact hp after rfl

/-! ### Single characters -/

/-- A character that begins nothing longer where `t` follows. -/
structure IsAlone (c : Char) (t : Text) : Prop where
  opened : Bracket.opened? c = none
  closed : Bracket.closed? c = none
  atKeyword : c = '@' → startsIdent t = false
  hash : c = '#' → (t.head?.any isNamePart || startsEscape t) = false
  quote : isQuote c = false
  comment : c = '/' → t.head? ≠ some '*'
  sheetMark : c = '<' → Text.beginsWith "!--".toList t = false
  bar : c = '|' → t.head? ≠ some '|'
  equals : joinsEquals c = true → t.head? ≠ some '='

/-- What a character begins that stands at the beginning of no name and no number. -/
inductive ReadsMark : Char → Text → List Lexeme × Text → Prop
  | opens (b : Bracket) (t : Text) : ReadsMark b.opening t ([.opens b], t)
  | closes (b : Bracket) (t : Text) : ReadsMark b.closing t ([.closes b], t)
  | atKeyword {t : Text} (h : startsIdent t = true) :
      ReadsMark '@' t ([.token (.atKeyword (name t).1)], (name t).2)
  | hash {t : Text} (h : (t.head?.any isNamePart || startsEscape t) = true) :
      ReadsMark '#' t ([.token (.hash (name t).1 (startsIdent t))], (name t).2)
  | quoted {q : Char} {t : Text} (h : isQuote q = true) :
      ReadsMark q t ((Css.quoted q [] t).1.map .token, (Css.quoted q [] t).2)
  | comment (t : Text) : ReadsMark '/' ('*' :: t) ([], skipComment t)
  | sheetMark (t : Text) : ReadsMark '<' ('!' :: '-' :: '-' :: t) ([.token (.literal "<!--".toList)], t)
  | bar (t : Text) : ReadsMark '|' ('|' :: t) ([.token (.literal "||".toList)], t)
  | equals {c : Char} {t : Text} (h : joinsEquals c = true) : ReadsMark c ('=' :: t) ([.token (.literal [c, '='])], t)
  | alone {c : Char} {t : Text} (h : IsAlone c t) : ReadsMark c t ([.token (.literal [c])], t)

/-- A character that opens a bracket is its opening character. -/
theorem Bracket.eq_opening {b : Bracket} (h : Bracket.opened? c = some b) : c = b.opening := by
  unfold Bracket.opened? at h
  grind [Bracket.opening]

/-- A character that closes a bracket is its closing character. -/
theorem Bracket.eq_closing {b : Bracket} (h : Bracket.closed? c = some b) : c = b.closing := by
  unfold Bracket.closed? at h
  grind [Bracket.closing]

/-- A character that begins nothing longer is a piece of its own. -/
theorem IsAlone.markLexemes_eq (h : IsAlone c t) : markLexemes c t = ([.token (.literal [c])], t) := by
  have hq : ¬ (c = '"' ∨ c = '\'') := by simpa [isQuote] using h.quote
  unfold markLexemes
  simp only [h.opened, h.closed]
  split
  · next hc => rw [if_neg (by simp [h.atKeyword hc])]
  · split
    · next hc => rw [if_neg (by simp [h.hash hc])]
    · split
      · exact absurd rfl (h.comment rfl)
      · have := h.sheetMark rfl
        simp [Text.beginsWith, Text.dropPrefix?] at this
      · exact absurd rfl (h.bar rfl)
      · next heq =>
        rw [if_neg]
        intro hj
        exact absurd rfl (h.equals hj)
      · rfl

/-- What a single character begins is read as the rules say. -/
theorem ReadsMark.eq (h : ReadsMark c t read) : markLexemes c t = read := by
  cases h with
  | opens b => cases b <;> rfl
  | closes b => cases b <;> rfl
  | atKeyword h => simp [markLexemes, Bracket.opened?, Bracket.closed?, h]
  | hash h => simp [markLexemes, Bracket.opened?, Bracket.closed?, h]
  | quoted h =>
    rcases (by simpa [isQuote] using h : c = '"' ∨ c = '\'') with rfl | rfl <;> rfl
  | comment t => rfl
  | sheetMark t => rfl
  | bar t => rfl
  | equals h =>
    simp only [joinsEquals, Bool.or_eq_true, beq_iff_eq] at h
    rcases h with (((rfl | rfl) | rfl) | rfl) | rfl <;> rfl
  | alone h => exact h.markLexemes_eq

/-- The reader of single characters keeps to the rules. -/
theorem readsMark (c : Char) (t : Text) : ReadsMark c t (markLexemes c t) := by
  suffices h : ∃ read, ReadsMark c t read by
    obtain ⟨read, h⟩ := h
    rwa [h.eq]
  by_contra hnone
  rw [not_exists] at hnone
  -- a character to which no other rule applies stands alone
  refine hnone _ (.alone ⟨?_, ?_, ?_, ?_, ?_, ?_, ?_, ?_, ?_⟩)
  · refine Option.eq_none_iff_forall_ne_some.2 fun b ho => ?_
    obtain rfl := Bracket.eq_opening ho
    exact hnone _ (.opens b t)
  · refine Option.eq_none_iff_forall_ne_some.2 fun b hc => ?_
    obtain rfl := Bracket.eq_closing hc
    exact hnone _ (.closes b t)
  · rintro rfl
    exact Bool.eq_false_iff.2 fun h => hnone _ (.atKeyword h)
  · rintro rfl
    exact Bool.eq_false_iff.2 fun h => hnone _ (.hash h)
  · exact Bool.eq_false_iff.2 fun h => hnone _ (.quoted h)
  · rintro rfl h
    obtain ⟨u, rfl⟩ := List.head?_eq_some_iff.1 h
    exact hnone _ (.comment u)
  · rintro rfl
    refine Bool.eq_false_iff.2 fun h => ?_
    obtain ⟨u, rfl⟩ := Text.beginsWith_iff.1 h
    exact hnone _ (.sheetMark u)
  · rintro rfl h
    obtain ⟨u, rfl⟩ := List.head?_eq_some_iff.1 h
    exact hnone _ (.bar u)
  · intro hj h
    obtain ⟨u, rfl⟩ := List.head?_eq_some_iff.1 h
    exact hnone _ (.equals hj)

/-! ### The rules in their order -/

/-- The three checks that come before any other piece is tried. -/
structure IsPlain (c : Char) (t : Text) : Prop where
  space : isSpace c = false
  range : startsUnicodeRange (c :: t) = false
  arrow : Text.beginsWith "-->".toList (c :: t) = false

/-- There is no rest behind a beginning exactly if the text does not begin with it. -/
theorem dropPrefix?_eq_none {p t : Text} : Text.dropPrefix? p t = none ↔ Text.beginsWith p t = false := by
  simp [Text.beginsWith]

/-- Behind the checks that come first, a name is tried, then a numeral, then a single character. -/
theorem IsPlain.nextLexemes_eq {c : Char} {t : Text} (h : IsPlain c t) :
    nextLexemes c t =
      if startsIdent (c :: t) then identLexemes (c :: t)
      else
        match number? (c :: t) with
        | some (ds, rest) => numberLexemes ds rest
        | none => markLexemes c t := by
  rw [nextLexemes, if_neg (by simp [h.space]), if_neg (by simp [h.range])]
  cases harrow : Text.dropPrefix? "-->".toList (c :: t) with
  | none => rfl
  | some r => exact absurd (harrow.symm.trans (dropPrefix?_eq_none.2 h.arrow)) (by simp)

/-- What stands at the beginning of `c :: t`, with the rest behind it. -/
inductive Reads : Char → Text → List Lexeme × Text → Prop
  | space {c : Char} {t : Text} (h : isSpace c = true) :
      Reads c t ([.token (.space (c :: t.takeWhile isSpace))], t.dropWhile isSpace)
  | range {c : Char} {t : Text} (h : startsUnicodeRange (c :: '+' :: t) = true) :
      Reads c ('+' :: t) ([.token (unicodeRange t).1], (unicodeRange t).2)
  | arrow (t : Text) : Reads '-' ('-' :: '>' :: t) ([.token (.literal "-->".toList)], t)
  | ident {c : Char} {t : Text} {read : List Lexeme × Text} (hplain : IsPlain c t) (hi : startsIdent (c :: t) = true)
      (h : ReadsIdent (c :: t) read) : Reads c t read
  | number {c : Char} {t ds rest : Text} {read : List Lexeme × Text} (hplain : IsPlain c t)
      (hi : startsIdent (c :: t) = false) (hn : number? (c :: t) = some (ds, rest)) (h : ReadsNumber ds rest read) :
      Reads c t read
  | mark {c : Char} {t : Text} {read : List Lexeme × Text} (hplain : IsPlain c t) (hi : startsIdent (c :: t) = false)
      (hn : number? (c :: t) = none) (h : ReadsMark c t read) : Reads c t read

/-- A range of code points begins with the letter u only. -/
theorem startsUnicodeRange_cons {c : Char} {t : Text} (h : c ≠ 'u' ∧ c ≠ 'U') :
    startsUnicodeRange (c :: t) = false := by
  unfold startsUnicodeRange
  split
  · next heq => simp_all
  · rfl

/-- What begins a range of code points is the letter u. -/
theorem eq_of_startsUnicodeRange (h : startsUnicodeRange (c :: t) = true) : c = 'u' ∨ c = 'U' := by
  by_contra hc
  rw [startsUnicodeRange_cons (not_or.1 hc)] at h
  exact Bool.false_ne_true h

/-- **A rule that applies is the one that is taken.** -/
theorem Reads.eq (h : Reads c t read) : nextLexemes c t = read := by
  cases h with
  | space h => rw [nextLexemes, if_pos h]
  | range h =>
    have hspace : ¬ isSpace c = true := by
      rcases eq_of_startsUnicodeRange h with rfl | rfl <;> decide
    rw [nextLexemes, if_neg hspace, if_pos h]
    rfl
  | arrow t => rfl
  | ident hplain hi h => rw [hplain.nextLexemes_eq, if_pos hi, h.eq]
  | number hplain hi hn h =>
    rw [hplain.nextLexemes_eq, if_neg (by simp [hi]), hn]
    exact h.eq
  | mark hplain hi hn h => rw [hplain.nextLexemes_eq, if_neg (by simp [hi]), hn, h.eq]

/-- **What is read at a place is what one of the rules gives.** -/
theorem reads (c : Char) (t : Text) : Reads c t (nextLexemes c t) := by
  suffices h : ∃ read, Reads c t read by
    obtain ⟨read, h⟩ := h
    rwa [h.eq]
  by_contra hnone
  rw [not_exists] at hnone
  -- where the first three rules do not apply, one of the others does
  have hplain : IsPlain c t := by
    refine ⟨Bool.eq_false_iff.2 fun h => hnone _ (.space h), Bool.eq_false_iff.2 fun h => ?_,
      Bool.eq_false_iff.2 fun h => ?_⟩
    · have hs := h
      unfold startsUnicodeRange at hs
      split at hs
      · next heq =>
        obtain ⟨rfl, rfl⟩ := List.cons.inj heq
        exact hnone _ (.range h)
      · exact Bool.noConfusion hs
    · obtain ⟨u, hu⟩ := Text.beginsWith_iff.1 h
      obtain ⟨rfl, rfl⟩ := List.cons.inj hu
      exact hnone _ (.arrow u)
  cases hi : startsIdent (c :: t) with
  | true => exact hnone _ (.ident hplain hi (readsIdent _))
  | false =>
    cases hn : number? (c :: t) with
    | some found => exact hnone _ (.number hplain hi hn (readsNumber ..))
    | none => exact hnone _ (.mark hplain hi hn (readsMark c t))

end Css
end ThemeSheet
