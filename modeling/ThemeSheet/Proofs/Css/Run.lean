/-
# The written form of a run of pieces

What stands in a source, piece behind piece, is written so that the same pieces are read
again: the written form of what follows a piece is an echo of what follows it in the
source, or an empty comment keeps the two apart.
-/

import ThemeSheet.Proofs.Css.Respelling
import ThemeSheet.Text.Blank

namespace ThemeSheet
namespace Css

/-! ### Runs of pieces of a source -/

/-- **The lexemes stand in the source at `r`, and `q` follows them.**  The brackets that the end of
the source closes stand nowhere. -/
inductive Sourced (q : Text) : List Lexeme → Text → Prop
  | nil : Sourced q [] q
  | piece {l : Lexeme} {s r : Text} {ls : List Lexeme} : Spells l s r → Sourced q ls r →
      Sourced q (l :: ls) (s ++ r)
  | closing {b : Bracket} {ls : List Lexeme} : Sourced q ls [] → Sourced q (.closes b :: ls) []

/-- A text without backslashes and null characters whose only blanks are separators. -/
def IsSource (t : Text) : Prop :=
  ∀ c ∈ t, c ≠ '\\' ∧ c ≠ '\x00' ∧ (isBlank c = true → isSpace c = true)

/-- The beginning of a source is a source. -/
theorem IsSource.left {s t : Text} (h : IsSource (s ++ t)) : IsSource s := fun c hc =>
  h c (List.mem_append_left _ hc)

/-- The end of a source is a source. -/
theorem IsSource.right {s t : Text} (h : IsSource (s ++ t)) : IsSource t := fun c hc =>
  h c (List.mem_append_right _ hc)

/-- A source holds no backslash. -/
theorem IsSource.noEscape {t : Text} (h : IsSource t) : '\\' ∉ t := fun hm => (h _ hm).1 rfl

/-- A source ends its lines with line feeds only. -/
theorem IsSource.lineEnds {t : Text} (h : IsSource t) : ∀ c ∈ t, c ≠ '\r' ∧ c ≠ '\x0c' := by
  intro c hc
  have hblank := (h c hc).2.2
  constructor <;> rintro rfl <;> exact absurd (hblank (by decide)) (by decide)

/-! ### How the written form of a piece begins -/

/-- A lexeme that does not end in an escape is written tightly. -/
theorem Lexeme.tight_of_not_endsInEscape {l : Lexeme} (h : l.endsInEscape = false) : l.tight = l.written := by
  rw [l.written_eq_tight, h, if_neg (by simp), List.append_nil]

/-- A lexeme that ends in an escape is a dimension with the letter e as its unit. -/
theorem Lexeme.endsInEscape_eq_true {l : Lexeme} (h : l.endsInEscape = true) :
    ∃ ds u, l = .token (.dimension ds u) ∧ (u = ['e'] ∨ u = ['E']) ∧ l.tight = ds ++ "\\65".toList := by
  unfold Lexeme.endsInEscape at h
  split at h
  · next ds u =>
    refine ⟨ds, u, rfl, ?_, if_pos h⟩
    cases u with
    | nil => simp [isExponentLike] at h
    | cons c u =>
      obtain ⟨h1, h2⟩ := Bool.and_eq_true_iff.1 h
      rw [List.tail_cons, List.isEmpty_iff] at h2
      subst h2
      simpa [isExponentLike] using h1
  · simp at h

/-- The tight form of a spelled lexeme ends every piece that its spelling ends. -/
theorem Spells.echo_tight {l : Lexeme} {s r t : Text} (h : Spells l s r) (hb : '\\' ∉ s)
    (he : Echo r t) : Echo (s ++ r) (l.tight ++ t) := by
  cases hesc : l.endsInEscape with
  | false => rw [Lexeme.tight_of_not_endsInEscape hesc]; exact h.echo hb he
  | true =>
    obtain ⟨ds, u, rfl, hu, htight⟩ := Lexeme.endsInEscape_eq_true hesc
    rw [htight]
    cases h with
    | dimension =>
      rw [List.append_assoc, List.append_assoc]
      refine Echo.append ?_ ds
      rcases hu with rfl | rfl <;> exact .escape (by decide)
    | escapedUnit => exact absurd hb (by simp)
    | bareUnit => exact absurd hb (by simp)
    | unicodeRange _ hread =>
      obtain ⟨_, _, htok, -⟩ := unicodeRange_spec (_ ++ r)
      rw [hread] at htok
      exact absurd htok (by simp)

/-- What is read as a range of code points is one. -/
theorem Spells.isRange {s r : Text} {tok : Token} (h : Css.unicodeRange (s ++ r) = (tok, r)) :
    ∃ first last, tok = .unicodeRange first last := by
  obtain ⟨first, last, htok, -⟩ := unicodeRange_spec (s ++ r)
  exact ⟨first, last, by rw [h] at htok; exact htok⟩

/-- **The written form of a piece begins as the piece does,** but for quotes, addresses and ranges. -/
theorem Spells.front {l : Lexeme} {s r : Text} (h : Spells l s r) (hb : '\\' ∉ s) :
    ∃ d s' c t, s = d :: s' ∧ l.tight = c :: t ∧ (c = d ∨ c = '"' ∨ c = 'u' ∨ c = 'U') := by
  have hsame : ∀ {w : Text}, s ≠ [] → l.tight = s ++ w → ∃ d s' c t, s = d :: s' ∧ l.tight = c :: t ∧
      (c = d ∨ c = '"' ∨ c = 'u' ∨ c = 'U') := fun {w} hne hw => by
    obtain ⟨d, s', rfl⟩ := List.exists_cons_of_ne_nil hne
    exact ⟨d, s', d, s' ++ w, rfl, hw, .inl rfl⟩
  cases h with
  | ident hn => exact hsame hn.ne_nil (hn.written_ident.trans (List.append_nil _).symm)
  | atKeyword hn => exact hsame (by simp) (hn.written_atKeyword.trans (List.append_nil _).symm)
  | @hash n _ hne hn => exact hsame (by simp) ((written_hash_eq hn).trans (List.append_nil _).symm)
  | number hds => exact hsame hds.ne_nil (List.append_nil _).symm
  | percentage hds => exact hsame (by simp) (List.append_nil _).symm
  | @dimension ds u _ hds hu =>
    obtain ⟨d, ds', rfl⟩ := List.exists_cons_of_ne_nil hds.ne_nil
    have htight : ∃ t, (Lexeme.token (.dimension (d :: ds') u)).tight = d :: t := by
      rw [Lexeme.tight]
      split <;> exact ⟨_, rfl⟩
    obtain ⟨t, ht⟩ := htight
    exact ⟨d, ds' ++ u, d, t, rfl, ht, .inl rfl⟩
  | escapedUnit => exact absurd hb (by simp)
  | bareUnit => exact absurd hb (by simp)
  | unicodeRange _ hread =>
    obtain ⟨first, last, rfl⟩ := Spells.isRange hread
    exact ⟨_, _, 'U', _, rfl, rfl, .inr (.inr (.inr rfl))⟩
  | quoted => exact ⟨_, _, '"', _, rfl, rfl, .inr (.inl rfl)⟩
  | string => exact ⟨_, _, '"', _, rfl, rfl, .inr (.inl rfl)⟩
  | @url n a v b _ hn =>
    obtain ⟨d, s', hd⟩ := List.exists_cons_of_ne_nil hn.ne_nil
    exact ⟨d, s' ++ _, 'u', _, by rw [hd]; rfl, rfl, .inr (.inr (.inl rfl))⟩
  | space hne => exact hsame hne (List.append_nil _).symm
  | mark => exact hsame (by simp) (List.append_nil _).symm
  | combination hcs => exact hsame (by rintro rfl; revert hcs; decide) (List.append_nil _).symm
  | opens b => exact hsame (by simp) (List.append_nil _).symm
  | closes b => exact hsame (by simp) (List.append_nil _).symm
  | calls hn => exact hsame (by simp) (hn.written_calls.trans (List.append_nil _).symm)

/-! ### Runs of pieces in a source -/

variable {q r k : Text} {ls : List Lexeme} {before : Option Kind}

/-- What stands first is an empty comment or the first piece. -/
theorem tightBehind_cons (before : Option Kind) (l : Lexeme) (ls : List Lexeme) (k : Text) :
    ∃ w t, tightBehind before (l :: ls) ++ k = fusionGap before l.kind? ++ (w ++ t) ∧
      (ls = [] ∧ w = l.tight ∧ t = k ∨
        ls ≠ [] ∧ w = l.written ∧ t = tightBehind l.kindBehind? ls ++ k) := by
  cases ls with
  | nil => exact ⟨l.tight, k, by rw [tightBehind, List.append_assoc], .inl ⟨rfl, rfl, rfl⟩⟩
  | cons m ls =>
    exact ⟨l.written, _, by rw [tightBehind, List.append_assoc, List.append_assoc], .inr ⟨by simp, rfl, rfl⟩⟩

/-- A gap is empty or an empty comment. -/
theorem fusionGap_eq (a b : Option Kind) : fusionGap a b = [] ∨ fusionGap a b = "/**/".toList := by
  unfold fusionGap
  split
  · split
    · exact .inr rfl
    · exact .inl rfl
  · exact .inl rfl

/-- **The written form of what stands in a source is an echo of it.** -/
theorem Sourced.echo (h : Sourced q ls r) (hr : IsSource r) (hk : IsStill k) (before : Option Kind) :
    Echo r (tightBehind before ls ++ k) := by
  induction h generalizing before with
  | nil => exact .still hk
  | @piece l s r ls hs h ih =>
    obtain ⟨w, t, htext, hw⟩ := tightBehind_cons before l ls k
    rw [htext]
    rcases fusionGap_eq before l.kind? with hgap | hgap
    · rw [hgap, List.nil_append]
      rcases hw with ⟨rfl, rfl, rfl⟩ | ⟨-, rfl, rfl⟩
      · exact hs.echo_tight hr.left.noEscape (by cases h; exact .still hk)
      · exact hs.echo hr.left.noEscape (ih hr.right _)
    · rw [hgap]
      exact .still (by rintro c ⟨⟩; decide)
  | @closing b ls h ih =>
    refine .still ?_
    obtain ⟨w, t, htext, hw⟩ := tightBehind_cons before (.closes b) ls k
    have hgap : fusionGap before (Lexeme.closes b).kind? = [] := by cases before <;> rfl
    have hb : w = [b.closing] := by rcases hw with ⟨-, rfl, -⟩ | ⟨-, rfl, -⟩ <;> rfl
    rw [htext, hgap, hb]
    rintro c ⟨⟩
    cases b <;> decide

/-- Where no separator stands in the source, none stands in its written form. -/
theorem Sourced.head_not_isSpace (h : Sourced q ls r) (hr : IsSource r) (hne : ls ≠ [])
    (hspace : r.head?.any isSpace = false) :
    (tightBehind before ls ++ k).head?.any isSpace = false := by
  cases h with
  | nil => exact absurd rfl hne
  | @piece l s r ls hs h =>
    obtain ⟨d, s', c, t, rfl, htight, hc⟩ := hs.front hr.left.noEscape
    obtain ⟨w, u, htext, hw⟩ := tightBehind_cons before l ls k
    have hw' : ∃ v, w = c :: v := by
      rcases hw with ⟨-, rfl, -⟩ | ⟨-, rfl, -⟩
      · exact ⟨t, htight⟩
      · exact ⟨_, by rw [l.written_eq_tight, htight]; rfl⟩
    obtain ⟨v, rfl⟩ := hw'
    rw [htext]
    rcases fusionGap_eq before l.kind? with hgap | hgap
    · rw [hgap]
      rcases hc with rfl | rfl | rfl | rfl
      · exact hspace
      all_goals rfl
    · rw [hgap]; rfl
  | @closing b ls h =>
    obtain ⟨w, t, htext, hw⟩ := tightBehind_cons before (.closes b) ls k
    have hgap : fusionGap before (Lexeme.closes b).kind? = [] := by cases before <;> rfl
    have hb : w = [b.closing] := by rcases hw with ⟨-, rfl, -⟩ | ⟨-, rfl, -⟩ <;> rfl
    rw [htext, hgap, hb]
    cases b <;> rfl

/-! ### Ranges and what stands behind them -/

/-- A hexadecimal digit is a letter or a digit. -/
theorem isNameStart_or_isDigit_of_isHexDigit {c : Char} (h : isHexDigit c = true) :
    isNameStart c = true ∨ c.isDigit = true := by
  simp only [isHexDigit, hexValue?] at h
  simp only [isNameStart]
  delta Char.isAlpha Char.isUpper Char.isLower
  simp only [Char.isDigit, Bool.or_eq_true, Bool.and_eq_true, decide_eq_true_eq, ge_iff_le,
    UInt32.le_iff_toNat_le, Char.toNat] at *
  simp at *
  grind

/-- A character that is a piece of its own is no hexadecimal digit. -/
theorem IsMark.not_isHexDigit {c : Char} (h : IsMark c r) : isHexDigit c = false := by
  cases hx : isHexDigit c with
  | false => rfl
  | true =>
    rcases isNameStart_or_isDigit_of_isHexDigit hx with hc | hc
    · have hb : c ≠ '\\' := ne_of_isNamePart (isNamePart_of_isNameStart hc) (by decide)
      have := h.ident
      rw [startsIdent_cons (ne_hyphen_of_isNameStart hc) hb, hc] at this
      exact Bool.noConfusion this
    · have := h.number
      rw [startsNumber_of_startsDigit (.inl (by simpa [startsDigit] using hc))] at this
      exact Bool.noConfusion this

/-- Combinations begin with neither a hexadecimal digit nor a question mark, and with a hyphen only before
another one. -/
theorem front_combination : ∀ cs ∈ combinations, cs ≠ [] ∧ isHexDigit (cs.headD '?') = false ∧
    cs.headD '?' ≠ '?' ∧ (cs.headD '?' = '-' → cs.tail.head? = some '-') := by
  decide

/-- **What may stand directly behind a range or a hyphen** begins with no digit; a hyphen stands alone
or before another one. -/
theorem Spells.front_not_isHexDigit {a : Kind} {l : Lexeme} {s : Text} (h : Spells l s r) (hb : '\\' ∉ s)
    (ha : a = .unicodeRange ∨ a = .mark '-') (hgap : fusionGap (some a) l.kind? = []) :
    ∃ c v, l.tight = c :: v ∧ isHexDigit c = false ∧ (c = '?' → l = .token (.literal ['?'])) ∧
      (c = '-' → l = .token (.literal ['-']) ∨ ∃ v', v = '-' :: v') := by
  have hfused : ∀ {b : Kind}, Kind.unicodeRange.fuses b = true → (Kind.mark '-').fuses b = true →
      l.kind? = some b → False := fun h1 h2 hb => by
    rw [hb] at hgap
    rcases ha with rfl | rfl
    · simp [fusionGap, h1] at hgap
    · simp [fusionGap, h2] at hgap
  cases h with
  | ident => exact (hfused (b := .ident) (by decide) (by decide) rfl).elim
  | atKeyword => exact ⟨'@', _, rfl, by decide, by simp, by simp⟩
  | hash => exact ⟨'#', _, rfl, by decide, by simp, by simp⟩
  | number => exact (hfused (b := .number) (by decide) (by decide) rfl).elim
  | percentage => exact (hfused (b := .percentage) (by decide) (by decide) rfl).elim
  | dimension => exact (hfused (b := .dimension) (by decide) (by decide) rfl).elim
  | escapedUnit => exact absurd hb (by simp)
  | bareUnit => exact absurd hb (by simp)
  | unicodeRange _ hread =>
    obtain ⟨first, last, rfl⟩ := Spells.isRange hread
    exact ⟨'U', _, rfl, by decide, by simp, by simp⟩
  | quoted => exact ⟨'"', _, rfl, by decide, by simp, by simp⟩
  | string => exact ⟨'"', _, rfl, by decide, by simp, by simp⟩
  | url => exact ⟨'u', _, rfl, by decide, by simp, by simp⟩
  | space hne hrun =>
    obtain ⟨c, v, rfl⟩ := List.exists_cons_of_ne_nil hne
    have hc : (c = ' ' ∨ c = '\n') ∨ c = '\t' := by simpa [isSpace] using hrun c (by simp)
    rcases hc with (rfl | rfl) | rfl <;> exact ⟨_, v, rfl, by decide, by simp, by simp⟩
  | @mark c _ hm =>
    refine ⟨c, [], rfl, hm.not_isHexDigit, ?_, ?_⟩
    · rintro rfl; rfl
    · rintro rfl; exact .inl rfl
  | combination hcs =>
    obtain ⟨hne, hhex, hmark, hhyphen⟩ := front_combination s hcs
    obtain ⟨c, v, rfl⟩ := List.exists_cons_of_ne_nil hne
    exact ⟨c, v, rfl, hhex, fun h => absurd h hmark,
      fun h => .inr (List.head?_eq_some_iff.1 (hhyphen h))⟩
  | opens b => cases b <;> exact ⟨_, _, rfl, by decide, by simp [Bracket.opening], by simp [Bracket.opening]⟩
  | closes b => cases b <;> exact ⟨_, _, rfl, by decide, by simp [Bracket.closing], by simp [Bracket.closing]⟩
  | calls => exact (hfused (b := .call) (by decide) (by decide) rfl).elim

/-- A character that carries no range on ends one. -/
theorem rangeEnds_cons {c : Char} {t : Text} (h1 : isHexDigit c = false) (h2 : c ≠ '?')
    (h3 : c = '-' → t.head?.any isHexDigit = false) : RangeEnds (c :: t) := by
  refine ⟨by simpa using h1, by simpa using h2, ?_⟩
  rintro d u h
  obtain ⟨rfl, rfl⟩ := List.cons.inj h
  simpa using h3 rfl

/-- A still text carries no range on. -/
theorem rangeEnds_of_isStill (hk : IsStill k) : RangeEnds k := by
  cases k with
  | nil => exact ⟨rfl, by simp, by simp⟩
  | cons c k =>
    have hall : ∀ d ∈ ['"', '/', ' ', '\n', ';', ')', ']', '\x7d'],
        isHexDigit d = false ∧ d ≠ '?' ∧ d ≠ '-' := by decide
    obtain ⟨h1, h2, h3⟩ := hall c (isStill_iff.1 (hk c rfl))
    exact rangeEnds_cons h1 h2 fun h => absurd h h3

/-- The written form of pieces behind one with which none of them fuses begins with the first piece. -/
theorem tightBehind_front {a : Kind} {l : Lexeme} {c : Char} {v : Text} (ls : List Lexeme) (k : Text)
    (hgap : fusionGap (some a) l.kind? = []) (htight : l.tight = c :: v) :
    ∃ u, tightBehind (some a) (l :: ls) ++ k = c :: (v ++ u) := by
  obtain ⟨w, t, htext, hw⟩ := tightBehind_cons (some a) l ls k
  rw [htext, hgap, List.nil_append]
  rcases hw with ⟨-, rfl, -⟩ | ⟨-, rfl, -⟩
  · exact ⟨t, by rw [htight]; rfl⟩
  · exact ⟨(if l.endsInEscape then [' '] else []) ++ t, by rw [l.written_eq_tight, htight]; simp⟩

/-- Lexemes with a gap before them are still. -/
theorem tightBehind_gap {a : Kind} {l : Lexeme} (ls : List Lexeme) (k : Text)
    (hgap : fusionGap (some a) l.kind? = "/**/".toList) : IsStill (tightBehind (some a) (l :: ls) ++ k) := by
  obtain ⟨w, t, htext, -⟩ := tightBehind_cons (some a) l ls k
  intro c hc
  rw [htext, hgap] at hc
  obtain rfl := Option.some.inj hc
  decide

/-- A closing bracket is still. -/
theorem tightBehind_closes {a : Kind} (b : Bracket) (ls : List Lexeme) (k : Text) :
    IsStill (tightBehind (some a) (.closes b :: ls) ++ k) := by
  obtain ⟨u, hu⟩ := tightBehind_front (a := a) (l := .closes b) ls k rfl rfl
  intro c hc
  rw [hu] at hc
  obtain rfl := Option.some.inj hc
  cases b <;> decide

/-- No digit stands behind a hyphen that is a mark. -/
theorem Sourced.not_startsHexDigit (h : Sourced q ls r) (hr : IsSource r) (hk : IsStill k) :
    (tightBehind (some (.mark '-')) ls ++ k).head?.any isHexDigit = false := by
  cases h with
  | nil => exact (rangeEnds_of_isStill hk).digit
  | @piece l s r ls hs h =>
    rcases fusionGap_eq (some (.mark '-')) l.kind? with hgap | hgap
    · obtain ⟨c, v, htight, hhex, -⟩ := hs.front_not_isHexDigit hr.left.noEscape (.inr rfl) hgap
      obtain ⟨u, hu⟩ := tightBehind_front ls k hgap htight
      rw [hu]
      simpa using hhex
    · exact (rangeEnds_of_isStill (tightBehind_gap ls k hgap)).digit
  | closing => exact (rangeEnds_of_isStill (tightBehind_closes _ _ _)).digit

/-- **A range ends before the written form of what stands behind it.** -/
theorem Sourced.rangeEnds (h : Sourced q ls r) (hr : IsSource r) (hk : IsStill k) :
    RangeEnds (tightBehind (some .unicodeRange) ls ++ k) := by
  cases h with
  | nil => exact rangeEnds_of_isStill hk
  | @piece l s r ls hs h =>
    rcases fusionGap_eq (some .unicodeRange) l.kind? with hgap | hgap
    · obtain ⟨c, v, htight, hhex, hmark, hhyphen⟩ :=
        hs.front_not_isHexDigit hr.left.noEscape (.inl rfl) hgap
      have hne : c ≠ '?' := fun hc => by
        rw [hmark hc] at hgap
        exact nomatch (show "/**/".toList = [] from hgap)
      by_cases hlone : l = .token (.literal ['-'])
      · subst hlone
        have htext : tightBehind (some .unicodeRange) (.token (.literal ['-']) :: ls) ++ k =
            '-' :: (tightBehind (some (.mark '-')) ls ++ k) := by
          cases ls <;> rfl
        rw [htext]
        exact rangeEnds_cons (by decide) (by decide) fun _ => h.not_startsHexDigit hr.right hk
      · obtain ⟨u, hu⟩ := tightBehind_front ls k hgap htight
        rw [hu]
        refine rangeEnds_cons hhex hne fun hc => ?_
        obtain ⟨v', rfl⟩ := (hhyphen hc).resolve_left hlone
        rfl
    · exact rangeEnds_of_isStill (tightBehind_gap ls k hgap)
  | closing => exact rangeEnds_of_isStill (tightBehind_closes _ _ _)

/-- **A piece that begins with a quote is a string, and one that begins with a separator a run of
them.** -/
theorem Spells.string_or_space {l : Lexeme} {s : Text} (h : Spells l s r) (hb : '\\' ∉ s)
    (hq : s.head?.any (fun c => isQuote c || isSpace c) = true) :
    (∃ v, l = .token (.string v true)) ∨
      l = .token (.space s) ∧ (∀ c ∈ s, isSpace c = true) ∧ r.head?.any isSpace = false := by
  have hclass : ∀ {p : Char → Bool} {c : Char} {t : Text},
      (∀ d ∈ ['"', '\'', ' ', '\n', '\t'], p d = false) → p c = true →
      (c :: t).head?.any (fun c => isQuote c || isSpace c) = true → False := by
    intro p c t hp hc hq
    have hmem : c ∈ ['"', '\'', ' ', '\n', '\t'] := by
      simpa [isQuote, isSpace, or_assoc] using hq
    rw [hp c hmem] at hc
    exact Bool.noConfusion hc
  have hident : ∀ {n t : Text}, IsIdent n →
      (n ++ t).head?.any (fun c => isQuote c || isSpace c) = true → False := by
    intro n t hn hq
    obtain ⟨c, u, rfl, hc⟩ := hn.eq_cons
    exact hclass (p := isNamePart) (by decide) hc hq
  have hnumeral : ∀ {ds t : Text}, IsNumeral ds →
      (ds ++ t).head?.any (fun c => isQuote c || isSpace c) = true → False := by
    intro ds t hds hq
    rcases hds.shape with ⟨c, u, rfl, hc⟩ | ⟨x, c, u, rfl, hx, -⟩
    · exact hclass (p := fun c => c.isDigit || c == '.') (by decide) (by simpa using hc) hq
    · exact hclass (p := fun c => c == '+' || c == '-') (by decide) (by simpa using hx) hq
  cases h with
  | ident hn => exact (hident (t := []) hn (by rw [List.append_nil]; exact hq)).elim
  | atKeyword => exact absurd (show false = true from hq) Bool.false_ne_true
  | hash => exact absurd (show false = true from hq) Bool.false_ne_true
  | number hds => exact (hnumeral (t := []) hds (by rw [List.append_nil]; exact hq)).elim
  | percentage hds => exact (hnumeral hds hq).elim
  | dimension hds => exact (hnumeral hds hq).elim
  | escapedUnit => exact absurd hb (by simp)
  | bareUnit => exact absurd hb (by simp)
  | @unicodeRange u s _ _ hstart =>
    obtain ⟨c, t, heq, hc⟩ := startsUnicodeRange_eq_true hstart
    rw [(List.cons.inj heq).1] at hq
    exact (hclass (p := isNameStart) (by decide) hc hq).elim
  | quoted => exact .inl ⟨_, rfl⟩
  | string => exact .inl ⟨_, rfl⟩
  | url hn => exact (hident hn hq).elim
  | space _ hrun hr => exact .inr ⟨rfl, hrun, hr⟩
  | mark hm => simp [hm.quote, hm.space] at hq
  | combination hcs =>
    have hall : ∀ cs ∈ combinations, cs.head?.any (fun c => isQuote c || isSpace c) = false := by decide
    rw [hall s hcs] at hq
    exact Bool.noConfusion hq
  | opens b => cases b <;> exact absurd hq (by decide)
  | closes b => cases b <;> exact absurd hq (by decide)
  | calls hn => exact (hident hn hq).elim

/-- A quote is no separator. -/
theorem not_isSpace_of_isQuote {c : Char} (h : isQuote c = true) : isSpace c = false := by
  have : c = '"' ∨ c = '\'' := by simpa [isQuote] using h
  rcases this with rfl | rfl <;> decide

/-- A string in the source is a string in double quotes in the written form. -/
theorem Sourced.head?_eq_quote (hgap : ∀ b, fusionGap before b = []) (h : Sourced q ls r) (hr : IsSource r)
    (hq : r.head?.any isQuote = true) (hclose : ∃ b, .closes b ∈ ls) :
    (tightBehind before ls ++ k).head? = some '"' := by
  cases h with
  | nil => simp at hclose
  | @piece l s r ls hs h =>
    obtain ⟨d, s', c, t, rfl, -, -⟩ := hs.front hr.left.noEscape
    have hd : isQuote d = true := by simpa using hq
    obtain ⟨v, rfl⟩ : ∃ v, l = .token (.string v true) := by
      refine (hs.string_or_space hr.left.noEscape (by simp [hd])).resolve_right ?_
      rintro ⟨-, hrun, -⟩
      have := hrun d (by simp)
      rw [not_isSpace_of_isQuote hd] at this
      exact Bool.noConfusion this
    obtain ⟨w, u, htext, hw⟩ := tightBehind_cons before (.token (.string v true)) ls k
    rw [htext, hgap]
    rcases hw with ⟨-, rfl, -⟩ | ⟨-, rfl, -⟩ <;> rfl
  | closing => simp at hq

/-- Where no separator stands first, a quote stands here only as the first character. -/
theorem startsQuoted_of_head {r : Text} (h : r.head?.any isSpace = false) :
    startsQuoted r = r.head?.any isQuote := by
  cases r with
  | nil => rfl
  | cons c r =>
    have hc : isSpace c = false := by simpa using h
    rw [startsQuoted, List.dropWhile_cons_of_neg (by simp [hc])]

/-- Separators before a text do not matter to the quote at its beginning. -/
theorem startsQuoted_append {a r : Text} (ha : ∀ c ∈ a, isSpace c = true) :
    startsQuoted (a ++ r) = startsQuoted r := by
  rw [startsQuoted, startsQuoted, List.dropWhile_append_of_pos ha]

/-- **A quote behind separators stays there.** -/
theorem Sourced.startsQuoted (h : Sourced q ls r) (hr : IsSource r) (hq : startsQuoted r = true)
    (hclose : ∃ b, .closes b ∈ ls) : Css.startsQuoted (tightBehind none ls ++ k) = true := by
  have hstring : ∀ {t : Text}, t.head? = some '"' → Css.startsQuoted t = true := fun ht => by
    obtain ⟨u, rfl⟩ := List.head?_eq_some_iff.1 ht
    rfl
  by_cases hspace : r.head?.any isSpace = true
  · cases h with
    | nil => simp at hclose
    | @piece l s r ls hs h =>
      obtain ⟨d, s', -, -, rfl, -, -⟩ := hs.front hr.left.noEscape
      have hd : isSpace d = true := by simpa using hspace
      obtain ⟨v, rfl⟩ | ⟨rfl, hrun, hrest⟩ := hs.string_or_space hr.left.noEscape (by simp [hd])
      · exact hstring (by cases ls <;> rfl)
      · rw [startsQuoted_append hrun, startsQuoted_of_head hrest] at hq
        have hclose' : ∃ b, .closes b ∈ ls := by simpa using hclose
        obtain ⟨m, ls', rfl⟩ := List.exists_cons_of_ne_nil (show ls ≠ [] by rintro rfl; simp at hclose')
        have hgap : ∀ b, fusionGap (some .space) b = [] := fusionGap_of_not_fuses Kind.not_fuses_space
        have htext : tightBehind none (.token (.space (d :: s')) :: m :: ls') ++ k =
            (d :: s') ++ (tightBehind (some .space) (m :: ls') ++ k) := by
          rw [← List.append_assoc]; rfl
        rw [htext, startsQuoted_append hrun]
        exact hstring (h.head?_eq_quote hgap hr.right hq hclose')
    | closing => simp at hspace
  · have hspace : r.head?.any isSpace = false := by simpa using hspace
    rw [startsQuoted_of_head hspace] at hq
    exact hstring (h.head?_eq_quote fusionGap_none hr hq hclose)

/-! ### The written form of a run -/

/-- Behind every call a bracket closes. -/
def CallsClosed : List Lexeme → Prop
  | [] => True
  | l :: ls => (∀ n, l = .calls n → ∃ b, .closes b ∈ ls) ∧ CallsClosed ls

/-- A piece before others of the source, with an empty comment or nothing before it. -/
theorem Spelled.gap {rest t : Text} {ls : List Lexeme} (h : Spelled rest ls t) (a b : Option Kind) :
    Spelled rest ls (fusionGap a b ++ t) := by
  rcases fusionGap_eq a b with hgap | hgap
  · rw [hgap]; exact h
  · rw [hgap]
    exact .comment (b := []) rfl h

/-- **The written form of a run of pieces is spelled as these pieces,** as soon as that is so of the
last piece and what stands behind it. -/
theorem Sourced.spelled {rest : Text} {ms : List Lexeme} (h : Sourced q ls r) (hr : IsSource r)
    (hk : IsStill k) (hcalls : CallsClosed ls) (hne : ls ≠ [])
    (hlast : ∀ l, ls.getLast? = some l → Spelled rest (l.soft :: ms) (l.tight ++ k))
    (before : Option Kind) : Spelled rest (ls.map Lexeme.soft ++ ms) (tightBehind before ls ++ k) := by
  induction h generalizing before with
  | nil => exact absurd rfl hne
  | @piece l s r ls hs h ih =>
    obtain ⟨hcall, hcalls'⟩ := hcalls
    cases ls with
    | nil =>
      rw [tightBehind, List.append_assoc]
      exact (hlast l rfl).gap _ _
    | cons m ls =>
      rw [tightBehind, List.append_assoc, List.append_assoc]
      refine Spelled.gap (.piece ?_ (ih hr.right hcalls' (by simp) hlast _)) _ _
      refine hs.respell hr.noEscape hr.left.lineEnds (h.echo hr.right hk _) ?_ ?_ ?_
      · rintro run rfl
        cases hs with
        | space _ _ hspace => exact h.head_not_isSpace hr.right (by simp) hspace
        | unicodeRange _ hread =>
          obtain ⟨_, _, htok⟩ := Spells.isRange hread
          exact absurd htok (by simp)
      · intro hkind
        cases l with
        | token t => rw [show (Lexeme.token t).kindBehind? = some .unicodeRange from hkind]
                     exact h.rangeEnds hr.right hk
        | opens b => exact absurd hkind (by simp [Lexeme.kind?])
        | closes b => exact absurd hkind (by simp [Lexeme.kind?])
        | calls n => exact absurd hkind (by simp [Lexeme.kind?])
      · rintro n rfl hurl
        cases hs with
        | calls _ hq => exact h.startsQuoted hr.right (hq hurl) (hcall n rfl)
  | @closing b ls h ih =>
    obtain ⟨-, hcalls'⟩ := hcalls
    have hgap : fusionGap before (Lexeme.closes b).kind? = [] := by cases before <;> rfl
    cases ls with
    | nil =>
      rw [tightBehind, List.append_assoc]
      exact (hlast _ rfl).gap _ _
    | cons m ls =>
      rw [tightBehind, hgap, List.nil_append, List.append_assoc]
      exact .piece (.closes b) (ih hr hcalls' (by simp) hlast _)

end Css
end ThemeSheet
