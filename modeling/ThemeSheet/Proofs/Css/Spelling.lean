/-
# How lexemes are spelled

`Spells l s r` says that `s` is a way to write the lexeme `l` where `r` follows.  Every
piece ends where it does because the text behind it cannot carry it on, and that is all
a piece asks of what follows it.  `Spelled rest ls t` puts such pieces one behind the
other, with comments between them.  What is spelled is read: `lexemes` gives the pieces
back.
-/

import ThemeSheet.Css.Printer
import ThemeSheet.Proofs.Css.Numeral
import ThemeSheet.Proofs.Css.Reading

namespace ThemeSheet
namespace Css

/-! ### Pieces -/

/-- Does a quote stand here, behind separators or directly? -/
def startsQuoted (r : Text) : Bool := (r.dropWhile isSpace).head?.any isQuote

/-- A character that is a piece of its own where `r` follows: it begins nothing longer. -/
structure IsMark (c : Char) (r : Text) : Prop where
  space : isSpace c = false
  quote : isQuote c = false
  opened : Bracket.opened? c = none
  closed : Bracket.closed? c = none
  range : startsUnicodeRange (c :: r) = false
  arrow : Text.beginsWith "-->".toList (c :: r) = false
  ident : startsIdent (c :: r) = false
  number : startsNumber (c :: r) = false
  atKeyword : c = '@' → startsIdent r = false
  hash : c = '#' → continuesName r = false
  comment : c = '/' → r.head? ≠ some '*'
  sheetMark : c = '<' → Text.beginsWith "!--".toList r = false
  bar : c = '|' → r.head? ≠ some '|'
  equals : joinsEquals c = true → r.head? ≠ some '='

/-- The combinations of characters that are pieces of their own. -/
def combinations : List Text :=
  ["-->", "<!--", "||", "~=", "|=", "^=", "$=", "*="].map String.toList

/-- A character that a bare address may hold as it is. -/
def isUrlChar (c : Char) : Bool :=
  !(isSpace c || isQuote c || c == '(' || c == ')' || c == '\\' || isUnprintable c)

/-- **Where `r` follows, `s` is a way to write the lexeme.**  Names stand without escapes, but for
the first letter of a unit that would otherwise begin a power of ten. -/
inductive Spells : Lexeme → Text → Text → Prop
  | ident {n r : Text} : IsIdent n → continuesName r = false → r.head? ≠ some '(' →
      startsUnicodeRange (n ++ r) = false → Text.beginsWith "-->".toList (n ++ r) = false →
      Spells (.token (.ident n)) n r
  | atKeyword {n r : Text} : IsIdent n → continuesName r = false →
      Spells (.token (.atKeyword n)) ('@' :: n) r
  | hash {n r : Text} : n ≠ [] → (∀ c ∈ n, isNamePart c = true) → continuesName r = false →
      Spells (.token (.hash n (startsIdent n))) ('#' :: n) r
  | number {ds r : Text} : IsNumeral ds → NumeralEnds ds r → startsIdent r = false →
      r.head? ≠ some '%' → Spells (.token (.number ds)) ds r
  | percentage {ds r : Text} : IsNumeral ds → Spells (.token (.percentage ds)) (ds ++ ['%']) r
  | dimension {ds u r : Text} : IsNumeral ds → IsIdent u → NumeralEnds ds (u ++ r) →
      continuesName r = false → Spells (.token (.dimension ds u)) (ds ++ u) r
  | escapedUnit {ds u r : Text} : IsNumeral ds → (∀ c ∈ u, isNamePart c = true) →
      continuesName r = false → Spells (.token (.dimension ds ('e' :: u))) (ds ++ ("\\65 ".toList ++ u)) r
  | bareUnit {ds r : Text} : IsNumeral ds →
      Spells (.token (.dimension ds ['e'])) (ds ++ "\\65".toList) (';' :: r)
  | unicodeRange {u : Char} {s r : Text} {t : Token} : startsUnicodeRange (u :: '+' :: (s ++ r)) = true →
      Css.unicodeRange (s ++ r) = (t, r) → Spells (.token t) (u :: '+' :: s) r
  | quoted {q : Char} {v r : Text} : isQuote q = true → (∀ c ∈ v, c ≠ q ∧ c ≠ '\\' ∧ c ≠ '\n') →
      Spells (.token (.string v true)) (q :: (v ++ [q])) r
  | string {v r : Text} : (∀ c ∈ v, c ≠ '\n' ∧ c ≠ '\r' ∧ c ≠ '\x0c') →
      Spells (.token (.string v true)) ('"' :: (v.flatMap stringChar ++ ['"'])) r
  | url {n a v b r : Text} : IsIdent n → isUrlName n = true → (∀ c ∈ a ++ b, isSpace c = true) →
      (∀ c ∈ v, isUrlChar c = true) → Spells (.token (.url v true)) (n ++ '(' :: (a ++ v ++ b ++ [')'])) r
  | space {run r : Text} : run ≠ [] → (∀ c ∈ run, isSpace c = true) → r.head?.any isSpace = false →
      Spells (.token (.space run)) run r
  | mark {c : Char} {r : Text} : IsMark c r → Spells (.token (.literal [c])) [c] r
  | combination {cs r : Text} : cs ∈ combinations → Spells (.token (.literal cs)) cs r
  | opens {r : Text} (b : Bracket) : Spells (.opens b) [b.opening] r
  | closes {r : Text} (b : Bracket) : Spells (.closes b) [b.closing] r
  | calls {n r : Text} : IsIdent n → (isUrlName n = true → startsQuoted r = true) →
      Spells (.calls n) (n ++ ['(']) r

/-! ### What begins a piece -/

/-- A character that continues a name differs from one that does not. -/
theorem ne_of_isNamePart {c d : Char} (hc : isNamePart c = true) (hd : isNamePart d = false) : c ≠ d := by
  rintro rfl
  simp [hc] at hd

/-- An identifier is not empty. -/
theorem IsIdent.ne_nil {n : Text} (h : IsIdent n) : n ≠ [] := by
  obtain ⟨c, u, rfl, -⟩ := h.eq_cons
  simp

/-- A character that continues a name is no separator. -/
theorem isSpace_of_isNamePart {c : Char} (h : isNamePart c = true) : isSpace c = false := by
  have h1 := ne_of_isNamePart h (d := ' ') (by decide)
  have h2 := ne_of_isNamePart h (d := '\n') (by decide)
  have h3 := ne_of_isNamePart h (d := '\t') (by decide)
  simp [isSpace, h1, h2, h3]

/-- No arrow begins with another character than a hyphen. -/
theorem beginsWith_arrow_cons {c : Char} {t : Text} (h : c ≠ '-') :
    Text.beginsWith "-->".toList (c :: t) = false := by
  simp [Text.beginsWith, Text.dropPrefix?, Ne.symm h]

/-- Only the letters of a range, a hyphen and separators need a look at what follows. -/
theorem isPlain_of_ne {c : Char} {t : Text} (hs : isSpace c = false) (hu : c ≠ 'u' ∧ c ≠ 'U')
    (hm : c ≠ '-') : IsPlain c t :=
  ⟨hs, startsUnicodeRange_cons hu, beginsWith_arrow_cons hm⟩

/-- A name with an opening bracket begins no range and no comment mark. -/
theorem isPlain_name {c : Char} {n r : Text} (hn : ∀ x ∈ c :: n, isNamePart x = true) :
    IsPlain c (n ++ '(' :: r) := by
  obtain ⟨hc, hn'⟩ := List.forall_mem_cons.1 hn
  have hplus : ∀ x ∈ n, x ≠ '+' := fun x hx => ne_of_isNamePart (hn' x hx) (by decide)
  have hgt : ∀ x ∈ n, x ≠ '>' := fun x hx => ne_of_isNamePart (hn' x hx) (by decide)
  refine ⟨isSpace_of_isNamePart hc, ?_, ?_⟩
  · match n with
    | [] => simp [startsUnicodeRange]
    | [x] => simp [startsUnicodeRange, hplus x]
    | x :: y :: n => simp [startsUnicodeRange, hplus x]
  · match n with
    | [] => simp [Text.beginsWith, Text.dropPrefix?]
    | [x] => simp [Text.beginsWith, Text.dropPrefix?]
    | x :: y :: n =>
      have := hgt y (by simp)
      simp [Text.beginsWith, Text.dropPrefix?, Ne.symm this]

/-- How a numeral begins: with a digit or a point, or with a sign before one of these. -/
theorem IsNumeral.shape {ds : Text} (h : IsNumeral ds) :
    (∃ c t, ds = c :: t ∧ (c.isDigit = true ∨ c = '.')) ∨
      ∃ s c t, ds = s :: c :: t ∧ (s = '+' ∨ s = '-') ∧ (c.isDigit = true ∨ c = '.') := by
  have hm : ∀ {m : Text}, IsMantissa m → ∃ c t, m = c :: t ∧ (c.isDigit = true ∨ c = '.') := by
    rintro m (⟨hw⟩ | ⟨hw, hf⟩)
    · obtain ⟨c, t, rfl⟩ := List.exists_cons_of_ne_nil hw.1
      exact ⟨c, t, rfl, .inl (hw.2 c (List.mem_cons_self ..))⟩
    · rename_i w f
      cases w with
      | nil => exact ⟨'.', f, rfl, .inr rfl⟩
      | cons c u => exact ⟨c, u ++ '.' :: f, rfl, .inl (hw c (List.mem_cons_self ..))⟩
  have hs : ∀ {s m e : Text}, IsSign s → IsMantissa m →
      (∃ c t, s ++ m ++ e = c :: t ∧ (c.isDigit = true ∨ c = '.')) ∨
        ∃ x c t, s ++ m ++ e = x :: c :: t ∧ (x = '+' ∨ x = '-') ∧ (c.isDigit = true ∨ c = '.') := by
    intro s m e hs hm'
    obtain ⟨c, t, rfl, hc⟩ := hm hm'
    cases hs with
    | none => exact .inl ⟨c, t ++ e, rfl, hc⟩
    | plus => exact .inr ⟨'+', c, t ++ e, rfl, .inl rfl, hc⟩
    | minus => exact .inr ⟨'-', c, t ++ e, rfl, .inr rfl, hc⟩
  cases h with
  | plain h1 h2 => simpa using hs (e := []) h1 h2
  | power h1 h2 _ => exact hs h1 h2

/-- A numeral is not empty. -/
theorem IsNumeral.ne_nil {ds : Text} (h : IsNumeral ds) : ds ≠ [] := by
  rcases h.shape with ⟨c, t, rfl, -⟩ | ⟨s, c, t, rfl, -⟩ <;> simp

/-- **A numeral begins nothing but a number,** whatever follows it. -/
theorem IsNumeral.begins {ds : Text} (h : IsNumeral ds) (r : Text) :
    ∃ c t, ds = c :: t ∧ IsPlain c (t ++ r) ∧ startsIdent (c :: (t ++ r)) = false := by
  have hne : ∀ {c : Char}, c.isDigit = true ∨ c = '.' → ∀ d, d.isDigit = false → d ≠ '.' → c ≠ d := by
    rintro c (hc | rfl) d hd hp rfl
    · simp [hc] at hd
    · exact hp rfl
  have hstart : ∀ {c : Char}, c.isDigit = true ∨ c = '.' → isNameStart c = false := by
    rintro c (hc | rfl)
    · exact isNameStart_of_isDigit hc
    · decide
  rcases h.shape with ⟨c, t, rfl, hc⟩ | ⟨x, c, t, rfl, hx, hc⟩
  · have hm := hne hc '-' (by decide) (by decide)
    refine ⟨c, t, rfl, isPlain_of_ne ?_ ⟨hne hc _ (by decide) (by decide), hne hc _ (by decide) (by decide)⟩ hm, ?_⟩
    · simp [isSpace, hne hc ' ' (by decide) (by decide), hne hc '\n' (by decide) (by decide),
        hne hc '\t' (by decide) (by decide)]
    · rw [startsIdent_cons hm (hne hc _ (by decide) (by decide)), hstart hc]
  · have hm := hne hc '-' (by decide) (by decide)
    have hesc : startsEscape (c :: (t ++ r)) = false :=
      startsEscape_cons (hne hc _ (by decide) (by decide))
    refine ⟨x, c :: t, rfl, ⟨?_, ?_, ?_⟩, ?_⟩
    · rcases hx with rfl | rfl <;> decide
    · rcases hx with rfl | rfl <;> exact startsUnicodeRange_cons (by decide)
    · simp [Text.beginsWith, Text.dropPrefix?, Ne.symm hm]
    · rcases hx with rfl | rfl
      · exact startsIdent_cons (by decide) (by decide)
      · simp [startsIdent, hstart hc, hm, hesc]

/-- Where a numeral begins and ends, what is read is what stands behind it. -/
theorem IsNumeral.nextLexemes_eq {ds r : Text} (h : IsNumeral ds) (hr : NumeralEnds ds r) :
    ∃ c t, ds = c :: t ∧ ∀ {read}, ReadsNumber ds r read → nextLexemes c (t ++ r) = read := by
  obtain ⟨c, t, hds, hp, hi⟩ := h.begins r
  refine ⟨c, t, hds, fun hread => (Reads.number hp hi ?_ hread).eq⟩
  rw [← List.cons_append, ← hds, number?_append h hr]

/-- A backslash carries no numeral on, and neither does a percent sign. -/
theorem numeralEnds_cons {ds r : Text} {c : Char} (hc : c = '\\' ∨ c = '%') : NumeralEnds ds (c :: r) := by
  have hne : c ≠ '.' ∧ c ≠ 'e' ∧ c ≠ 'E' := by rcases hc with rfl | rfl <;> decide
  refine ⟨?_, .inr (.inr (.inr ?_)), .inr (.inr ?_)⟩
  · rcases hc with rfl | rfl <;> rfl
  · rcases hc with rfl | rfl <;> rfl
  · simp [startsExponent, exponent, hne]

/-! ### Strings and addresses -/

/-- A backslash before a character that is no hexadecimal digit gives this character. -/
theorem escape_cons {c : Char} {t : Text} (hc : isHexDigit c = false) : escape (c :: t) = (c, t) := by
  simp [escape, hc]

/-- The closing quote ends a string. -/
theorem quoted_quote (q : Char) (before r : Text) :
    Css.quoted q before (q :: r) = ([.string before.reverse true], r) := by
  rw [Css.quoted.eq_def]
  simp

/-- A character that is no quote, backslash or line feed belongs to the string. -/
theorem quoted_char {q c : Char} (before r : Text) (h1 : c ≠ q) (h2 : c ≠ '\\') (h3 : c ≠ '\n') :
    Css.quoted q before (c :: r) = Css.quoted q (c :: before) r := by
  rw [Css.quoted.eq_def]
  simp [h1, h2, h3]

/-- An escaped character belongs to the string. -/
theorem quoted_escape {q c : Char} (before r : Text) (hq : q ≠ '\\') (h1 : c ≠ '\n')
    (h2 : isHexDigit c = false) : Css.quoted q before ('\\' :: c :: r) = Css.quoted q (c :: before) r := by
  rw [Css.quoted.eq_def]
  simp [h1, Ne.symm hq, escape_cons h2]

/-- Characters up to the closing quote, none of them escaped, are the value of the string. -/
theorem quoted_append {q : Char} {v r : Text} (before : Text)
    (hv : ∀ c ∈ v, c ≠ q ∧ c ≠ '\\' ∧ c ≠ '\n') :
    Css.quoted q before (v ++ q :: r) = ([.string (before.reverse ++ v) true], r) := by
  induction v generalizing before with
  | nil => rw [List.nil_append, quoted_quote, List.append_nil]
  | cons c v ih =>
    obtain ⟨⟨h1, h2, h3⟩, hv'⟩ := List.forall_mem_cons.1 hv
    rw [List.cons_append, quoted_char before _ h1 h2 h3, ih _ hv', List.reverse_cons,
      List.append_assoc, List.singleton_append]

/-- The written form of a string is read as its value. -/
theorem quoted_written {v r : Text} (before : Text) (hv : ∀ c ∈ v, c ≠ '\n' ∧ c ≠ '\r' ∧ c ≠ '\x0c') :
    Css.quoted '"' before (v.flatMap stringChar ++ '"' :: r) =
      ([.string (before.reverse ++ v) true], r) := by
  induction v generalizing before with
  | nil => rw [List.flatMap_nil, List.nil_append, quoted_quote, List.append_nil]
  | cons c v ih =>
    obtain ⟨⟨h1, h2, h3⟩, hv'⟩ := List.forall_mem_cons.1 hv
    have hstep : Css.quoted '"' before (stringChar c ++ (v.flatMap stringChar ++ '"' :: r)) =
        Css.quoted '"' (c :: before) (v.flatMap stringChar ++ '"' :: r) := by
      rw [stringChar]
      split
      · next hc =>
        have hhex : isHexDigit c = false := by rcases hc with rfl | rfl <;> decide
        exact quoted_escape before _ (by decide) h1 hhex
      · next hc =>
        obtain ⟨hq, hb⟩ := not_or.1 hc
        rw [lineEndEscape?, if_neg h1, if_neg h2, if_neg h3]
        exact quoted_char before _ hq hb h1
    rw [List.flatMap_cons, List.append_assoc, hstep, ih _ hv', List.reverse_cons, List.append_assoc,
      List.singleton_append]

/-- Characters of an address up to the closing bracket, separators before it, are the address. -/
theorem bareUrl_append {v b r : Text} (before : Text) (hv : ∀ c ∈ v, isUrlChar c = true)
    (hb : ∀ c ∈ b, isSpace c = true) :
    bareUrl before (v ++ (b ++ ')' :: r)) = ([.url (before.reverse ++ v) true], r) := by
  induction v generalizing before with
  | nil =>
    rw [List.nil_append, List.append_nil]
    cases b with
    | nil => rw [List.nil_append, bareUrl, if_pos rfl]
    | cons c b =>
      obtain ⟨hc, hb'⟩ := List.forall_mem_cons.1 hb
      have hne : c ≠ ')' := by rintro rfl; revert hc; decide
      rw [List.cons_append, bareUrl, if_neg hne, if_pos hc, closeUrl,
        List.dropWhile_append_of_pos hb', List.dropWhile_cons_of_neg (by decide)]
      simp only [if_true]
  | cons c v ih =>
    obtain ⟨hc, hv'⟩ := List.forall_mem_cons.1 hv
    simp only [isUrlChar, isQuote, Bool.not_eq_true', Bool.or_eq_false_iff, beq_eq_false_iff_ne] at hc
    obtain ⟨⟨⟨⟨⟨hspace, hq1, hq2⟩, ho⟩, hcl⟩, hb⟩, hu⟩ := hc
    rw [List.cons_append, bareUrl, if_neg hcl, if_neg (by simp [hspace]),
      if_neg (by simp [startsEscape_cons hb]), if_neg (by simp [hq1, hq2, ho, hu]), ih _ hv',
      List.reverse_cons, List.append_assoc, List.singleton_append]

/-- An address without quotes, separators on both sides of it, is read. -/
theorem url?_append {a v b r : Text} (hab : ∀ c ∈ a ++ b, isSpace c = true)
    (hv : ∀ c ∈ v, isUrlChar c = true) :
    url? (a ++ (v ++ (b ++ ')' :: r))) = some ([.url v true], r) := by
  have ha : ∀ c ∈ a, isSpace c = true := fun c hc => hab c (List.mem_append_left _ hc)
  have hb : ∀ c ∈ b, isSpace c = true := fun c hc => hab c (List.mem_append_right _ hc)
  cases v with
  | nil =>
    rw [url?, List.dropWhile_append_of_pos ha, List.nil_append, List.dropWhile_append_of_pos hb,
      List.dropWhile_cons_of_neg (by decide)]
    simp only
    rw [if_neg (by decide), bareUrl, if_pos rfl, List.reverse_nil]
  | cons c v =>
    have hc := hv c (List.mem_cons_self ..)
    simp only [isUrlChar, isQuote, Bool.not_eq_true', Bool.or_eq_false_iff, beq_eq_false_iff_ne] at hc
    obtain ⟨⟨⟨⟨⟨hspace, hq1, hq2⟩, -⟩, -⟩, -⟩, -⟩ := hc
    rw [url?, List.dropWhile_append_of_pos ha, List.cons_append,
      List.dropWhile_cons_of_neg (by simp [hspace])]
    simp only
    rw [if_neg (by simp [hq1, hq2]), ← List.cons_append, bareUrl_append [] hv hb]
    rfl

/-! ### One piece -/

/-- The escaped letter of a unit is read as that letter, a separator behind it with it. -/
theorem escape_unit (r : Text) : escape ('6' :: '5' :: ' ' :: r) = ('e', r) := rfl

/-- The escaped first letter of a unit and the rest of it are read as the unit. -/
theorem name_escapedUnit {u r : Text} (hu : ∀ c ∈ u, isNamePart c = true)
    (hr : continuesName r = false) : name ("\\65 ".toList ++ u ++ r) = ('e' :: u, r) := by
  rw [show "\\65 ".toList ++ u ++ r = '\\' :: '6' :: '5' :: ' ' :: (u ++ r) by simp,
    name, if_neg (by decide), if_pos (by rfl), escape_unit]
  simp only [name_append hu hr]

/-- The escaped letter alone is read as a unit before a semicolon. -/
theorem name_bareUnit (r : Text) : name ("\\65".toList ++ ';' :: r) = (['e'], ';' :: r) := by
  have he : escape ('6' :: '5' :: ';' :: r) = ('e', ';' :: r) := rfl
  rw [show "\\65".toList ++ ';' :: r = '\\' :: '6' :: '5' :: ';' :: r by simp, name,
    if_neg (by decide), if_pos (by rfl), he, name_of_not_continuesName (by rfl)]

/-- What follows a name does not decide whether the name could stand alone. -/
theorem startsIdent_append {n r : Text} (hne : n ≠ []) (hn : ∀ c ∈ n, isNamePart c = true)
    (hr : continuesName r = false) : startsIdent (n ++ r) = startsIdent n := by
  obtain ⟨c, u, rfl⟩ := List.exists_cons_of_ne_nil hne
  obtain ⟨hc, hu⟩ := List.forall_mem_cons.1 hn
  have hb : c ≠ '\\' := ne_of_isNamePart hc (by decide)
  by_cases hm : c = '-'
  · subst hm
    cases u with
    | nil =>
      cases r with
      | nil => rfl
      | cons d r =>
        have hd : isNamePart d = false ∧ d ≠ '\\' := by simpa [continuesName] using hr
        have hstart : isNameStart d = false := by
          cases hds : isNameStart d
          · rfl
          · simp [isNamePart, hds] at hd
        have hm : d ≠ '-' := by rintro rfl; simp [isNamePart] at hd
        have hlone : startsIdent ['-'] = false := rfl
        rw [hlone]
        simp [startsIdent, hstart, hm, startsEscape_cons hd.2]
    | cons d u =>
      have hd : d ≠ '\\' := ne_of_isNamePart (hu d (List.mem_cons_self ..)) (by decide)
      simp [startsIdent, startsEscape_cons hd]
  · rw [List.cons_append, startsIdent_cons hm hb, startsIdent_cons hm hb]

/-- Characters that begin neither a name, a number nor a range. -/
theorem IsPlain.nextLexemes_mark {c : Char} {t : Text} {read : List Lexeme × Text} (h : IsPlain c t)
    (hi : startsIdent (c :: t) = false) (hn : startsNumber (c :: t) = false) (hread : ReadsMark c t read) :
    nextLexemes c t = read :=
  (Reads.mark h hi (number?_eq_none_iff.2 hn) hread).eq

/-- A character that is a piece of its own begins nothing longer. -/
theorem IsMark.isAlone {c : Char} {r : Text} (h : IsMark c r) : IsAlone c r where
  opened := h.opened
  closed := h.closed
  atKeyword := h.atKeyword
  hash hc := by
    have hr := h.hash hc
    cases r with
    | nil => rfl
    | cons d r =>
      have hd : isNamePart d = false ∧ ¬ d = '\\' := by simpa [continuesName] using hr
      simp [hd.1, startsEscape_of_not_continuesName hr]
  quote := h.quote
  comment := h.comment
  sheetMark := h.sheetMark
  bar := h.bar
  equals := h.equals

/-- An address does not begin where a quote stands, behind separators or directly. -/
theorem url?_eq_none_iff {t : Text} : url? t = none ↔ startsQuoted t = true := by
  rw [url?, startsQuoted]
  cases t.dropWhile isSpace with
  | nil => simp
  | cons c u => simp [isQuote, or_iff_not_imp_left]

/-- A quote begins a string. -/
theorem nextLexemes_quoted {q : Char} {t r : Text} {tokens : List Token} (hq : isQuote q = true)
    (h : quoted q [] t = (tokens, r)) : nextLexemes q t = (tokens.map .token, r) := by
  have hread := ReadsMark.quoted (t := t) hq
  rw [h] at hread
  have hplain : IsPlain q t ∧ startsIdent (q :: t) = false ∧ startsNumber (q :: t) = false := by
    rcases (by simpa [isQuote] using hq : q = '"' ∨ q = '\'') with rfl | rfl
    all_goals exact ⟨isPlain_of_ne (by decide) (by decide) (by decide), startsIdent_cons (by decide) (by decide), rfl⟩
  exact hplain.1.nextLexemes_mark hplain.2.1 hplain.2.2 hread

/-- **A spelled piece is read as that piece.** -/
theorem Spells.nextLexemes_eq {l : Lexeme} {s r : Text} (h : Spells l s r) :
    ∃ c t, s = c :: t ∧ nextLexemes c (t ++ r) = ([l], r) := by
  cases h with
  | ident hn hr hp hrange harrow =>
    obtain ⟨c, u, rfl, hc⟩ := hn.eq_cons
    have hplain : IsPlain c (u ++ r) := ⟨isSpace_of_isNamePart hc, hrange, harrow⟩
    exact ⟨c, u, rfl, (Reads.ident hplain (hn.startsIdent_append r) (.ident (name_append hn.parts hr) hp)).eq⟩
  | @atKeyword n _ hn hr =>
    have hplain : IsPlain '@' (n ++ r) := isPlain_of_ne (by decide) (by decide) (by decide)
    have hread := ReadsMark.atKeyword (hn.startsIdent_append r)
    rw [name_append hn.parts hr] at hread
    exact ⟨'@', n, rfl, hplain.nextLexemes_mark (startsIdent_cons (by decide) (by decide)) rfl hread⟩
  | @hash n _ hne hn hr =>
    have hplain : IsPlain '#' (n ++ r) := isPlain_of_ne (by decide) (by decide) (by decide)
    have hstarts : ((n ++ r).head?.any isNamePart || startsEscape (n ++ r)) = true := by
      obtain ⟨c, u, rfl⟩ := List.exists_cons_of_ne_nil hne
      simp [hn c (List.mem_cons_self ..)]
    have hread := ReadsMark.hash hstarts
    rw [name_append hn hr, startsIdent_append hne hn hr] at hread
    exact ⟨'#', n, rfl, hplain.nextLexemes_mark (startsIdent_cons (by decide) (by decide)) rfl hread⟩
  | number hds hr hi hp =>
    obtain ⟨c, t, rfl, hnext⟩ := hds.nextLexemes_eq hr
    exact ⟨c, t, rfl, hnext (.number hi hp)⟩
  | percentage hds =>
    obtain ⟨c, t, rfl, hnext⟩ := hds.nextLexemes_eq (r := '%' :: r) (numeralEnds_cons (.inr rfl))
    refine ⟨c, t ++ ['%'], rfl, ?_⟩
    rw [List.append_assoc, List.singleton_append]
    exact hnext (.percentage r)
  | @dimension ds u _ hds hu hends hr =>
    obtain ⟨c, t, rfl, hnext⟩ := hds.nextLexemes_eq hends
    have hread := hnext (.dimension (hu.startsIdent_append r))
    rw [name_append hu.parts hr] at hread
    refine ⟨c, t ++ u, rfl, ?_⟩
    rwa [List.append_assoc]
  | @escapedUnit ds u _ hds hu hr =>
    obtain ⟨c, t, rfl, hnext⟩ := hds.nextLexemes_eq (r := "\\65 ".toList ++ u ++ r)
      (numeralEnds_cons (.inl rfl))
    have hread := hnext (.dimension rfl)
    rw [name_escapedUnit hu hr] at hread
    refine ⟨c, t ++ ("\\65 ".toList ++ u), rfl, ?_⟩
    rwa [List.append_assoc]
  | @bareUnit ds r hds =>
    obtain ⟨c, t, rfl, hnext⟩ := hds.nextLexemes_eq (r := "\\65".toList ++ ';' :: r)
      (numeralEnds_cons (.inl rfl))
    have hread := hnext (.dimension rfl)
    rw [name_bareUnit] at hread
    refine ⟨c, t ++ "\\65".toList, rfl, ?_⟩
    rwa [List.append_assoc]
  | @unicodeRange u s _ t hs hread =>
    have hnext := (Reads.range hs).eq
    rw [hread] at hnext
    exact ⟨u, '+' :: s, rfl, hnext⟩
  | @quoted q v _ hq hv =>
    refine ⟨q, v ++ [q], rfl, ?_⟩
    rw [List.append_assoc, List.singleton_append]
    exact nextLexemes_quoted hq (quoted_append [] hv)
  | @string v _ hv =>
    refine ⟨'"', v.flatMap stringChar ++ ['"'], rfl, ?_⟩
    rw [List.append_assoc, List.singleton_append]
    exact nextLexemes_quoted rfl (quoted_written [] hv)
  | @url n a v b _ hn hurl hab hv =>
    obtain ⟨c, u, rfl, hc⟩ := hn.eq_cons
    have htext : u ++ '(' :: (a ++ v ++ b ++ [')']) ++ r = u ++ '(' :: (a ++ (v ++ (b ++ ')' :: r))) := by
      simp
    refine ⟨c, u ++ '(' :: (a ++ v ++ b ++ [')']), rfl, ?_⟩
    rw [htext]
    exact (Reads.ident (isPlain_name hn.parts) (hn.startsIdent_append _)
      (.address (name_append hn.parts rfl) hurl (url?_append hab hv))).eq
  | space hne hrun hr =>
    obtain ⟨c, t, hct⟩ := List.exists_cons_of_ne_nil hne
    refine ⟨c, t, hct, ?_⟩
    have hc := hrun c (by simp [hct])
    have ht : ∀ x ∈ t, isSpace x = true := fun x hx => hrun x (by simp [hct, hx])
    have hstop : r.takeWhile isSpace = [] ∧ r.dropWhile isSpace = r := by
      cases r with
      | nil => simp
      | cons d r => simpa using hr
    rw [(Reads.space hc).eq, List.takeWhile_append_of_pos ht, List.dropWhile_append_of_pos ht,
      hstop.1, hstop.2, List.append_nil, hct]
  | @mark c _ hm =>
    have hplain : IsPlain c r := ⟨hm.space, hm.range, hm.arrow⟩
    exact ⟨c, [], rfl, hplain.nextLexemes_mark hm.ident hm.number (.alone hm.isAlone)⟩
  | combination hcs =>
    simp only [combinations, List.map_cons, List.map_nil, List.mem_cons, List.not_mem_nil, or_false] at hcs
    rcases hcs with rfl | rfl | rfl | rfl | rfl | rfl | rfl | rfl
    all_goals exact ⟨_, _, rfl, rfl⟩
  | opens b =>
    refine ⟨b.opening, [], rfl, ?_⟩
    have hplain : IsPlain b.opening r := by cases b <;> exact isPlain_of_ne (by decide) (by decide) (by decide)
    exact hplain.nextLexemes_mark (by cases b <;> rfl) (by cases b <;> rfl) (.opens b r)
  | closes b =>
    refine ⟨b.closing, [], rfl, ?_⟩
    have hplain : IsPlain b.closing r := by cases b <;> exact isPlain_of_ne (by decide) (by decide) (by decide)
    exact hplain.nextLexemes_mark (by cases b <;> rfl) (by cases b <;> rfl) (.closes b r)
  | @calls n r hn hq =>
    obtain ⟨c, u, rfl, hc⟩ := hn.eq_cons
    refine ⟨c, u ++ ['('], rfl, ?_⟩
    rw [List.append_assoc, List.singleton_append]
    exact (Reads.ident (isPlain_name hn.parts) (hn.startsIdent_append _)
      (.call (name_append hn.parts rfl) fun hurl => url?_eq_none_iff.2 (hq hurl))).eq

/-! ### Names and marks -/

/-- A colon, a semicolon and an exclamation mark are pieces of their own. -/
theorem spells_mark {c : Char} (hc : c = ':' ∨ c = ';' ∨ c = '!') (r : Text) :
    Spells (.token (.literal [c])) [c] r := by
  refine .mark ?_
  rcases hc with rfl | rfl | rfl <;>
    exact ⟨by decide, by decide, by decide, by decide, startsUnicodeRange_cons (by decide),
      beginsWith_arrow_cons (by decide), startsIdent_cons (by decide) (by decide), rfl, by simp, by simp,
      by simp, by simp, by simp, by simp [joinsEquals]⟩

/-- A name before a colon or a semicolon. -/
theorem IsIdent.spells {n : Text} (hn : IsIdent n) {c : Char} (hc : c = ':' ∨ c = ';') (r : Text) :
    Spells (.token (.ident n)) n (c :: r) := by
  have hname : isNamePart c = false := by rcases hc with rfl | rfl <;> decide
  have hne : c ≠ '\\' ∧ c ≠ '(' ∧ c ≠ '+' ∧ c ≠ '-' ∧ c ≠ '>' := by rcases hc with rfl | rfl <;> decide
  have hplus : ∀ x ∈ n, x ≠ '+' := fun x hx => ne_of_isNamePart (hn.parts x hx) (by decide)
  have hgt : ∀ x ∈ n, x ≠ '>' := fun x hx => ne_of_isNamePart (hn.parts x hx) (by decide)
  refine .ident hn (by simp [continuesName, hname, hne]) (by simp [hne]) ?_ ?_
  · rcases n with _ | ⟨x, _ | ⟨y, n⟩⟩
    · exact absurd rfl hn.ne_nil
    · simp [startsUnicodeRange, hne]
    · simp [startsUnicodeRange, hplus y]
  · rcases n with _ | ⟨x, _ | ⟨y, _ | ⟨z, n⟩⟩⟩
    · exact absurd rfl hn.ne_nil
    · simp [Text.beginsWith, Text.dropPrefix?, hne.2.2.2.1.symm]
    · simp [Text.beginsWith, Text.dropPrefix?, hne.2.2.2.2.symm]
    · simp [Text.beginsWith, Text.dropPrefix?, Ne.symm (hgt z (by simp))]

/-! ### Runs of pieces -/

/-- **The text begins with the pieces, one behind the other, and `rest` follows them.**  Comments may
stand before each of them and behind the last. -/
inductive Spelled (rest : Text) : List Lexeme → Text → Prop
  | nil : Spelled rest [] rest
  | piece {l : Lexeme} {s t : Text} {ls : List Lexeme} : Spells l s t → Spelled rest ls t →
      Spelled rest (l :: ls) (s ++ t)
  | comment {b t : Text} {ls : List Lexeme} : skipComment (b ++ "*/".toList ++ t) = t →
      Spelled rest ls t → Spelled rest ls ("/*".toList ++ (b ++ "*/".toList ++ t))

/-- The lexemes of a text are those that its first character begins and those of the rest. -/
theorem lexemes_cons (c : Char) (t : Text) :
    lexemes (c :: t) = (nextLexemes c t).1 ++ lexemes (nextLexemes c t).2 := by
  rw [lexemes]

/-- A spelled lexeme is the first one that is read. -/
theorem Spells.lexemes_append {l : Lexeme} {s r : Text} (h : Spells l s r) :
    lexemes (s ++ r) = l :: lexemes r := by
  obtain ⟨c, t, rfl, hnext⟩ := h.nextLexemes_eq
  rw [List.cons_append, lexemes_cons, hnext, List.singleton_append]

/-- The lexemes behind the beginning of a comment are those behind its end. -/
theorem lexemes_comment (t : Text) : lexemes ("/*".toList ++ t) = lexemes (skipComment t) := by
  have hnext : nextLexemes '/' ('*' :: t) = ([], skipComment t) := rfl
  rw [show "/*".toList ++ t = '/' :: '*' :: t from rfl, lexemes_cons, hnext, List.nil_append]

/-- **What is spelled is read,** and what follows is read as if nothing stood before it. -/
theorem Spelled.lexemes_eq {rest t : Text} {ls : List Lexeme} (h : Spelled rest ls t) :
    lexemes t = ls ++ lexemes rest := by
  induction h with
  | nil => rfl
  | piece hs _ ih => rw [hs.lexemes_append, ih, List.cons_append]
  | comment hskip _ ih => rw [lexemes_comment, hskip, ih]

/-- Spelled lexemes one behind the other are spelled together. -/
theorem Spelled.append {mid rest t : Text} {ls ms : List Lexeme} (h : Spelled mid ls t)
    (h' : Spelled rest ms mid) : Spelled rest (ls ++ ms) t := by
  induction h with
  | nil => exact h'
  | piece hs _ ih => exact .piece hs ih
  | comment hskip _ ih => exact .comment hskip ih

/-- A spelled lexeme is a text of one lexeme. -/
theorem Spells.spelled {l : Lexeme} {s rest : Text} (h : Spells l s rest) :
    Spelled rest [l] (s ++ rest) :=
  .piece h .nil

end Css
end ThemeSheet
