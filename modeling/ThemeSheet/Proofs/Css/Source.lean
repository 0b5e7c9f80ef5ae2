/-
# How a source spells its lexemes

In a text without backslashes and comments every lexeme stands as a piece of its own, as
long as no string and no address is broken or cut off.
-/

import ThemeSheet.Proofs.Css.Spelling

namespace ThemeSheet
namespace Css

/-- A token that is neither an error nor cut off by the end of the text. -/
def Token.isWhole : Token → Bool
  | .string _ closed => closed
  | .url _ closed => closed
  | .badString | .badUrl | .endInString | .endInUrl | .stray _ => false
  | _ => true

/-- A lexeme whose token is whole. -/
def Lexeme.isWhole : Lexeme → Bool
  | .token t => t.isWhole
  | _ => true

/-! ### Strings and addresses -/

/-- A whole string is its characters and the closing quote, none of them escaped. -/
theorem quoted_spec {q : Char} {before t : Text} (hb : '\\' ∉ t)
    (hw : ∀ tok ∈ (quoted q before t).1, tok.isWhole = true) :
    ∃ v, t = v ++ q :: (quoted q before t).2 ∧
      (quoted q before t).1 = [.string (before.reverse ++ v) true] ∧
      ∀ c ∈ v, c ≠ q ∧ c ≠ '\\' ∧ c ≠ '\n' := by
  induction t generalizing before with
  | nil => simp [quoted, Token.isWhole] at hw
  | cons c t ih =>
    obtain ⟨hc, ht⟩ := not_or.1 (List.mem_cons.not.1 hb)
    by_cases hq : c = q
    · subst hq
      rw [quoted_quote] at hw ⊢
      exact ⟨[], rfl, by simp, by simp⟩
    · by_cases hn : c = '\n'
      · subst hn
        rw [quoted.eq_def] at hw
        simp [hq, Token.isWhole] at hw
      · rw [quoted_char before t hq (Ne.symm hc) hn] at hw ⊢
        obtain ⟨v, hv, htok, hall⟩ := ih ht hw
        exact ⟨c :: v, congrArg (c :: ·) hv, by rw [htok]; simp,
          List.forall_mem_cons.2 ⟨⟨hq, Ne.symm hc, hn⟩, hall⟩⟩

/-- The end of a whole address is separators and the closing bracket. -/
theorem closeUrl_spec {value t : Text} (hw : ∀ tok ∈ (closeUrl value t).1, tok.isWhole = true) :
    ∃ b, t = b ++ ')' :: (closeUrl value t).2 ∧ (closeUrl value t).1 = [.url value true] ∧
      ∀ c ∈ b, isSpace c = true := by
  have happ := List.takeWhile_append_dropWhile (p := isSpace) (l := t)
  unfold closeUrl at hw ⊢
  split at hw
  · simp [Token.isWhole] at hw
  · next c r hr =>
    split at hw
    · next hc =>
      subst hc
      refine ⟨t.takeWhile isSpace, ?_, ?_, fun c hc => List.mem_takeWhile_imp hc⟩
      · simp only [if_true]; rw [← hr, happ]
      · simp only [if_true]
    · simp [Token.isWhole] at hw

/-- A whole address without quotes is its characters, separators and the closing bracket. -/
theorem bareUrl_spec {before t : Text} (hb : '\\' ∉ t)
    (hw : ∀ tok ∈ (bareUrl before t).1, tok.isWhole = true) :
    ∃ v b, t = v ++ (b ++ ')' :: (bareUrl before t).2) ∧
      (bareUrl before t).1 = [.url (before.reverse ++ v) true] ∧
      (∀ c ∈ v, isUrlChar c = true) ∧ ∀ c ∈ b, isSpace c = true := by
  induction t generalizing before with
  | nil => simp [bareUrl, Token.isWhole] at hw
  | cons c t ih =>
    obtain ⟨hc, ht⟩ := not_or.1 (List.mem_cons.not.1 hb)
    have hesc : startsEscape (c :: t) = false := startsEscape_cons (Ne.symm hc)
    rw [bareUrl] at hw ⊢
    by_cases hclose : c = ')'
    · rw [if_pos hclose]
      exact ⟨[], [], by rw [hclose]; rfl, by simp, by simp, by simp⟩
    · rw [if_neg hclose] at hw ⊢
      by_cases hspace : isSpace c = true
      · rw [if_pos hspace] at hw ⊢
        obtain ⟨b, hb', htok, hall⟩ := closeUrl_spec hw
        exact ⟨[], c :: b, by rw [List.nil_append, List.cons_append, ← hb'], by rw [htok]; simp, by simp,
          List.forall_mem_cons.2 ⟨hspace, hall⟩⟩
      · rw [if_neg hspace, if_neg (by simp [hesc])] at hw ⊢
        by_cases hbad : c = '"' ∨ c = '\'' ∨ c = '(' ∨ isUnprintable c = true
        · rw [if_pos hbad] at hw
          simp [Token.isWhole] at hw
        · rw [if_neg hbad] at hw ⊢
          obtain ⟨v, b, hvb, htok, hv, hb'⟩ := ih ht hw
          refine ⟨c :: v, b, congrArg (c :: ·) hvb, by rw [htok]; simp, ?_, hb'⟩
          refine List.forall_mem_cons.2 ⟨?_, hv⟩
          simp only [not_or] at hbad
          simp [isUrlChar, isQuote, hspace, hbad, hclose, Ne.symm hc]

/-- A whole address is its characters with separators around them, and the closing bracket. -/
theorem url?_spec {t r : Text} {toks : List Token} (hb : '\\' ∉ t) (h : url? t = some (toks, r))
    (hw : ∀ tok ∈ toks, tok.isWhole = true) :
    ∃ a v b, t = a ++ (v ++ (b ++ ')' :: r)) ∧ toks = [.url v true] ∧
      (∀ c ∈ v, isUrlChar c = true) ∧ ∀ c ∈ a ++ b, isSpace c = true := by
  have happ := List.takeWhile_append_dropWhile (p := isSpace) (l := t)
  unfold url? at h
  split at h
  · obtain ⟨rfl, rfl⟩ := Prod.mk.inj (Option.some.inj h)
    simp [Token.isWhole] at hw
  · next c u hu =>
    split at h
    · simp at h
    · have hbu : '\\' ∉ c :: u := fun hm => hb (by rw [← happ, hu]; exact List.mem_append_right _ hm)
      rw [Option.some.injEq] at h
      have hw' : ∀ tok ∈ (bareUrl [] (c :: u)).1, tok.isWhole = true := by rw [h]; exact hw
      obtain ⟨v, b, hvb, htok, hv, hb'⟩ := bareUrl_spec hbu hw'
      rw [h] at hvb htok
      refine ⟨t.takeWhile isSpace, v, b, by rw [← hvb, ← hu, happ], htok, hv, fun x hx => ?_⟩
      rcases List.mem_append.1 hx with hx | hx
      · exact List.mem_takeWhile_imp hx
      · exact hb' x hx

/-- Reading a range of code points leaves an end of the text. -/
theorem unicodeRange_suffix (t : Text) : (unicodeRange t).2 <:+ t := by
  rw [unicodeRange]
  dsimp only
  generalize (t.takeWhile isHexDigit).take 6 = low
  have hlow : t.drop low.length <:+ t := List.drop_suffix ..
  split
  · exact (List.drop_suffix ..).trans hlow
  · split
    · next c r hr =>
      have hr' : c :: r <:+ t.drop low.length := hr ▸ List.suffix_cons ..
      split
      · exact ((List.drop_suffix ..).trans hr').trans hlow
      · exact hlow
    · exact hlow

/-! ### One piece -/

/-- What has been read from the text, if it is whole, is one piece that is spelled there. -/
def ReadsPiece (t : Text) (read : List Lexeme × Text) : Prop :=
  (∀ l ∈ read.1, l.isWhole = true) → ∃ l s, read.1 = [l] ∧ t = s ++ read.2 ∧ Spells l s read.2

/-- What begins with a name is one piece that is spelled there. -/
theorem ReadsIdent.readsPiece {c : Char} {t : Text} {read : List Lexeme × Text} (h : ReadsIdent (c :: t) read)
    (hb : '\\' ∉ c :: t) (hplain : IsPlain c t) (hi : startsIdent (c :: t) = true) : ReadsPiece (c :: t) read := by
  obtain ⟨happ, -, hstop⟩ := name_spec hb
  have hn := isIdent_name hb hi
  cases h with
  | @address n inner after tokens hname hurl hread =>
    rw [hname] at happ hn
    have hbi : '\\' ∉ inner := fun hm => hb (by rw [← happ]; simp [hm])
    intro hw
    obtain ⟨a, v, b, hinner, rfl, hv, hab⟩ := url?_spec hbi hread (by simpa [Lexeme.isWhole] using hw)
    refine ⟨_, n ++ '(' :: (a ++ v ++ b ++ [')']), rfl, ?_, .url hn hurl hab hv⟩
    rw [← happ, hinner]
    simp
  | @call n inner hname hquoted =>
    rw [hname] at happ hn
    exact fun _ => ⟨_, n ++ ['('], rfl, by rw [← happ]; simp, .calls hn fun hu => url?_eq_none_iff.1 (hquoted hu)⟩
  | @ident n r hname hr =>
    rw [hname] at happ hn hstop
    exact fun _ => ⟨_, n, rfl, happ.symm, .ident hn hstop hr (happ ▸ hplain.range) (happ ▸ hplain.arrow)⟩

/-- What begins with a numeral is one piece that is spelled there. -/
theorem ReadsNumber.readsPiece {t ds r : Text} {read : List Lexeme × Text} (h : ReadsNumber ds r read)
    (hb : '\\' ∉ t) (hn : number? t = some (ds, r)) : ReadsPiece t read := by
  obtain ⟨rfl, hds, hends⟩ := number?_spec hn
  have hbr : '\\' ∉ r := fun hm => hb (List.mem_append_right _ hm)
  cases h with
  | dimension hi =>
    obtain ⟨happ, -, hstop⟩ := name_spec hbr
    refine fun _ => ⟨_, ds ++ (name r).1, rfl, by rw [List.append_assoc, happ], ?_⟩
    exact .dimension hds (isIdent_name hbr hi) (happ.symm ▸ hends) hstop
  | percentage after => exact fun _ => ⟨_, ds ++ ['%'], rfl, by simp, .percentage hds⟩
  | number hi hp => exact fun _ => ⟨_, ds, rfl, rfl, .number hds hends hi hp⟩

/-- A character that begins nothing longer is a piece of its own, behind the other checks. -/
theorem IsAlone.isMark {c : Char} {t : Text} (h : IsAlone c t) (hplain : IsPlain c t)
    (hi : startsIdent (c :: t) = false) (hn : startsNumber (c :: t) = false) (hb : '\\' ∉ t) : IsMark c t where
  space := hplain.space
  quote := h.quote
  opened := h.opened
  closed := h.closed
  range := hplain.range
  arrow := hplain.arrow
  ident := hi
  number := hn
  atKeyword := h.atKeyword
  hash hc := by
    have hr := h.hash hc
    cases t with
    | nil => rfl
    | cons d u =>
      have hne : d ≠ '\\' := fun hd => hb (by simp [hd])
      have hd : isNamePart d = false := (Bool.or_eq_false_iff.1 hr).1
      simp [continuesName, hd, hne]
  comment := h.comment
  sheetMark := h.sheetMark
  bar := h.bar
  equals := h.equals

/-- What a single character begins is one piece that is spelled there. -/
theorem ReadsMark.readsPiece {c : Char} {t : Text} {read : List Lexeme × Text} (h : ReadsMark c t read)
    (hb : '\\' ∉ c :: t) (hplain : IsPlain c t) (hi : startsIdent (c :: t) = false)
    (hn : startsNumber (c :: t) = false) (hcom : Text.beginsWith "/*".toList (c :: t) = false) :
    ReadsPiece (c :: t) read := by
  have hbt : '\\' ∉ t := fun hm => hb (List.mem_cons_of_mem _ hm)
  obtain ⟨happ, hparts, hstop⟩ := name_spec hbt
  cases h with
  | opens b => exact fun _ => ⟨_, _, rfl, rfl, .opens b⟩
  | closes b => exact fun _ => ⟨_, _, rfl, rfl, .closes b⟩
  | atKeyword hs =>
    exact fun _ => ⟨_, '@' :: (name t).1, rfl, by rw [List.cons_append, happ], .atKeyword (isIdent_name hbt hs) hstop⟩
  | hash hs =>
    have hcont : continuesName t = true := by
      cases t with
      | nil => simp [startsEscape] at hs
      | cons d u =>
        rw [startsEscape_cons fun hd => hbt (by simp [hd])] at hs
        have hd : isNamePart d = true := by simpa using hs
        simp [continuesName, hd]
    have hne : (name t).1 ≠ [] := fun h0 => by
      rw [h0, List.nil_append] at happ
      rw [happ, hcont] at hstop
      exact Bool.noConfusion hstop
    have hid : startsIdent t = startsIdent (name t).1 := by
      rw [← startsIdent_append hne hparts hstop, happ]
    rw [hid]
    exact fun _ => ⟨_, '#' :: (name t).1, rfl, by rw [List.cons_append, happ], .hash hne hparts hstop⟩
  | quoted hq =>
    intro hw
    obtain ⟨v, hv, htok, hall⟩ := quoted_spec hbt (by simpa [Lexeme.isWhole] using hw)
    rw [htok]
    refine ⟨_, c :: (v ++ [c]), rfl, ?_, .quoted hq hall⟩
    simpa using congrArg (c :: ·) hv
  | comment u => simp [Text.beginsWith, Text.dropPrefix?] at hcom
  | sheetMark u => exact fun _ => ⟨_, "<!--".toList, rfl, rfl, .combination (by decide)⟩
  | bar u => exact fun _ => ⟨_, "||".toList, rfl, rfl, .combination (by decide)⟩
  | equals hj =>
    refine fun _ => ⟨_, [c, '='], rfl, rfl, .combination ?_⟩
    simp only [joinsEquals, Bool.or_eq_true, beq_iff_eq] at hj
    rcases hj with (((rfl | rfl) | rfl) | rfl) | rfl <;> decide
  | alone ha => exact fun _ => ⟨_, [c], rfl, rfl, .mark (ha.isMark hplain hi hn hbt)⟩

/-- **A source is spelled piece by piece.** -/
theorem readsPiece_nextLexemes {c : Char} {t : Text} (hb : '\\' ∉ c :: t)
    (hcom : Text.beginsWith "/*".toList (c :: t) = false) : ReadsPiece (c :: t) (nextLexemes c t) := by
  have h := reads c t
  generalize nextLexemes c t = read at h
  cases h with
  | space hspace =>
    refine fun _ => ⟨_, c :: t.takeWhile isSpace, rfl, by simp, .space (by simp) ?_ ?_⟩
    · exact List.forall_mem_cons.2 ⟨hspace, fun d hd => List.mem_takeWhile_imp hd⟩
    · cases hd : t.dropWhile isSpace with
      | nil => rfl
      | cons d u =>
        have hne : t.dropWhile isSpace ≠ [] := by simp [hd]
        simpa [hd] using List.head_dropWhile_not isSpace hne
  | @range _ u hrange =>
    obtain ⟨s, hs⟩ := unicodeRange_suffix u
    refine fun _ => ⟨_, c :: '+' :: s, rfl, congrArg (c :: '+' :: ·) hs.symm, .unicodeRange ?_ ?_⟩
    · rwa [hs]
    · rw [hs]
  | arrow u => exact fun _ => ⟨_, "-->".toList, rfl, rfl, .combination (by decide)⟩
  | ident hplain hi h => exact h.readsPiece hb hplain hi
  | number hplain hi hn h => exact h.readsPiece hb hn
  | mark hplain hi hn h => exact h.readsPiece hb hplain hi (number?_eq_none_iff.1 hn) hcom

end Css
end ThemeSheet
