/-
# The written form of a piece

The written form of a lexeme is a way to write it again, up to the letter case of an
escaped unit, wherever what follows is an echo of what followed in the source.
-/

import ThemeSheet.Proofs.Css.Echo
import ThemeSheet.Proofs.Css.Printing
import ThemeSheet.Proofs.Css.Range

namespace ThemeSheet
namespace Css

/-! ### Written names and units -/

/-- A character that continues names is written as it is. -/
theorem nameChar_of_isNamePart {c : Char} (h : isNamePart c = true) : nameChar c = [c] := by
  rw [nameChar, if_pos h]

/-- A name of such characters is written as it is. -/
theorem writtenName_eq {n : Text} (h : ∀ c ∈ n, isNamePart c = true) : writtenName n = n := by
  induction n with
  | nil => rfl
  | cons c n ih =>
    obtain ⟨hc, hn⟩ := List.forall_mem_cons.1 h
    rw [writtenName, List.flatMap_cons, nameChar_of_isNamePart hc, List.singleton_append]
    exact congrArg (c :: ·) (ih hn)

/-- A letter is written as it is at the beginning of a name. -/
theorem firstChar_of_isNameStart {c : Char} (h : isNameStart c = true) : firstChar c = [c] := by
  rw [firstChar, if_pos h]

/-- A letter is no hyphen. -/
theorem ne_hyphen_of_isNameStart {c : Char} (h : isNameStart c = true) : c ≠ '-' := by
  rintro rfl
  rw [not_isNameStart_hyphen] at h
  exact Bool.noConfusion h

/-- **An identifier is written as it is.** -/
theorem IsIdent.written_eq {n : Text} (h : IsIdent n) : writtenIdent n = n := by
  rcases h.shape with ⟨c, u, rfl, hc⟩ | ⟨d, v, rfl, hd⟩
  · have hu := writtenName_eq (List.forall_mem_cons.1 h.parts).2
    have hne := ne_hyphen_of_isNameStart hc
    unfold writtenIdent
    split <;> simp_all [firstChar_of_isNameStart]
  · have hv := writtenName_eq (List.forall_mem_cons.1 (List.forall_mem_cons.1 h.parts).2).2
    rcases hd with hd | rfl
    · have hwritten : writtenIdent ('-' :: d :: v) = '-' :: (firstChar d ++ writtenName v) := by
        have hne := ne_hyphen_of_isNameStart hd
        unfold writtenIdent
        split <;> grind
      rw [hwritten, firstChar_of_isNameStart hd, hv, List.singleton_append]
    · rw [writtenIdent, hv]

/-- An identifier is written as it is. -/
theorem IsIdent.written_ident {n : Text} (h : IsIdent n) : Lexeme.written (.token (.ident n)) = n := h.written_eq

/-- An at-keyword is written as an at sign and its name. -/
theorem IsIdent.written_atKeyword {n : Text} (h : IsIdent n) :
    Lexeme.written (.token (.atKeyword n)) = '@' :: n := congrArg ('@' :: ·) h.written_eq

/-- The beginning of a call is written as its name and the bracket. -/
theorem IsIdent.written_calls {n : Text} (h : IsIdent n) : Lexeme.written (.calls n) = n ++ ['('] :=
  congrArg (· ++ ['(']) h.written_eq

/-- A unit that could be taken for an exponent is written with its first letter escaped. -/
theorem IsIdent.writtenUnit_of_exponentLike {u : Text} (h : IsIdent u) (hexp : isExponentLike u = true) :
    writtenUnit u = "\\65 ".toList ++ u.tail := by
  rw [Css.writtenUnit_of_exponentLike hexp, writtenName_eq fun c hc => h.parts c (List.mem_of_mem_tail hc)]

/-- Any other unit is written as it is. -/
theorem IsIdent.writtenUnit_of_not_exponentLike {u : Text} (h : IsIdent u) (hexp : isExponentLike u = false) :
    writtenUnit u = u := by
  rw [Css.writtenUnit_of_not_exponentLike hexp, h.written_eq]

/-- The letter e begins an exponent before a digit. -/
theorem startsExponent_cons {c d : Char} {t : Text} (hc : c = 'e' ∨ c = 'E') (hd : d ≠ '+' ∧ d ≠ '-') :
    startsExponent (c :: d :: t) = d.isDigit := by
  have hsign : sign (d :: t) = ([], d :: t) := sign_append (s := []) .none hd
  rw [startsExponent, exponent, if_pos hc, hsign]
  cases hdig : d.isDigit with
  | true => simp [digits, hdig]
  | false => simp [digits, hdig]

/-- Another letter begins no exponent. -/
theorem startsExponent_of_ne {c : Char} {t : Text} (hc : c ≠ 'e' ∧ c ≠ 'E') :
    startsExponent (c :: t) = false := by
  simp [startsExponent, exponent, hc]

/-- Behind its unit a numeral ends whatever follows, if the unit could not be taken for an exponent. -/
theorem numeralEnds_unit {ds u r t : Text} (hu : IsIdent u) (he : isExponentLike u = false)
    (h : NumeralEnds ds (u ++ r)) : NumeralEnds ds (u ++ t) := by
  obtain ⟨c, v, rfl, hc⟩ := hu.eq_cons
  have hpoint : c ≠ '.' := ne_of_isNamePart hc (by decide)
  refine ⟨h.digit, .inr (.inr (.inr ?_)), h.exponent.imp_right (Or.imp_right fun hexp => ?_)⟩
  · unfold startsFraction
    split
    · next heq => exact absurd (List.cons.inj heq).1 hpoint
    · rfl
  · by_cases hletter : c = 'e' ∨ c = 'E'
    · cases v with
      | nil => rcases hletter with rfl | rfl <;> exact absurd he (by decide)
      | cons d v =>
        have hd : d ≠ '+' ∧ d ≠ '-' := by
          refine ⟨ne_of_isNamePart (hu.parts d (by simp)) (by decide), ?_⟩
          rintro rfl
          rcases hletter with rfl | rfl <;> simp [isExponentLike] at he
        rw [List.cons_append, List.cons_append, startsExponent_cons hletter hd] at hexp ⊢
        exact hexp
    · exact startsExponent_of_ne (not_or.1 hletter)

/-- Where no identifier begins, no exponent does. -/
theorem startsExponent_of_startsIdent {t : Text} (h : startsIdent t = false) : startsExponent t = false := by
  cases t with
  | nil => rfl
  | cons c t =>
    by_cases hletter : c = 'e' ∨ c = 'E'
    · have hstart : startsIdent (c :: t) = isNameStart c := by
        rcases hletter with rfl | rfl <;> exact startsIdent_cons (by decide) (by decide)
      rw [hstart] at h
      rcases hletter with rfl | rfl <;> exact absurd h (by decide)
    · exact startsExponent_of_ne (not_or.1 hletter)

/-- A hash is written as it is. -/
theorem written_hash_eq {n : Text} (hn : ∀ c ∈ n, isNamePart c = true) :
    Lexeme.written (.token (.hash n (startsIdent n))) = '#' :: n := by
  rw [Lexeme.written, Token.written_hash]
  split
  · next hi => rw [IsIdent.written_eq ⟨hi, hn⟩]
  · rw [writtenName_eq hn]

/-- The characters of an address are written as they are. -/
theorem writtenUrl_eq {v : Text} (hv : ∀ c ∈ v, isUrlChar c = true)
    (hs : ∀ c ∈ v, c ≠ '\r' ∧ c ≠ '\x0c') : v.flatMap urlChar = v := by
  induction v with
  | nil => rfl
  | cons c v ih =>
    obtain ⟨hc, hv'⟩ := List.forall_mem_cons.1 hv
    obtain ⟨⟨hr, hf⟩, hs'⟩ := List.forall_mem_cons.1 hs
    simp only [isUrlChar, isQuote, isSpace, Bool.not_eq_true', Bool.or_eq_false_iff,
      beq_eq_false_iff_ne] at hc
    have hchar : urlChar c = [c] := by
      simp [urlChar, lineEndEscape?, hc, hr, hf]
    rw [List.flatMap_cons, hchar, ih hv' hs', List.singleton_append]

/-! ### Echoes of pieces -/

/-- A text before both texts keeps the echo. -/
theorem Echo.append {r t : Text} (h : Echo r t) (s : Text) : Echo (s ++ r) (s ++ t) := by
  induction s with
  | nil => exact h
  | cons c s ih => exact .same c ih

/-- What would make a false thing true is false. -/
theorem eq_false_of_imp {a b : Bool} (h : a = true → b = true) (hb : b = false) : a = false := by
  cases a with
  | false => rfl
  | true => rw [h rfl] at hb; exact Bool.noConfusion hb

/-- A mark stays one before an echo. -/
theorem IsMark.echo {c : Char} {r t : Text} (h : IsMark c r) (hb : '\\' ∉ c :: r) (he : Echo r t) :
    IsMark c t := by
  have hc : Echo (c :: r) (c :: t) := he.same c
  have hbr : '\\' ∉ r := fun hm => hb (List.mem_cons_of_mem _ hm)
  exact ⟨h.space, h.quote, h.opened, h.closed, eq_false_of_imp hc.startsUnicodeRange h.range,
    eq_false_of_imp (hc.beginsWith _ (by decide)) h.arrow, eq_false_of_imp (hc.startsIdent hb) h.ident,
    eq_false_of_imp hc.startsNumber h.number,
    fun hat => eq_false_of_imp (he.startsIdent hbr) (h.atKeyword hat),
    fun hhash => eq_false_of_imp he.continuesName (h.hash hhash),
    fun hs => he.head? (by decide) (h.comment hs),
    fun hs => eq_false_of_imp (he.beginsWith _ (by decide)) (h.sheetMark hs),
    fun hs => he.head? (by decide) (h.bar hs), fun hs => he.head? (by decide) (h.equals hs)⟩

/-- **The written form of a piece spells it** before an echo of what followed. -/
theorem Spells.respell {l : Lexeme} {s r t : Text} (h : Spells l s r) (hb : '\\' ∉ s ++ r)
    (hs : ∀ c ∈ s, c ≠ '\r' ∧ c ≠ '\x0c') (he : Echo r t)
    (hspace : ∀ run, l = .token (.space run) → t.head?.any isSpace = false)
    (hrange : l.kind? = some .unicodeRange → RangeEnds t)
    (hcall : ∀ n, l = .calls n → isUrlName n = true → startsQuoted t = true) :
    Spells l.soft l.written t := by
  have hbr : '\\' ∉ r := fun hm => hb (List.mem_append_right _ hm)
  cases h with
  | ident hn hr hp hu ha =>
    rw [hn.written_ident]
    exact .ident hn (eq_false_of_imp he.continuesName hr) (he.head? (by decide) hp)
      (eq_false_of_imp (he.append s).startsUnicodeRange hu)
      (eq_false_of_imp ((he.append s).beginsWith _ (by decide)) ha)
  | atKeyword hn hr =>
    rw [hn.written_atKeyword]
    exact .atKeyword hn (eq_false_of_imp he.continuesName hr)
  | @hash n _ hne hn hr =>
    rw [written_hash_eq hn]
    exact .hash hne hn (eq_false_of_imp he.continuesName hr)
  | @number ds _ hds hends hi hp =>
    have hi' := eq_false_of_imp (he.startsIdent hbr) hi
    exact .number hds ⟨eq_false_of_imp he.startsDigit hends.digit,
      hends.fraction.imp_right (Or.imp_right (Or.imp_right (eq_false_of_imp he.startsFraction))),
      .inr (.inr (startsExponent_of_startsIdent hi'))⟩ hi' (he.head? (by decide) hp)
  | percentage hds => exact .percentage hds
  | @dimension ds u _ hds hu hends hr =>
    have hr' := eq_false_of_imp he.continuesName hr
    cases hexp : isExponentLike u with
    | true =>
      have hw : Lexeme.written (.token (.dimension ds u)) = ds ++ ("\\65 ".toList ++ u.tail) := by
        rw [Lexeme.written, Token.written_dimension, hu.writtenUnit_of_exponentLike hexp]
      have hsoft : Lexeme.soft (.token (.dimension ds u)) = .token (.dimension ds ('e' :: u.tail)) := by
        rw [Lexeme.soft, Token.soft, softUnit, if_pos hexp]
      rw [hw, hsoft]
      exact .escapedUnit hds (fun c hc => hu.parts c (List.mem_of_mem_tail hc)) hr'
    | false =>
      have hw : Lexeme.written (.token (.dimension ds u)) = ds ++ u := by
        rw [Lexeme.written, Token.written_dimension, hu.writtenUnit_of_not_exponentLike hexp]
      have hsoft : Lexeme.soft (.token (.dimension ds u)) = .token (.dimension ds u) := by
        rw [Lexeme.soft, Token.soft, softUnit, if_neg (by simp [hexp])]
      rw [hw, hsoft]
      exact .dimension hds hu (numeralEnds_unit hu hexp hends) hr'
  | escapedUnit => exact absurd hb (by simp)
  | bareUnit => exact absurd hb (by simp)
  | @unicodeRange u s _ tok hstart hread =>
    obtain ⟨first, last, htok, hf, hl⟩ := unicodeRange_spec (s ++ r)
    rw [hread] at htok
    subst htok
    obtain ⟨-, hne, hall⟩ := writtenCode_spec first
    obtain ⟨c, v, hc⟩ := List.exists_cons_of_ne_nil hne
    refine .unicodeRange (u := 'U') ?_ (unicodeRange_written hf hl (hrange rfl))
    have hhex := hall c (by simp [hc])
    simp [hc, startsUnicodeRange, hhex]
  | @quoted q v _ hq hv =>
    refine .string fun c hc => ⟨(hv c hc).2.2, hs c (by simp [hc])⟩
  | string hv => exact .string hv
  | @url n a v b _ hn hurl hab hv =>
    have hw : v.flatMap urlChar = v := writtenUrl_eq hv fun c hc => hs c (by simp [hc])
    have hurlname : IsIdent "url".toList := ⟨by decide, by decide⟩
    have hw' : Lexeme.written (.token (.url v true)) = "url".toList ++ '(' :: ([] ++ v ++ [] ++ [')']) := by
      rw [Lexeme.written, Token.written_url, hw]
      simp
    rw [hw']
    exact .url hurlname (by decide) (by simp) hv
  | space hne hrun hr => exact .space hne hrun (hspace _ rfl)
  | mark hm => exact .mark (hm.echo (by simpa using hb) he)
  | combination hcs => exact .combination hcs
  | opens b => exact .opens b
  | closes b => exact .closes b
  | @calls n _ hn hq =>
    rw [hn.written_calls]
    exact .calls hn (hcall n rfl)

/-- What the written form of a piece and an echo behind it are to the source. -/
theorem Spells.echo {l : Lexeme} {s r t : Text} (h : Spells l s r) (hb : '\\' ∉ s) (he : Echo r t) :
    Echo (s ++ r) (l.written ++ t) := by
  cases h with
  | ident hn =>
    rw [hn.written_ident]
    exact he.append s
  | atKeyword hn =>
    rw [hn.written_atKeyword]
    exact he.append _
  | @hash n _ hne hn =>
    rw [written_hash_eq hn]
    exact he.append _
  | number => exact he.append _
  | percentage => exact he.append _
  | @dimension ds u _ hds hu hends hr =>
    rw [Lexeme.written, Token.written_dimension, List.append_assoc, List.append_assoc]
    refine Echo.append ?_ ds
    cases hexp : isExponentLike u with
    | true =>
      rw [writtenUnit_of_exponentLike hexp]
      cases u with
      | nil => simp [isExponentLike] at hexp
      | cons c u =>
        have hc : c = 'e' ∨ c = 'E' := by
          simp only [isExponentLike, Bool.and_eq_true, Bool.or_eq_true, beq_iff_eq] at hexp
          exact hexp.1
        refine .escape ?_
        rcases hc with rfl | rfl <;> decide
    | false =>
      rw [hu.writtenUnit_of_not_exponentLike hexp]
      exact he.append u
  | escapedUnit => exact absurd hb (by simp)
  | bareUnit => exact absurd hb (by simp)
  | @unicodeRange u s _ tok hstart hread =>
    obtain ⟨first, last, htok, -⟩ := unicodeRange_spec (s ++ r)
    rw [hread] at htok
    subst htok
    exact .range hstart
  | quoted | string => exact .still (by rintro c ⟨⟩; decide)
  | @url n a v b _ hn hurl =>
    rw [Lexeme.written, Token.written_url, List.append_assoc, List.append_assoc, List.append_assoc]
    exact .address hn hurl
  | space => exact he.append _
  | mark => exact he.append _
  | combination => exact he.append _
  | opens => exact he.append _
  | closes => exact he.append _
  | calls hn =>
    rw [hn.written_calls]
    exact he.append _

end Css
end ThemeSheet
