/-
# Cutting a style sheet into lexemes

`lexemes` reads a text from left to right.  At each place the first rule that
applies takes the longest piece it can; comments are skipped, and they separate
what stands on both sides.  Nothing is refused: what fits no rule becomes a literal
or one of the error tokens.
-/

import ThemeSheet.Css.Char
import ThemeSheet.Css.Token

namespace ThemeSheet
namespace Css

/-! ### Escapes and names -/

/-- The text without one separating character at its beginning. -/
def dropSpace : Text → Text
  | [] => []
  | c :: t => if isSpace c then t else c :: t

/-- The character with the code point, or the replacement character if there is none. -/
def charOfCode (n : Nat) : Char := if n = 0 ∨ ¬ n.isValidChar then replacementChar else Char.ofNat n

/-- Reads an escape after its backslash: up to six hexadecimal digits and one separator,
or any single character. -/
def escape (t : Text) : Char × Text :=
  let digits := (t.takeWhile isHexDigit).take 6
  if digits.isEmpty then
    match t with
    | [] => (replacementChar, [])
    | c :: r => (c, r)
  else (charOfCode (hexNumber digits), dropSpace (t.drop digits.length))

/-- Leaving out a separator leaves no more than there was. -/
theorem dropSpace_length (t : Text) : (dropSpace t).length ≤ t.length := by
  cases t with
  | nil => simp [dropSpace]
  | cons c t => simp only [dropSpace]; split <;> simp

/-- Reading an escape leaves no more than there was. -/
theorem escape_length (t : Text) : (escape t).2.length ≤ t.length := by
  simp only [escape]
  split
  · split <;> simp
  · exact Nat.le_trans (dropSpace_length _) (by simp)

/-- Reads a name: its characters with escapes resolved, and the rest. -/
def name : Text → Text × Text
  | [] => ([], [])
  | c :: t =>
    if isNamePart c then
      let (chars, rest) := name t
      (c :: chars, rest)
    else if startsEscape (c :: t) then
      let (chars, rest) := name (escape t).2
      ((escape t).1 :: chars, rest)
    else ([], c :: t)
termination_by t => t.length
decreasing_by
  · simp
  · have := escape_length t; simp; omega

/-- Reading a name leaves no more than there was. -/
theorem name_length (t : Text) : (name t).2.length ≤ t.length := by
  fun_induction name t with
  | case1 => simp
  | case2 c t hc chars rest h ih => simp [h] at ih ⊢; omega
  | case3 c t hc he chars rest h ih =>
    have := escape_length t
    simp [h] at ih ⊢; omega
  | case4 => simp

/-- **A name is never empty where an identifier begins.** -/
theorem name_length_lt {c : Char} {t : Text} (h : isNamePart c || startsEscape (c :: t)) :
    (name (c :: t)).2.length ≤ t.length := by
  rw [name]
  split
  · exact name_length t
  · split
    · exact Nat.le_trans (name_length _) (escape_length t)
    · simp_all

/-- The first character of an identifier continues a name, or an escape begins there. -/
theorem isNamePart_of_startsIdent {c : Char} {t : Text} (h : startsIdent (c :: t)) :
    isNamePart c || startsEscape (c :: t) := by
  simp only [Bool.or_eq_true] at *
  unfold startsIdent at h
  split at h <;> simp_all [isNamePart]
  grind

/-! ### Numbers -/

/-- The digits at the beginning, and the rest. -/
def digits (t : Text) : Text × Text := (t.takeWhile Char.isDigit, t.dropWhile Char.isDigit)

/-- The sign at the beginning, if there is one, and the rest. -/
def sign : Text → Text × Text
  | '+' :: t => (['+'], t)
  | '-' :: t => (['-'], t)
  | t => ([], t)

/-- Digits, with a point in between or before them; at least one digit stands last. -/
def mantissa (t : Text) : Text × Text :=
  let (whole, rest) := digits t
  match rest with
  | '.' :: fraction =>
    match digits fraction with
    | ([], _) => (whole, rest)
    | (ds, after) => (whole ++ '.' :: ds, after)
  | _ => (whole, rest)

/-- An exponent, if one stands here. -/
def exponent : Text → Text × Text
  | [] => ([], [])
  | c :: t =>
    if c = 'e' ∨ c = 'E' then
      let (s, rest) := sign t
      match digits rest with
      | ([], _) => ([], c :: t)
      | (ds, after) => (c :: s ++ ds, after)
    else ([], c :: t)

/-- Reads a number as it is written: sign, digits with a point, exponent. -/
def number? (t : Text) : Option (Text × Text) :=
  let (s, afterSign) := sign t
  let (m, afterMantissa) := mantissa afterSign
  if m.isEmpty then none
  else
    let (e, rest) := exponent afterMantissa
    some (s ++ m ++ e, rest)

/-- The digits and the rest are as long as the text. -/
theorem digits_length (t : Text) : (digits t).1.length + (digits t).2.length = t.length := by
  rw [digits, ← List.length_append, List.takeWhile_append_dropWhile]

/-- Reading a sign leaves no more than there was. -/
theorem sign_length (t : Text) : (sign t).2.length ≤ t.length := by
  unfold sign; split <;> simp

/-- The mantissa and the rest are as long as the text. -/
theorem mantissa_length (t : Text) : (mantissa t).1.length + (mantissa t).2.length = t.length := by
  have h := digits_length t
  simp only [mantissa]
  split
  · next fraction hf =>
    rw [hf] at h
    have hd := digits_length fraction
    split
    · simp_all
    · simp_all; omega
  · simp_all

/-- Reading an exponent leaves no more than there was. -/
theorem exponent_length (t : Text) : (exponent t).2.length ≤ t.length := by
  cases t with
  | nil => simp [exponent]
  | cons c t =>
    have hs := sign_length t
    have hd := digits_length (sign t).2
    simp only [exponent]
    split
    · split
      · simp
      · next ds after _ h => rw [h] at hd; simp at hd ⊢; omega
    · simp

/-- Reading a numeral leaves less than there was. -/
theorem number?_length {t ds rest : Text} (h : number? t = some (ds, rest)) :
    rest.length < t.length := by
  have hs := sign_length t
  have hm := mantissa_length (sign t).2
  have he := exponent_length (mantissa (sign t).2).2
  simp only [number?] at h
  split at h
  · simp at h
  · next hne =>
    have := List.length_pos_iff.2 (mt List.isEmpty_iff.2 hne)
    simp at h
    rw [← h.2]; omega

/-! ### Strings, addresses and ranges -/

/-- Reads a string behind its opening quote, up to and including the closing one; `before`
holds its characters so far, the latest first. -/
def quoted (quote : Char) (before : Text) : Text → List Token × Text
  | [] => ([.string before.reverse false, .endInString], [])
  | c :: t =>
    if c = quote then ([.string before.reverse true], t)
    else if c = '\\' then
      match t with
      | [] => ([.string before.reverse false, .endInString], [])
      | d :: r =>
        if d = '\n' then quoted quote before r
        else quoted quote ((escape (d :: r)).1 :: before) (escape (d :: r)).2
    else if c = '\n' then ([.badString], c :: t)
    else quoted quote (c :: before) t
termination_by t => t.length
decreasing_by
  · simp only [List.length_cons]; omega
  · have := escape_length (d :: r)
    simp only [List.length_cons] at this ⊢; omega
  · simp only [List.length_cons]; omega

/-- Reading a string leaves no more than there was. -/
theorem quoted_length (quote : Char) (before t : Text) :
    (quoted quote before t).2.length ≤ t.length := by
  fun_induction quoted quote before t with
  | case1 => simp
  | case2 => simp
  | case3 => simp
  | case4 before r _ ih => simp; omega
  | case5 before d r _ _ ih =>
    have := escape_length (d :: r)
    simp at this ⊢; omega
  | case6 => simp
  | case7 before c t _ _ _ ih => simp; omega

/-- Skips a broken address: up to and including the next round bracket that is not escaped. -/
def skipBadUrl : Text → Text
  | [] => []
  | '\\' :: ')' :: t => skipBadUrl t
  | c :: t => if c = ')' then t else skipBadUrl t

/-- What follows the last character of an address: only separators may stand before the bracket. -/
def closeUrl (value : Text) (t : Text) : List Token × Text :=
  match t.dropWhile isSpace with
  | [] => ([.url value false, .endInUrl], [])
  | c :: r => if c = ')' then ([.url value true], r) else ([.badUrl], skipBadUrl (c :: r))

/-- Reads a bare address; `before` holds its characters so far, the latest first. -/
def bareUrl (before : Text) : Text → List Token × Text
  | [] => ([.url before.reverse false, .endInUrl], [])
  | c :: t =>
    if c = ')' then ([.url before.reverse true], t)
    else if isSpace c then closeUrl before.reverse t
    else if startsEscape (c :: t) then bareUrl ((escape t).1 :: before) (escape t).2
    else if c = '"' ∨ c = '\'' ∨ c = '(' ∨ isUnprintable c then ([.badUrl], skipBadUrl t)
    else bareUrl (c :: before) t
termination_by t => t.length
decreasing_by
  · have := escape_length t; simp; omega
  · simp

/-- Leaving out a beginning leaves no more than there was. -/
theorem length_dropWhile_le (p : Char → Bool) (t : Text) : (t.dropWhile p).length ≤ t.length :=
  (List.dropWhile_sublist p).length_le

/-- Skipping a malformed address leaves no more than there was. -/
theorem skipBadUrl_length (t : Text) : (skipBadUrl t).length ≤ t.length := by
  fun_induction skipBadUrl t with
  | case1 => simp
  | case2 t ih => simp; omega
  | case3 => simp
  | case4 c t _ _ ih => simp; omega

/-- Reading the closing bracket of an address leaves no more than there was. -/
theorem closeUrl_length (value t : Text) : (closeUrl value t).2.length ≤ t.length := by
  have h := length_dropWhile_le isSpace t
  unfold closeUrl
  split
  · simp
  · next c r hr =>
    rw [hr] at h
    split
    · simp at h ⊢; omega
    · exact Nat.le_trans (skipBadUrl_length _) h

/-- Reading an address without quotes leaves no more than there was. -/
theorem bareUrl_length (before t : Text) : (bareUrl before t).2.length ≤ t.length := by
  fun_induction bareUrl before t with
  | case1 => simp
  | case2 => simp
  | case3 before c t _ _ => have := closeUrl_length before.reverse t; simp; omega
  | case4 before c t _ _ _ ih => have := escape_length t; simp at ih ⊢; omega
  | case5 before c t _ _ _ _ => have := skipBadUrl_length t; simp; omega
  | case6 before c t _ _ _ _ ih => simp; omega

/-- Reads what follows the name and the bracket of an address: a quote makes it an ordinary call. -/
def url? (t : Text) : Option (List Token × Text) :=
  match t.dropWhile isSpace with
  | [] => some ([.url [] false, .endInUrl], [])
  | c :: r => if c = '"' ∨ c = '\'' then none else some (bareUrl [] (c :: r))

/-- Reading an address leaves no more than there was. -/
theorem url?_length {t : Text} {r : List Token × Text} (h : url? t = some r) :
    r.2.length ≤ t.length := by
  have hd := length_dropWhile_le isSpace t
  unfold url? at h
  split at h
  · simp at h; simp [← h]
  · next c u hu =>
    split at h
    · simp at h
    · simp at h
      rw [hu] at hd
      rw [← h]; exact Nat.le_trans (bareUrl_length _ _) hd

/-- Reads a range of code points behind its `U+`: digits and question marks for any digit,
six in all, or two numbers with a hyphen. -/
def unicodeRange (t : Text) : Token × Text :=
  let low := (t.takeWhile isHexDigit).take 6
  let afterLow := t.drop low.length
  let marks := (afterLow.takeWhile (· == '?')).take (6 - low.length)
  if !marks.isEmpty then
    (.unicodeRange (hexNumber (low ++ marks.map fun _ => '0')) (hexNumber (low ++ marks.map fun _ => 'F')),
      afterLow.drop marks.length)
  else
    match afterLow with
    | '-' :: c :: r =>
      if isHexDigit c then
        let high := ((c :: r).takeWhile isHexDigit).take 6
        (.unicodeRange (hexNumber low) (hexNumber high), (c :: r).drop high.length)
      else (.unicodeRange (hexNumber low) (hexNumber low), afterLow)
    | _ => (.unicodeRange (hexNumber low) (hexNumber low), afterLow)

/-- Reading a range of code points leaves no more than there was. -/
theorem unicodeRange_length (t : Text) : (unicodeRange t).2.length ≤ t.length := by
  simp only [unicodeRange]
  generalize (t.takeWhile isHexDigit).take 6 = low
  have h : (t.drop low.length).length ≤ t.length := by simp
  split
  · simp only [List.length_drop]; omega
  · split
    · next c r hr =>
      have hr' := congrArg List.length hr
      split
      · simp only [List.length_drop, List.length_cons] at h hr' ⊢; omega
      · exact h
    · exact h

/-- What follows the end of a comment whose opening has been read. -/
def skipComment : Text → Text
  | [] => []
  | '*' :: '/' :: t => t
  | _ :: t => skipComment t

/-- Skipping a comment leaves no more than there was. -/
theorem skipComment_length (t : Text) : (skipComment t).length ≤ t.length := by
  fun_induction skipComment t with
  | case1 => simp
  | case2 => simp; omega
  | case3 c t _ ih => simp; omega

/-! ### Lexemes -/

/-- Does a range of code points begin here? -/
def startsUnicodeRange : Text → Bool
  | u :: '+' :: c :: _ => (u == 'u' || u == 'U') && (isHexDigit c || c == '?')
  | _ => false

/-- The name that makes a call an address, in any letter case. -/
def isUrlName (n : Text) : Bool := Text.asciiLower n == "url".toList

/-- A name, a call or a bare address, where an identifier begins. -/
def identLexemes (t : Text) : List Lexeme × Text :=
  let (n, rest) := name t
  match rest with
  | '(' :: inner =>
    match if isUrlName n then url? inner else none with
    | some (tokens, after) => (tokens.map .token, after)
    | none => ([.calls n], inner)
  | _ => ([.token (.ident n)], rest)

/-- A number with what makes it a dimension or a percentage. -/
def numberLexemes (digits rest : Text) : List Lexeme × Text :=
  if startsIdent rest then
    let (unit, after) := name rest
    ([.token (.dimension digits unit)], after)
  else
    match rest with
    | '%' :: after => ([.token (.percentage digits)], after)
    | _ => ([.token (.number digits)], rest)

/-- Characters that join a following equals sign. -/
def joinsEquals (c : Char) : Bool := c == '~' || c == '|' || c == '^' || c == '$' || c == '*'

/-- A single character that begins no longer piece, with what it may combine with. -/
def markLexemes (c : Char) (t : Text) : List Lexeme × Text :=
  match Bracket.opened? c, Bracket.closed? c with
  | some b, _ => ([.opens b], t)
  | none, some b => ([.closes b], t)
  | none, none =>
    if c = '@' then
      if startsIdent t then ([.token (.atKeyword (name t).1)], (name t).2) else ([.token (.literal [c])], t)
    else if c = '#' then
      if (t.head?.any isNamePart) || startsEscape t then
        ([.token (.hash (name t).1 (startsIdent t))], (name t).2)
      else ([.token (.literal [c])], t)
    else if c = '"' ∨ c = '\'' then ((quoted c [] t).1.map .token, (quoted c [] t).2)
    else
      match c, t with
      | '/', '*' :: r => ([], skipComment r)
      | '<', '!' :: '-' :: '-' :: r => ([.token (.literal "<!--".toList)], r)
      | '|', '|' :: r => ([.token (.literal "||".toList)], r)
      | c, '=' :: r =>
        if joinsEquals c then ([.token (.literal [c, '='])], r) else ([.token (.literal [c])], '=' :: r)
      | c, t => ([.token (.literal [c])], t)

/-- The lexemes at the beginning of the text `c :: t`, at most two of them, and the rest. -/
def nextLexemes (c : Char) (t : Text) : List Lexeme × Text :=
  if isSpace c then ([.token (.space (c :: t.takeWhile isSpace))], t.dropWhile isSpace)
  else if startsUnicodeRange (c :: t) then
    let (range, rest) := unicodeRange (t.drop 1)
    ([.token range], rest)
  else
    match Text.dropPrefix? "-->".toList (c :: t) with
    | some rest => ([.token (.literal "-->".toList)], rest)
    | none =>
      if startsIdent (c :: t) then identLexemes (c :: t)
      else
        match number? (c :: t) with
        | some (ds, rest) => numberLexemes ds rest
        | none => markLexemes c t

/-- Reading what begins with a name takes the first character at least. -/
theorem identLexemes_length {c : Char} {t : Text} (h : startsIdent (c :: t)) :
    (identLexemes (c :: t)).2.length ≤ t.length := by
  have hn := name_length_lt (isNamePart_of_startsIdent h)
  simp only [identLexemes]
  split
  · next inner hr =>
    rw [hr] at hn
    split
    · next tokens after hu =>
      split at hu
      · have := url?_length hu
        simp at hn this ⊢; omega
      · simp at hu
    · simp at hn ⊢; omega
  · exact hn

/-- Reading what stands behind a numeral leaves no more than there was. -/
theorem numberLexemes_length (ds t : Text) : (numberLexemes ds t).2.length ≤ t.length := by
  have := name_length t
  simp only [numberLexemes]
  split
  · exact this
  · split <;> simp

/-- Reading what a single character begins leaves no more than what stands behind it. -/
theorem markLexemes_length (c : Char) (t : Text) : (markLexemes c t).2.length ≤ t.length := by
  have hn := name_length t
  have hq := quoted_length c [] t
  unfold markLexemes
  split
  · simp
  · simp
  · split
    · split <;> simp [hn]
    · split
      · split <;> simp [hn]
      · split
        · exact hq
        · split
          · next r _ _ _ _ _ => have := skipComment_length r; simp; omega
          · simp; omega
          · simp
          · split <;> simp
          · simp

/-- **Every step takes at least one character.** -/
theorem nextLexemes_length (c : Char) (t : Text) : (nextLexemes c t).2.length ≤ t.length := by
  unfold nextLexemes
  split
  · exact length_dropWhile_le isSpace t
  · split
    · exact Nat.le_trans (unicodeRange_length _) (by simp)
    · split
      · next rest h =>
        have := congrArg List.length (Text.dropPrefix?_eq_some.1 h)
        simp at this ⊢; omega
      · split
        · next h => exact identLexemes_length h
        · split
          · next ds rest h =>
            have := number?_length h
            have := numberLexemes_length ds rest
            simp at *; omega
          · exact markLexemes_length c t

/-- The lexemes of a text whose line ends are line feeds. -/
def lexemes : Text → List Lexeme
  | [] => []
  | c :: t => (nextLexemes c t).1 ++ lexemes (nextLexemes c t).2
termination_by t => t.length
decreasing_by have := nextLexemes_length c t; simp; omega

end Css
end ThemeSheet
