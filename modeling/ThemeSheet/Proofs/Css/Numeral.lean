/-
# Names and numerals in a style sheet

What a name and a numeral look like, and where they end.  A reader of either takes
exactly what has this look and stops at the first character that cannot go on.
-/

import Mathlib.Data.List.TakeWhile
import ThemeSheet.Css.Lexer

namespace ThemeSheet
namespace Css

/-! ### Names -/

/-- Would the text carry on a name that stands before it? -/
def continuesName (r : Text) : Bool := r.head?.any fun c => isNamePart c || c == '\\'

/-- A name that can stand alone, without escapes. -/
structure IsIdent (n : Text) : Prop where
  starts : startsIdent n = true
  parts : ∀ c ∈ n, isNamePart c = true

/-- An escape begins with a backslash only. -/
theorem startsEscape_cons {c : Char} {t : Text} (hc : c ≠ '\\') : startsEscape (c :: t) = false := by
  unfold startsEscape
  split <;> simp_all

/-- Where no name goes on, no escape begins. -/
theorem startsEscape_of_not_continuesName {r : Text} (h : continuesName r = false) :
    startsEscape r = false := by
  cases r with
  | nil => rfl
  | cons c r => exact startsEscape_cons (by rintro rfl; simp [continuesName] at h)

/-- Where no name goes on, the empty name is read. -/
theorem name_of_not_continuesName {r : Text} (h : continuesName r = false) : name r = ([], r) := by
  cases r with
  | nil => rw [name]
  | cons c r =>
    have hc : isNamePart c = false := by
      cases hp : isNamePart c
      · rfl
      · simp [continuesName, hp] at h
    rw [name, if_neg (by simp [hc]), if_neg (by simp [startsEscape_of_not_continuesName h])]

/-- **A name is read up to the first character that does not carry it on.** -/
theorem name_append {n r : Text} (hn : ∀ c ∈ n, isNamePart c = true) (hr : continuesName r = false) :
    name (n ++ r) = (n, r) := by
  induction n with
  | nil => exact name_of_not_continuesName hr
  | cons c n ih =>
    rw [List.cons_append, name, if_pos (hn c (List.mem_cons_self ..)),
      ih fun d hd => hn d (List.mem_cons_of_mem _ hd)]

/-- **What is read as a name without escapes** stands there as it is. -/
theorem name_spec {t : Text} (ht : '\\' ∉ t) :
    (name t).1 ++ (name t).2 = t ∧ (∀ c ∈ (name t).1, isNamePart c = true) ∧
      continuesName (name t).2 = false := by
  induction t with
  | nil => rw [name]; exact ⟨rfl, by simp, rfl⟩
  | cons c t ih =>
    obtain ⟨hc, ht'⟩ := not_or.1 (List.mem_cons.not.1 ht)
    have hesc : startsEscape (c :: t) = false := startsEscape_cons (Ne.symm hc)
    rw [name]
    by_cases hp : isNamePart c = true
    · obtain ⟨happ, hparts, hstop⟩ := ih ht'
      rw [if_pos hp]
      exact ⟨congrArg (c :: ·) happ, List.forall_mem_cons.2 ⟨hp, hparts⟩, hstop⟩
    · rw [if_neg hp, if_neg (by simp [hesc])]
      exact ⟨rfl, by simp, by simp [continuesName, hp, Ne.symm hc]⟩

/-- A character that begins a name continues one. -/
theorem isNamePart_of_isNameStart {c : Char} (h : isNameStart c = true) : isNamePart c = true := by
  simp [isNamePart, h]

/-- A hyphen alone begins no name. -/
theorem not_isNameStart_hyphen : isNameStart '-' = false := by decide

/-- A backslash continues no name by itself. -/
theorem not_isNamePart_backslash : isNamePart '\\' = false := by decide

/-- An identifier begins with a character that may begin a name, or with a hyphen before such a
character or before another hyphen. -/
theorem startsIdent_iff {t : Text} (ht : '\\' ∉ t) :
    startsIdent t = true ↔ (∃ c u, t = c :: u ∧ isNameStart c = true) ∨
      ∃ d v, t = '-' :: d :: v ∧ (isNameStart d = true ∨ d = '-') := by
  match t with
  | [] => simp [startsIdent]
  | [c] =>
    have hc : startsEscape [c] = false := startsEscape_cons (by rintro rfl; simp at ht)
    simp [startsIdent, hc]
  | c :: d :: v =>
    have hc : startsEscape (c :: d :: v) = false := startsEscape_cons (by rintro rfl; simp at ht)
    have hd : startsEscape (d :: v) = false := startsEscape_cons (by rintro rfl; simp at ht)
    by_cases h : c = '-'
    · subst h
      simp [startsIdent, hd, not_isNameStart_hyphen]
    · simp [startsIdent, hc, h]

/-- A digit begins no name. -/
theorem isNameStart_of_isDigit {c : Char} (h : c.isDigit = true) : isNameStart c = false := by
  have hne : c ≠ '_' := by rintro rfl; revert h; decide
  simp only [isNameStart]
  delta Char.isAlpha Char.isUpper Char.isLower
  simp only [Char.isDigit, Bool.and_eq_true,
    decide_eq_true_eq, ge_iff_le, UInt32.le_iff_toNat_le, Char.toNat, Bool.or_eq_false_iff,
    Bool.and_eq_false_iff, decide_eq_false_iff_not, beq_eq_false_iff_ne] at *
  refine ⟨⟨?_, hne⟩, ?_⟩ <;> simp at * <;> omega

/-- Where neither a hyphen nor a backslash stands, the first character decides. -/
theorem startsIdent_cons {c : Char} {t : Text} (hm : c ≠ '-') (he : c ≠ '\\') :
    startsIdent (c :: t) = isNameStart c := by
  unfold startsIdent
  split <;> simp_all [startsEscape_cons]

/-- A text of characters that continue names holds no backslash. -/
theorem notMem_backslash {n : Text} (h : ∀ c ∈ n, isNamePart c = true) : '\\' ∉ n := fun hm => by
  have := h _ hm
  rw [not_isNamePart_backslash] at this
  exact Bool.false_ne_true this

/-- An identifier begins with a letter, or with a hyphen and a letter or another hyphen. -/
theorem IsIdent.shape {n : Text} (h : IsIdent n) :
    (∃ c u, n = c :: u ∧ isNameStart c = true) ∨
      ∃ d v, n = '-' :: d :: v ∧ (isNameStart d = true ∨ d = '-') :=
  (startsIdent_iff (notMem_backslash h.parts)).1 h.starts

/-- An identifier begins with a character that continues names. -/
theorem IsIdent.eq_cons {n : Text} (h : IsIdent n) : ∃ c u, n = c :: u ∧ isNamePart c = true := by
  rcases h.shape with ⟨c, u, rfl, hc⟩ | ⟨d, v, rfl, -⟩
  · exact ⟨c, u, rfl, isNamePart_of_isNameStart hc⟩
  · exact ⟨'-', d :: v, rfl, by decide⟩

/-- **An identifier begins where it stands,** whatever follows it. -/
theorem IsIdent.startsIdent_append {n : Text} (h : IsIdent n) (r : Text) :
    startsIdent (n ++ r) = true := by
  rcases h.shape with ⟨c, u, rfl, hc⟩ | ⟨d, v, rfl, hd⟩
  · rw [List.cons_append]
    unfold startsIdent
    split <;> simp_all [not_isNameStart_hyphen]
  · rcases hd with hd | rfl <;> simp [startsIdent, *]

/-- **What is read as a name where an identifier begins** is an identifier. -/
theorem isIdent_name {t : Text} (ht : '\\' ∉ t) (hs : startsIdent t = true) : IsIdent (name t).1 := by
  have hparts := (name_spec ht).2.1
  refine ⟨(startsIdent_iff (notMem_backslash hparts)).2 ?_, hparts⟩
  rcases (startsIdent_iff ht).1 hs with ⟨c, u, rfl, hc⟩ | ⟨d, v, rfl, hd⟩
  · refine .inl ⟨c, (name u).1, ?_, hc⟩
    rw [name, if_pos (isNamePart_of_isNameStart hc)]
  · have hdp : isNamePart d = true := by
      rcases hd with hd | rfl
      · exact isNamePart_of_isNameStart hd
      · decide
    refine .inr ⟨d, (name v).1, ?_, hd⟩
    rw [name, if_pos (by decide), name, if_pos hdp]

/-! ### Numerals -/

/-- A run of digits that is not empty. -/
def IsDigits (t : Text) : Prop := t ≠ [] ∧ ∀ c ∈ t, c.isDigit = true

/-- A sign, or none. -/
inductive IsSign : Text → Prop
  | none : IsSign []
  | plus : IsSign ['+']
  | minus : IsSign ['-']

/-- Digits, with a point before the last of them or without one. -/
inductive IsMantissa : Text → Prop
  | whole {w : Text} : IsDigits w → IsMantissa w
  | fraction {w f : Text} : (∀ c ∈ w, c.isDigit = true) → IsDigits f → IsMantissa (w ++ '.' :: f)

/-- A power of ten. -/
inductive IsExponent : Text → Prop
  | intro {c : Char} {s d : Text} : c = 'e' ∨ c = 'E' → IsSign s → IsDigits d → IsExponent (c :: s ++ d)

/-- A number as it is written. -/
inductive IsNumeral : Text → Prop
  | plain {s m : Text} : IsSign s → IsMantissa m → IsNumeral (s ++ m)
  | power {s m e : Text} : IsSign s → IsMantissa m → IsExponent e → IsNumeral (s ++ m ++ e)

/-- Does a digit stand here? -/
def startsDigit (r : Text) : Bool := r.head?.any Char.isDigit

/-- Do a point and a digit stand here? -/
def startsFraction : Text → Bool
  | '.' :: r => startsDigit r
  | _ => false

/-- Does a power of ten stand here? -/
def startsExponent (r : Text) : Bool := !(exponent r).1.isEmpty

/-- Nothing behind the numeral could carry it on: no digit, no point with a digit unless it has a
point or a power already, no power unless it has one. -/
structure NumeralEnds (ds r : Text) : Prop where
  digit : startsDigit r = false
  fraction : '.' ∈ ds ∨ 'e' ∈ ds ∨ 'E' ∈ ds ∨ startsFraction r = false
  exponent : 'e' ∈ ds ∨ 'E' ∈ ds ∨ startsExponent r = false

/-- A run of digits is read up to its end. -/
theorem digits_append {d r : Text} (hd : ∀ c ∈ d, c.isDigit = true) (hr : startsDigit r = false) :
    digits (d ++ r) = (d, r) := by
  have hr' : r.takeWhile Char.isDigit = [] ∧ r.dropWhile Char.isDigit = r := by
    cases r with
    | nil => simp
    | cons c r => simpa [startsDigit] using hr
  rw [digits, List.takeWhile_append_of_pos hd, List.dropWhile_append_of_pos hd, hr'.1, hr'.2,
    List.append_nil]

/-- No digits are read where none stands first. -/
theorem digits_eq_nil {t : Text} (h : startsDigit t = false) : (digits t).1 = [] := by
  cases t with
  | nil => rfl
  | cons c u =>
    have : c.isDigit = false := by simpa [startsDigit] using h
    simp [digits, this]

/-- What is read and what is left make the text; the one is digits, the other does not begin with one. -/
theorem digits_spec (t : Text) : (digits t).1 ++ (digits t).2 = t ∧
    (∀ c ∈ (digits t).1, c.isDigit = true) ∧ startsDigit (digits t).2 = false := by
  refine ⟨List.takeWhile_append_dropWhile .., fun c hc => List.mem_takeWhile_imp hc, ?_⟩
  rw [digits]
  cases h : t.dropWhile Char.isDigit with
  | nil => rfl
  | cons c r =>
    have hne : t.dropWhile Char.isDigit ≠ [] := by simp [h]
    simpa [startsDigit, h] using List.head_dropWhile_not Char.isDigit hne

/-- A sign is read where one stands, before any other character. -/
theorem sign_append {s r : Text} {c : Char} (hs : IsSign s) (hc : c ≠ '+' ∧ c ≠ '-') :
    sign (s ++ c :: r) = (s, c :: r) := by
  cases hs with
  | none => unfold sign; split <;> simp_all
  | plus => rfl
  | minus => rfl

/-- What is read and what is left make the text; the one is a sign or nothing. -/
theorem sign_spec (t : Text) : (sign t).1 ++ (sign t).2 = t ∧ IsSign (sign t).1 := by
  unfold sign
  split
  · exact ⟨rfl, .plus⟩
  · exact ⟨rfl, .minus⟩
  · exact ⟨rfl, .none⟩

/-- The point is no digit. -/
theorem not_isDigit_point : Char.isDigit '.' = false := by decide

/-- A numeral behind its sign begins with a digit or a point. -/
theorem IsMantissa.eq_cons {m : Text} (h : IsMantissa m) :
    ∃ c u, m = c :: u ∧ c ≠ '+' ∧ c ≠ '-' := by
  have hdigit : ∀ {c : Char}, c.isDigit = true → c ≠ '+' ∧ c ≠ '-' := by
    rintro c hc
    constructor <;> rintro rfl <;> revert hc <;> decide
  cases h with
  | whole hw =>
    obtain ⟨c, u, rfl⟩ := List.exists_cons_of_ne_nil hw.1
    exact ⟨c, u, rfl, hdigit (hw.2 c (List.mem_cons_self ..))⟩
  | @fraction w f hw hf =>
    cases w with
    | nil => exact ⟨'.', f, rfl, by decide, by decide⟩
    | cons c u => exact ⟨c, u ++ '.' :: f, rfl, hdigit (hw c (List.mem_cons_self ..))⟩

/-- A mantissa is read up to its end. -/
theorem mantissa_append {m r : Text} (hm : IsMantissa m) (hr : startsDigit r = false)
    (hf : '.' ∈ m ∨ startsFraction r = false) : mantissa (m ++ r) = (m, r) := by
  cases hm with
  | whole hw =>
    have hpoint : '.' ∉ m := fun hp => by
      have := hw.2 _ hp
      rw [not_isDigit_point] at this
      exact Bool.false_ne_true this
    have hr' := hf.resolve_left hpoint
    rw [mantissa, digits_append hw.2 hr]
    dsimp only
    split
    · next fraction =>
      have hd : (digits fraction).1 = [] := digits_eq_nil hr'
      split
      · rfl
      · next ds after hne h => rw [h] at hd; exact absurd hd hne
    · rfl
  | @fraction w f hw hf' =>
    rw [mantissa, List.append_assoc, List.cons_append,
      digits_append hw (by simp [startsDigit, not_isDigit_point])]
    simp only [digits_append hf'.2 hr]
    split
    · next h => exact absurd (Prod.mk.inj h).1 hf'.1
    · next h => obtain ⟨rfl, rfl⟩ := Prod.mk.inj h; rfl

/-- What is read and what is left make the text; the one is a mantissa or nothing, and the other does not
carry it on. -/
theorem mantissa_spec (t : Text) : (mantissa t).1 ++ (mantissa t).2 = t ∧
    ((mantissa t).1 ≠ [] → IsMantissa (mantissa t).1) ∧ startsDigit (mantissa t).2 = false ∧
    ('.' ∈ (mantissa t).1 ∨ startsFraction (mantissa t).2 = false) := by
  obtain ⟨happ, hw, hr⟩ := digits_spec t
  rw [mantissa]
  dsimp only
  split
  · next fraction hrest =>
    obtain ⟨happ', hf, hr'⟩ := digits_spec fraction
    split
    · next heq =>
      refine ⟨happ, fun hne => .whole ⟨hne, hw⟩, hr, .inr ?_⟩
      rw [heq] at happ' hr'
      rw [hrest, startsFraction, ← happ']
      exact hr'
    · next ds after hne heq =>
      rw [heq] at happ' hf hr'
      refine ⟨?_, fun _ => .fraction hw ⟨fun h0 => hne h0, hf⟩, hr', .inl (by simp)⟩
      rw [List.append_assoc, List.cons_append, happ', ← hrest, happ]
  · next hne =>
    refine ⟨happ, fun h => .whole ⟨h, hw⟩, hr, .inr ?_⟩
    unfold startsFraction
    split
    · next heq => exact absurd heq (hne _)
    · rfl

/-- An exponent is read up to its end. -/
theorem exponent_append {e r : Text} (he : IsExponent e) (hr : startsDigit r = false) :
    exponent (e ++ r) = (e, r) := by
  obtain @⟨c, s, d, hc, hs, hd⟩ := he
  obtain ⟨x, u, rfl⟩ := List.exists_cons_of_ne_nil hd.1
  have hx : x ≠ '+' ∧ x ≠ '-' := by
    have := hd.2 x (List.mem_cons_self ..)
    constructor <;> rintro rfl <;> revert this <;> decide
  have hsign : sign (s ++ (x :: u ++ r)) = (s, x :: u ++ r) := sign_append hs hx
  rw [show c :: s ++ x :: u ++ r = c :: (s ++ (x :: u ++ r)) by simp, exponent, if_pos hc, hsign]
  simp only [digits_append hd.2 hr]

/-- What is read and what is left make the text; the one is an exponent, with no digit behind it, or
nothing. -/
theorem exponent_spec (t : Text) : (exponent t).1 ++ (exponent t).2 = t ∧
    ((exponent t).1 ≠ [] → IsExponent (exponent t).1 ∧ startsDigit (exponent t).2 = false) := by
  cases t with
  | nil => simp [exponent]
  | cons c t =>
    obtain ⟨happ, hs⟩ := sign_spec t
    obtain ⟨happ', hd, hr⟩ := digits_spec (sign t).2
    rw [exponent]
    dsimp only
    split
    · next hc =>
      split
      · simp
      · next ds after hne heq =>
        rw [heq] at happ' hd hr
        refine ⟨?_, fun _ => ⟨.intro hc hs ⟨fun h0 => hne h0, hd⟩, hr⟩⟩
        rw [List.cons_append, List.cons_append, List.append_assoc, happ', happ]
    · simp

/-- An exponent holds the letter e. -/
theorem IsExponent.mem {e : Text} (h : IsExponent e) : 'e' ∈ e ∨ 'E' ∈ e := by
  cases h with
  | intro hc _ _ => rcases hc with rfl | rfl <;> simp

/-- A numeral without a power of ten is a sign and a mantissa. -/
theorem notMem_mantissa {m : Text} (h : IsMantissa m) : 'e' ∉ m ∧ 'E' ∉ m := by
  have hdigit : ∀ {t : Text}, (∀ c ∈ t, c.isDigit = true) → 'e' ∉ t ∧ 'E' ∉ t := by
    intro t ht
    constructor <;> intro hm <;> have := ht _ hm <;> revert this <;> decide
  cases h with
  | whole hw => exact hdigit hw.2
  | fraction hw hf =>
    have := hdigit hw
    have := hdigit hf.2
    simp_all

/-- A sign holds neither the letter e nor a point. -/
theorem notMem_sign {s : Text} (h : IsSign s) : 'e' ∉ s ∧ 'E' ∉ s ∧ '.' ∉ s := by
  cases h <;> decide

/-- **A numeral is read up to where it ends.** -/
theorem number?_append {ds r : Text} (h : IsNumeral ds) (hr : NumeralEnds ds r) :
    number? (ds ++ r) = some (ds, r) := by
  cases h with
  | @plain s m hs hm =>
    have he : 'e' ∉ s ++ m ∧ 'E' ∉ s ++ m := by
      have := notMem_sign hs
      have := notMem_mantissa hm
      simp_all
    have hexp : startsExponent r = false :=
      (hr.exponent.resolve_left he.1).resolve_left he.2
    have hfrac : '.' ∈ m ∨ startsFraction r = false := by
      rcases hr.fraction with h | h | h | h
      · have := (notMem_sign hs).2.2
        exact .inl (by simp_all)
      · exact absurd h he.1
      · exact absurd h he.2
      · exact .inr h
    obtain ⟨c, u, rfl, hc⟩ := hm.eq_cons
    have hsign : sign (s ++ (c :: u ++ r)) = (s, c :: u ++ r) := sign_append hs hc
    have hex : exponent r = ([], r) := by
      have h0 : (exponent r).1 = [] := by simpa [startsExponent] using hexp
      have := (exponent_spec r).1
      rw [h0, List.nil_append] at this
      exact Prod.ext h0 this
    rw [number?, List.append_assoc, hsign]
    dsimp only
    rw [mantissa_append hm hr.digit hfrac]
    dsimp only
    rw [hex]
    simp
  | @power s m e hs hm he =>
    obtain ⟨c, u, rfl, hc⟩ := hm.eq_cons
    have hsign : sign (s ++ (c :: u ++ (e ++ r))) = (s, c :: u ++ (e ++ r)) := sign_append hs hc
    have hstop : startsDigit (e ++ r) = false ∧ startsFraction (e ++ r) = false := by
      cases he with
      | intro hc _ _ => rcases hc with rfl | rfl <;> exact ⟨rfl, rfl⟩
    rw [number?, List.append_assoc, List.append_assoc, hsign]
    dsimp only
    rw [mantissa_append hm hstop.1 (.inr hstop.2)]
    dsimp only
    rw [exponent_append he hr.digit]
    simp

/-- **What is read as a number** is a numeral, and it ends there. -/
theorem number?_spec {t ds r : Text} (h : number? t = some (ds, r)) :
    t = ds ++ r ∧ IsNumeral ds ∧ NumeralEnds ds r := by
  obtain ⟨happ, hs⟩ := sign_spec t
  obtain ⟨happ', hm, hdigit, hfrac⟩ := mantissa_spec (sign t).2
  obtain ⟨happ'', he⟩ := exponent_spec (mantissa (sign t).2).2
  rw [number?] at h
  dsimp only at h
  split at h
  · simp at h
  · next hne =>
    obtain ⟨rfl, rfl⟩ := Prod.mk.inj (Option.some.inj h)
    have hm' := hm (by simpa using hne)
    refine ⟨by rw [List.append_assoc, happ'', List.append_assoc, happ', happ], ?_⟩
    by_cases h0 : (exponent (mantissa (sign t).2).2).1 = []
    · rw [h0, List.nil_append] at happ''
      rw [h0, List.append_nil, happ'']
      exact ⟨.plain hs hm', hdigit, hfrac.imp (List.mem_append_right _) (.inr ∘ .inr),
        .inr (.inr (by simp [startsExponent, h0]))⟩
    · obtain ⟨he', hd⟩ := he h0
      have hmem := he'.mem
      refine ⟨.power hs hm' he', hd, ?_, ?_⟩
      · rcases hmem with hmem | hmem
        · exact .inr (.inl (List.mem_append_right _ hmem))
        · exact .inr (.inr (.inl (List.mem_append_right _ hmem)))
      · rcases hmem with hmem | hmem
        · exact .inl (List.mem_append_right _ hmem)
        · exact .inr (.inl (List.mem_append_right _ hmem))

/-- Does a number stand here? -/
def startsNumber (t : Text) : Bool := startsDigit (sign t).2 || startsFraction (sign t).2

/-- No mantissa is read exactly if neither a digit nor a fraction stands first. -/
theorem mantissa_eq_nil_iff (t : Text) :
    (mantissa t).1 = [] ↔ startsDigit t = false ∧ startsFraction t = false := by
  obtain ⟨happ, hm, hdigit, hfrac⟩ := mantissa_spec t
  constructor
  · intro h
    rw [h, List.nil_append] at happ
    rw [happ] at hdigit hfrac
    exact ⟨hdigit, hfrac.resolve_left (by simp [h])⟩
  · rintro ⟨hd, hf⟩
    have hw := digits_eq_nil hd
    have ht : (digits t).2 = t := by simpa [hw] using (digits_spec t).1
    rw [mantissa]
    dsimp only
    split
    · next fraction hrest =>
      rw [ht] at hrest
      rw [hrest] at hf
      split
      · exact hw
      · next ds after hne heq => exact absurd (by simpa [heq] using digits_eq_nil hf) hne
    · exact hw

/-- **A number is read exactly where one stands.** -/
theorem number?_eq_none_iff {t : Text} : number? t = none ↔ startsNumber t = false := by
  rw [number?]
  dsimp only
  rw [startsNumber, Bool.or_eq_false_iff, ← mantissa_eq_nil_iff]
  split <;> simp_all

end Css
end ThemeSheet
