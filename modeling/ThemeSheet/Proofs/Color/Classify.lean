/-
# The written forms of colors

A value that no rule of thumb decides is a color exactly if it is written as one: a
hexadecimal color, or a call with two or three components and a last one.  The reader of
calls takes as much as it can at every step; the characters at which its steps end are
apart from those they take, so it finds every call that is one.
-/

import ThemeSheet.Color.Classify
import ThemeSheet.Proofs.Theme.Substitution
import ThemeSheet.Proofs.Variable.Name

namespace ThemeSheet
namespace Color

open Text Unicode

/-! ### What a color call is -/

/-- The forms of a small letter: either case, and the long s for an s. -/
def letterForms (a : Char) : Text := if a = 's' then ['s', 'S', 'ſ'] else [a, a.toUpper]

/-- **The same word in any letter case.** -/
def IsAnyCase (word t : Text) : Prop := List.Forall₂ (fun a c => c ∈ letterForms a) word t

/-- A percent sign or none. -/
def percentSign (present : Bool) : Text := if present then ['%'] else []

/-- **A component of a color call:** digits, a percent sign or not, a unit of angles or not, and separators. -/
structure Component where
  digits : Text
  percent : Bool
  unit : Text
  separators : Text
  digits_ne : digits ≠ []
  digits_digit : ∀ c ∈ digits, isDigit c = true
  unit_word : unit = [] ∨ ∃ w ∈ angleUnits, IsAnyCase w unit
  separators_ne : separators ≠ []
  separators_separator : ∀ c ∈ separators, isSeparator c = true

/-- The written form of a component. -/
def Component.written (k : Component) : Text := k.digits ++ (percentSign k.percent ++ (k.unit ++ k.separators))

/-- **The last component of a color call:** slashes and blanks, digits and points, a percent sign or not, and the
closing bracket. -/
structure LastComponent where
  slashes : Text
  number : Text
  percent : Bool
  slashes_slash : ∀ c ∈ slashes, isBlank c = true ∨ c = '/'
  number_ne : number ≠ []
  number_digit : ∀ c ∈ number, isDigit c = true ∨ c = '.'

/-- The written form of the last component, with the closing bracket. -/
def LastComponent.written (k : LastComponent) : Text := k.slashes ++ (k.number ++ (percentSign k.percent ++ [')']))

/-- **A color call:** a name, the letter for the opacity or not, an opening bracket, two or three components and
the last one. -/
structure ColorCall where
  name : Text
  opacity : Text
  components : List Component
  last : LastComponent
  name_word : ∃ w ∈ callNames, IsAnyCase w name
  opacity_letter : opacity = [] ∨ IsAnyCase ['a'] opacity
  length_components : components.length = 2 ∨ components.length = 3

/-- The written form of a color call. -/
def ColorCall.written (k : ColorCall) : Text :=
  k.name ++ (k.opacity ++ '(' :: (k.components.flatMap Component.written ++ k.last.written))

/-! ### Characters apart -/

section Characters
variable {c : Char}

/-- A letter that folds to an ASCII letter but `i`, `k` and `s` is ASCII itself. -/
theorem lt_of_foldCase {a : Char} (ha : a.toNat < 128 ∧ a.toNat ∉ [0, 105, 107, 115]) (h : foldCase c = a) :
    c.toNat < 128 := by
  by_contra hc
  rcases foldCase_beyond_ascii (c := c) (by omega) with hbeyond | hbeyond
  · rw [h] at hbeyond
    omega
  · rw [h] at hbeyond
    exact ha.2 hbeyond

/-- The only letter beyond ASCII that folds to an s is the long one. -/
theorem eq_long_of_foldCase (h : foldCase c = 's') (hc : 128 ≤ c.toNat) : c = 'ſ' := by
  have hruns : ∀ run ∈ foldRuns, (run.first : Int) + run.shift = 115 → run.first = 'ſ'.toNat := by decide +kernel
  rw [foldCase, if_neg (by omega)] at h
  split at h
  · next run hrun =>
    have hm := List.mem_of_find?_eq_some hrun
    have hh := List.find?_some hrun
    simp only [FoldRun.holds, Bool.and_eq_true, decide_eq_true_eq] at hh
    have hvalue : (c.toNat + run.shift).toNat = 115 := by
      rcases toNat_ofNat_eq_or_zero (c.toNat + run.shift).toNat with hv | hv <;> rw [h] at hv
      · exact hv.symm
      · exact absurd hv (by decide)
    have htarget := foldRun_target run hm
    obtain ⟨hfirst, hlast⟩ : c.toNat = run.first ∧ (run.first : Int) + run.shift = 115 := by omega
    rw [← Char.ofNat_toNat c, hfirst, hruns run hm hlast, Char.ofNat_toNat]
  · exact absurd hc (by rw [h]; decide)

/-- The letters that stand in the words of a color call. -/
def callLetters : Text := (['a'] :: callNames ++ angleUnits).flatten

/-- **A letter folds as a small letter does** exactly if it is one of its forms. -/
theorem foldCase_eq_iff {a : Char} (ha : a ∈ callLetters) : foldCase c = foldCase a ↔ c ∈ letterForms a := by
  by_cases hc : c.toNat < 128
  · have hascii : ∀ a ∈ callLetters, ∀ n < 128,
        foldCase (Char.ofNat n) = foldCase a ↔ Char.ofNat n ∈ letterForms a := by decide +kernel
    exact ascii_cases (p := fun c => foldCase c = foldCase a ↔ c ∈ letterForms a) (hascii a ha) hc
  · have hletters : ∀ a ∈ callLetters, foldCase a = a ∧
        (a ≠ 's' → (a.toNat < 128 ∧ a.toNat ∉ [0, 105, 107, 115]) ∧ ∀ c ∈ letterForms a, c.toNat < 128) := by
      decide +kernel
    obtain ⟨hself, hplain⟩ := hletters a ha
    rw [hself]
    by_cases hs : a = 's'
    · subst hs
      constructor
      · intro h
        rw [eq_long_of_foldCase h (by omega)]
        decide
      · intro h
        have hforms : ∀ c ∈ letterForms 's', foldCase c = 's' := by decide
        exact hforms c h
    · exact ⟨fun h => absurd (lt_of_foldCase (hplain hs).1 h) hc, fun h => absurd ((hplain hs).2 c h) hc⟩

/-- A word of call letters stands in some letter case exactly if both fold alike. -/
theorem isAnyCase_iff {word t : Text} (h : ∀ a ∈ word, a ∈ callLetters) :
    IsAnyCase word t ↔ t.map foldCase = word.map foldCase := by
  induction word generalizing t with
  | nil => simp [IsAnyCase]
  | cons a word ih =>
    obtain ⟨ha, hword⟩ := List.forall_mem_cons.1 h
    cases t with
    | nil => simp [IsAnyCase]
    | cons c t =>
      rw [IsAnyCase, List.forall₂_cons, List.map_cons, List.map_cons, List.cons.injEq, foldCase_eq_iff ha]
      exact and_congr_right fun _ => ih hword

/-- The letters that begin a unit, in lower case. -/
def unitLetters : Text := angleUnits.filterMap List.head?

/-- **A letter that begins a unit** is no digit, no percent sign and no separator. -/
theorem not_digit_of_unitLetter (h : foldCase c ∈ unitLetters) :
    isDigit c = false ∧ c ≠ '%' ∧ isSeparator c = false := by
  have hletters : ∀ a ∈ unitLetters, a.toNat < 128 ∧ a.toNat ∉ [0, 105, 107, 115] := by decide
  have hascii : ∀ n < 128, foldCase (Char.ofNat n) ∈ unitLetters →
      isDigit (Char.ofNat n) = false ∧ Char.ofNat n ≠ '%' ∧ isSeparator (Char.ofNat n) = false := by decide +kernel
  exact ascii_cases (p := fun c => foldCase c ∈ unitLetters →
    isDigit c = false ∧ c ≠ '%' ∧ isSeparator c = false) hascii (lt_of_foldCase (hletters _ h) rfl) h

/-- **A separator** is no digit, no percent sign and begins no unit. -/
theorem not_digit_of_isSeparator (h : isSeparator c = true) :
    isDigit c = false ∧ c ≠ '%' ∧ foldCase c ∉ unitLetters := by
  have hpoints : ∀ n ∈ ','.toNat :: blankPoints, isDigit (Char.ofNat n) = false ∧ Char.ofNat n ≠ '%' ∧
      foldCase (Char.ofNat n) ∉ unitLetters := by decide +kernel
  have hmem : c.toNat ∈ ','.toNat :: blankPoints := by
    rw [isSeparator, Bool.or_eq_true, beq_iff_eq] at h
    rcases h with rfl | h
    · exact List.mem_cons_self ..
    · exact List.mem_cons_of_mem _ (toNat_mem_blankPoints h)
  have := hpoints _ hmem
  rwa [Char.ofNat_toNat] at this

end Characters

/-! ### Words -/

/-- Words of call letters, none of which begins another one. -/
structure AreCallWords (words : List Text) : Prop where
  letters : ∀ w ∈ words, ∀ a ∈ w, a ∈ callLetters
  apart : ∀ w ∈ words, ∀ v ∈ words, w.map foldCase <+: v.map foldCase → w = v

/-- The units of angles are words of call letters. -/
theorem areCallWords_angleUnits : AreCallWords angleUnits := ⟨by decide, by decide⟩

/-- The names of color calls are words of call letters. -/
theorem areCallWords_callNames : AreCallWords callNames := ⟨by decide, by decide⟩

/-- **A word is found in front of the rest of a text,** in any letter case. -/
theorem AreCallWords.dropWord?_eq_some {words : List Text} (hwords : AreCallWords words) {t r : Text} :
    dropWord? words t = some r ↔ ∃ w ∈ words, ∃ q, IsAnyCase w q ∧ t = q ++ r := by
  have hany {w q : Text} (hw : w ∈ words) : IsAnyCase w q ↔ q.map foldCase = w.map foldCase :=
    isAnyCase_iff (hwords.letters w hw)
  have hfound {r : Text} (h : dropWord? words t = some r) : ∃ w ∈ words, ∃ q, IsAnyCase w q ∧ t = q ++ r := by
    obtain ⟨w, hw, hfirst⟩ := List.exists_of_findSome?_eq_some h
    obtain ⟨q, hq, rfl⟩ := dropPrefixAnyCase?_eq_some.1 hfirst
    exact ⟨w, hw, q, (hany hw).2 hq, rfl⟩
  refine ⟨hfound, ?_⟩
  rintro ⟨w, hw, q, hq, rfl⟩
  rw [hany hw] at hq
  cases hd : dropWord? words (q ++ r) with
  | none =>
    have hnone := List.findSome?_eq_none_iff.1 hd w hw
    rw [dropPrefixAnyCase?_eq_some.2 ⟨q, hq, rfl⟩] at hnone
    exact absurd hnone (by simp)
  | some s =>
    obtain ⟨v, hv, p, hp, he⟩ := hfound hd
    rw [hany hv] at hp
    -- one of the two words begins the other one
    have hsame : w = v := by
      rcases List.append_eq_append_iff.1 he with ⟨x, rfl, -⟩ | ⟨x, rfl, -⟩
      · exact hwords.apart w hw v hv (by rw [← hq, ← hp, List.map_append]; exact List.prefix_append ..)
      · exact (hwords.apart v hv w hw (by rw [← hq, ← hp, List.map_append]; exact List.prefix_append ..)).symm
    have hfold : q.map foldCase = p.map foldCase := by rw [hq, hp, hsame]
    have hlength : q.length = p.length := by simpa using congrArg List.length hfold
    rw [(List.append_inj he hlength).2]

/-- A unit begins with a letter that begins one in lower case. -/
theorem exists_unitLetter {w unit : Text} (hw : w ∈ angleUnits) (h : IsAnyCase w unit) :
    ∃ c rest, unit = c :: rest ∧ foldCase c ∈ unitLetters := by
  have hheads : ∀ w ∈ angleUnits, (w.map foldCase).head?.any (· ∈ unitLetters) = true := by decide
  obtain ⟨a, ha, hletter⟩ := (Option.any_eq_true ..).1 (hheads w hw)
  rw [← (isAnyCase_iff (areCallWords_angleUnits.letters w hw)).1 h, List.head?_map, Option.map_eq_some_iff] at ha
  obtain ⟨c, hc, rfl⟩ := ha
  obtain ⟨rest, rfl⟩ := List.head?_eq_some_iff.1 hc
  exact ⟨c, rest, rfl, of_decide_eq_true hletter⟩

/-- The character is left out where it stands. -/
theorem dropOne_self (c : Char) (t : Text) : dropOne c (c :: t) = t := if_pos rfl

/-- Nothing is left out where another character stands. -/
theorem dropOne_of_ne {c : Char} {t : Text} (h : t.head? ≠ some c) : dropOne c t = t := by
  cases t with
  | nil => rfl
  | cons d t => exact if_neg fun hd => h (by rw [hd]; rfl)

/-- **A percent sign is dropped** where one stands. -/
theorem dropOne_percentSign (b : Bool) {t : Text} (h : t.head? ≠ some '%') : dropOne '%' (percentSign b ++ t) = t := by
  cases b with
  | false => exact dropOne_of_ne h
  | true => exact dropOne_self '%' t

/-- A text is a percent sign or none, and the rest without it. -/
theorem exists_percentSign (t : Text) : ∃ b, t = percentSign b ++ dropOne '%' t := by
  by_cases h : t.head? = some '%'
  · obtain ⟨rest, rfl⟩ := List.head?_eq_some_iff.1 h
    exact ⟨true, by rw [dropOne_self]; rfl⟩
  · exact ⟨false, by rw [dropOne_of_ne h]; rfl⟩

/-! ### One component -/

section Component
variable {t r : Text}

/-- A unit or nothing is dropped in front of separators. -/
theorem dropUnit_getD (k : Component) (r : Text) :
    (dropWord? angleUnits (k.unit ++ (k.separators ++ r))).getD (k.unit ++ (k.separators ++ r)) = k.separators ++ r := by
  rcases k.unit_word with hnil | ⟨w, hw, hunit⟩
  · have hnone : dropWord? angleUnits (k.separators ++ r) = none := by
      refine Option.eq_none_iff_forall_ne_some.2 fun rest hrest => ?_
      obtain ⟨w, hw, unit, hunit, he⟩ := areCallWords_angleUnits.dropWord?_eq_some.1 hrest
      obtain ⟨c, unit, rfl, hletter⟩ := exists_unitLetter hw hunit
      obtain ⟨d, seps, hseps⟩ := List.exists_cons_of_ne_nil k.separators_ne
      rw [hseps] at he
      obtain ⟨rfl, -⟩ := List.cons.inj he
      have hd := k.separators_separator d (hseps ▸ List.mem_cons_self ..)
      exact (not_digit_of_isSeparator hd).2.2 hletter
    rw [hnil, List.nil_append, hnone]
    rfl
  · rw [areCallWords_angleUnits.dropWord?_eq_some.2 ⟨w, hw, k.unit, hunit, rfl⟩]
    rfl

/-- Neither a digit nor a percent sign stands behind the number of a component. -/
theorem head?_unit (k : Component) (r : Text) : ∀ c, (k.unit ++ (k.separators ++ r)).head? = some c →
    isDigit c = false ∧ c ≠ '%' := by
  intro c hc
  rcases k.unit_word with hnil | ⟨w, hw, hunit⟩
  · obtain ⟨d, seps, hseps⟩ := List.exists_cons_of_ne_nil k.separators_ne
    rw [hnil, hseps] at hc
    obtain rfl := Option.some.inj hc
    have hd := not_digit_of_isSeparator (k.separators_separator d (hseps ▸ List.mem_cons_self ..))
    exact ⟨hd.1, hd.2.1⟩
  · obtain ⟨d, unit, he, hletter⟩ := exists_unitLetter hw hunit
    rw [he] at hc
    obtain rfl := Option.some.inj hc
    exact ⟨(not_digit_of_unitLetter hletter).1, (not_digit_of_unitLetter hletter).2.1⟩

/-- **A component is read with all separators behind it.** -/
theorem component?_written (k : Component) (r : Text) :
    component? (k.written ++ r) = some (r.dropWhile isSeparator) := by
  have hwritten : k.written ++ r = k.digits ++ (percentSign k.percent ++ (k.unit ++ (k.separators ++ r))) := by
    simp [Component.written]
  have hhead := head?_unit k r
  have hstop : ∀ c, (percentSign k.percent ++ (k.unit ++ (k.separators ++ r))).head? = some c → isDigit c = false := by
    intro c hc
    cases hp : k.percent with
    | false =>
      rw [hp] at hc
      exact (hhead c hc).1
    | true =>
      rw [hp] at hc
      obtain rfl : '%' = c := Option.some.inj hc
      decide
  have hpercent : (k.unit ++ (k.separators ++ r)).head? ≠ some '%' := fun h => (hhead _ h).2 rfl
  have hdigit := head?_any_run k.digits_ne k.digits_digit
  have hsep := head?_any_run k.separators_ne k.separators_separator r
  rw [component?, hwritten, if_pos (hdigit _), dropWhile_run k.digits_digit hstop, dropOne_percentSign _ hpercent]
  simp only [dropUnit_getD, hsep, if_true, List.dropWhile_append_of_pos k.separators_separator]

/-- **What is read as a component** is one, in front of the rest. -/
theorem exists_component (h : component? t = some r) : ∃ k : Component, t = k.written ++ r := by
  unfold component? at h
  split at h
  · next hdigit =>
    dsimp only at h
    split at h
    · next hsep =>
      obtain ⟨percent, hpercent⟩ := exists_percentSign (t.dropWhile isDigit)
      set afterSign := dropOne '%' (t.dropWhile isDigit) with hafter
      obtain ⟨unit, hunit, hword⟩ : ∃ unit, afterSign = unit ++ (dropWord? angleUnits afterSign).getD afterSign ∧
          (unit = [] ∨ ∃ w ∈ angleUnits, IsAnyCase w unit) := by
        cases hd : dropWord? angleUnits afterSign with
        | none => exact ⟨[], rfl, .inl rfl⟩
        | some s =>
          obtain ⟨w, hw, unit, hq, he⟩ := areCallWords_angleUnits.dropWord?_eq_some.1 hd
          exact ⟨unit, he, .inr ⟨w, hw, hq⟩⟩
      set afterUnit := (dropWord? angleUnits afterSign).getD afterSign
      refine ⟨⟨t.takeWhile isDigit, percent, unit, afterUnit.takeWhile isSeparator, takeWhile_ne_nil hdigit,
        fun c hc => List.mem_takeWhile_imp hc, hword, takeWhile_ne_nil hsep,
        fun c hc => List.mem_takeWhile_imp hc⟩, ?_⟩
      rw [← Option.some.inj h]
      calc t = t.takeWhile isDigit ++ t.dropWhile isDigit := List.takeWhile_append_dropWhile.symm
        _ = t.takeWhile isDigit ++ (percentSign percent ++ (unit ++ afterUnit)) := by rw [← hunit, ← hpercent]
        _ = _ := by
          conv_lhs => rw [← List.takeWhile_append_dropWhile (p := isSeparator) (l := afterUnit)]
          simp [Component.written]
    · exact absurd h (by simp)
  · exact absurd h (by simp)

end Component

/-! ### The last component -/

section Last
variable {t : Text}

/-- What the number of a last component is made of. -/
theorem not_blank_of_number {c : Char} (h : isDigit c = true ∨ c = '.') :
    isSeparator c = false ∧ (isBlank c || c == '/') = false := by
  have hsep : isSeparator c = false := by
    rcases h with h | rfl
    · by_contra hs
      exact absurd (h.symm.trans (not_digit_of_isSeparator (by simpa using hs)).1) (by simp)
    · decide
  have hslash : c ≠ '/' := by
    rintro rfl
    exact absurd h (by decide)
  have hblank : isBlank c = false := by
    rw [isSeparator, Bool.or_eq_false_iff] at hsep
    exact hsep.2
  exact ⟨hsep, by rw [hblank, Bool.false_or, beq_eq_false_iff_ne]; exact hslash⟩

/-- **A text is read as a last component** exactly if it is one. -/
theorem isLastComponent_iff : isLastComponent t = true ↔ ∃ k : LastComponent, t = k.written := by
  constructor
  · intro h
    simp only [isLastComponent, Bool.and_eq_true, beq_iff_eq] at h
    obtain ⟨hhead, hclose⟩ := h
    set number := t.dropWhile fun c => isBlank c || c == '/' with hnumber
    set isNumber : Char → Bool := fun c => isDigit c || c == '.' with hisNumber
    obtain ⟨percent, hpercent⟩ := exists_percentSign (number.dropWhile isNumber)
    have hslashes : ∀ c ∈ t.takeWhile (fun c => isBlank c || c == '/'), isBlank c = true ∨ c = '/' := by
      intro c hc
      have := List.mem_takeWhile_imp hc
      rwa [Bool.or_eq_true, beq_iff_eq] at this
    have hdigits : ∀ c ∈ number.takeWhile isNumber, isDigit c = true ∨ c = '.' := by
      intro c hc
      have := List.mem_takeWhile_imp hc
      rwa [hisNumber, Bool.or_eq_true, beq_iff_eq] at this
    refine ⟨⟨_, _, percent, hslashes, takeWhile_ne_nil hhead, hdigits⟩, ?_⟩
    calc t = t.takeWhile (fun c => isBlank c || c == '/') ++ number := List.takeWhile_append_dropWhile.symm
      _ = t.takeWhile (fun c => isBlank c || c == '/') ++ (number.takeWhile isNumber ++ number.dropWhile isNumber) := by
        rw [List.takeWhile_append_dropWhile (p := isNumber)]
      _ = _ := by rw [hpercent, hclose]; rfl
  · rintro ⟨k, rfl⟩
    obtain ⟨d, number, hnumber⟩ := List.exists_cons_of_ne_nil k.number_ne
    have hd := k.number_digit d (hnumber ▸ List.mem_cons_self ..)
    have hslashes : ∀ c ∈ k.slashes, (isBlank c || c == '/') = true := fun c hc => by
      rw [Bool.or_eq_true, beq_iff_eq]
      exact k.slashes_slash c hc
    have hdigits : ∀ c ∈ k.number, (isDigit c || c == '.') = true := fun c hc => by
      rw [Bool.or_eq_true, beq_iff_eq]
      exact k.number_digit c hc
    have hstop : ∀ c, (k.number ++ (percentSign k.percent ++ [')'])).head? = some c →
        (isBlank c || c == '/') = false := by
      intro c hc
      rw [hnumber] at hc
      obtain rfl := Option.some.inj hc
      exact (not_blank_of_number hd).2
    have hend : ∀ c, (percentSign k.percent ++ [')']).head? = some c → (isDigit c || c == '.') = false := by
      intro c hc
      cases hp : k.percent <;> rw [hp] at hc <;> obtain rfl := Option.some.inj hc <;> decide
    have hhead := head?_any_run k.number_ne hdigits (percentSign k.percent ++ [')'])
    rw [isLastComponent, LastComponent.written, dropWhile_run hslashes hstop]
    simp only [hhead, dropWhile_run hdigits hend, dropOne_percentSign k.percent (t := [')']) (by decide), beq_self_eq_true,
      Bool.and_self]

/-- Separators in front of a last component may be taken for those of the component before it. -/
theorem isLastComponent_dropWhile (k : LastComponent) : isLastComponent (k.written.dropWhile isSeparator) = true := by
  obtain ⟨d, number, hnumber⟩ := List.exists_cons_of_ne_nil k.number_ne
  have hd := not_blank_of_number (k.number_digit d (hnumber ▸ List.mem_cons_self ..))
  have hdrop : k.written.dropWhile isSeparator =
      k.slashes.dropWhile isSeparator ++ (k.number ++ (percentSign k.percent ++ [')'])) := by
    rw [LastComponent.written, hnumber]
    exact dropWhile_stop hd.1 _ _
  exact isLastComponent_iff.2 ⟨⟨k.slashes.dropWhile isSeparator, k.number, k.percent,
    fun c hc => k.slashes_slash c ((List.dropWhile_sublist _).mem hc), k.number_ne, k.number_digit⟩, hdrop⟩

end Last

/-! ### Calls -/

section Call
variable {t : Text}

/-- No separator stands in front of a component. -/
theorem dropWhile_component (k : Component) (r : Text) :
    (k.written ++ r).dropWhile isSeparator = k.written ++ r := by
  obtain ⟨d, digits, hdigits⟩ := List.exists_cons_of_ne_nil k.digits_ne
  have hd : isSeparator d = false := by
    by_contra hs
    have := k.digits_digit d (hdigits ▸ List.mem_cons_self ..)
    exact absurd (this.symm.trans (not_digit_of_isSeparator (by simpa using hs)).1) (by simp)
  rw [Component.written, hdigits]
  exact List.dropWhile_cons_of_neg (by simp [hd])

/-- **Two components are read one behind the other,** with the separators behind them. -/
theorem bind_component?_written (first second : Component) (r : Text) :
    (component? (first.written ++ (second.written ++ r))).bind component? = some (r.dropWhile isSeparator) := by
  rw [component?_written, Option.bind_some, dropWhile_component, component?_written]

/-- A text is the letter of opacity or nothing, and the rest without it. -/
theorem exists_opacity (t : Text) : ∃ opacity, t = opacity ++ (dropPrefixAnyCase? ['a'] t).getD t ∧
    (opacity = [] ∨ IsAnyCase ['a'] opacity) := by
  cases hd : dropPrefixAnyCase? ['a'] t with
  | none => exact ⟨[], rfl, .inl rfl⟩
  | some s =>
    obtain ⟨q, hq, he⟩ := dropPrefixAnyCase?_eq_some.1 hd
    exact ⟨q, he, .inr ((isAnyCase_iff (by decide)).2 hq)⟩

/-- The letter of opacity is left out before a bracket, if it stands there. -/
theorem getD_opacity {opacity : Text} (h : opacity = [] ∨ IsAnyCase ['a'] opacity) (r : Text) :
    (dropPrefixAnyCase? ['a'] (opacity ++ '(' :: r)).getD (opacity ++ '(' :: r) = '(' :: r := by
  rcases h with rfl | h
  · have hnone : dropPrefixAnyCase? ['a'] ('(' :: r) = none := if_neg (by decide)
    rw [List.nil_append, hnone]
    rfl
  · rw [isAnyCase_iff (by decide)] at h
    rw [dropPrefixAnyCase?_eq_some.2 ⟨opacity, h, rfl⟩]
    rfl

/-- **A text is read as a color call** exactly if it is one. -/
theorem isColorCall_iff : isColorCall t = true ↔ ∃ k : ColorCall, t = k.written := by
  constructor
  · intro h
    unfold isColorCall at h
    split at h
    · exact absurd h (by simp)
    · next afterName hname =>
      obtain ⟨w, hw, name, hq, rfl⟩ := areCallWords_callNames.dropWord?_eq_some.1 hname
      obtain ⟨opacity, hopacity, hletter⟩ := exists_opacity afterName
      dsimp only at h
      split at h
      · next inner hbracket =>
        rw [hbracket] at hopacity
        split at h
        · exact absurd h (by simp)
        · next rest hrest =>
          obtain ⟨afterFirst, hfirst, hsecond⟩ := Option.bind_eq_some_iff.1 hrest
          obtain ⟨first, rfl⟩ := exists_component hfirst
          obtain ⟨second, rfl⟩ := exists_component hsecond
          rcases Bool.or_eq_true_iff.1 h with hlast | hthird
          · obtain ⟨last, rfl⟩ := isLastComponent_iff.1 hlast
            refine ⟨⟨name, opacity, [first, second], last, ⟨w, hw, hq⟩, hletter, .inl rfl⟩, ?_⟩
            simp [ColorCall.written, hopacity]
          · obtain ⟨afterThird, hthird, hlast⟩ := (Option.any_eq_true _ _).1 hthird
            obtain ⟨third, rfl⟩ := exists_component hthird
            obtain ⟨last, rfl⟩ := isLastComponent_iff.1 hlast
            refine ⟨⟨name, opacity, [first, second, third], last, ⟨w, hw, hq⟩, hletter, .inr rfl⟩, ?_⟩
            simp [ColorCall.written, hopacity]
      · exact absurd h (by simp)
  · rintro ⟨⟨name, opacity, components, last, ⟨w, hw, hname⟩, hopacity, hlength⟩, rfl⟩
    have hcall := areCallWords_callNames.dropWord?_eq_some.2 ⟨w, hw, name, hname,
      (rfl : name ++ (opacity ++ '(' :: (components.flatMap Component.written ++ last.written)) = _)⟩
    rw [isColorCall, ColorCall.written, hcall]
    simp only [getD_opacity hopacity]
    -- The first two components are read; what is left is the last one, or another one before it.
    rcases hlength with h | h
    · obtain ⟨first, second, rfl⟩ := List.length_eq_two.1 h
      have hread := bind_component?_written first second last.written
      simp only [List.flatMap_cons, List.flatMap_nil, List.append_nil, List.append_assoc]
      rw [hread]
      simp only [isLastComponent_dropWhile, Bool.true_or]
    · obtain ⟨first, second, third, rfl⟩ := List.length_eq_three.1 h
      have hread := bind_component?_written first second (third.written ++ last.written)
      rw [dropWhile_component] at hread
      simp only [List.flatMap_cons, List.flatMap_nil, List.append_nil, List.append_assoc]
      rw [hread]
      simp only [component?_written, Option.any_some, isLastComponent_dropWhile, Bool.or_true]

end Call

/-! ### Colors -/

/-- **A color as it is written:** a number sign and 3, 4, 6 or 8 hexadecimal digits, or a color call. -/
def IsWrittenColor (t : Text) : Prop :=
  (∃ digits, t = '#' :: digits ∧ digits.length ∈ [3, 4, 6, 8] ∧ ∀ d ∈ digits, isHexDigit d = true) ∨
    ∃ k : ColorCall, t = k.written

/-- A color call does not begin with a number sign. -/
theorem ColorCall.head?_written (k : ColorCall) : k.written.head? ≠ some '#' := by
  have hnames : ∀ w ∈ callNames, ∃ a rest, w = a :: rest ∧ '#' ∉ letterForms a := by
    simp only [callNames, List.forall_mem_cons]
    exact ⟨⟨'r', _, rfl, by decide⟩, ⟨'h', _, rfl, by decide⟩, ⟨'h', _, rfl, by decide⟩, List.forall_mem_nil _⟩
  obtain ⟨w, hw, hname⟩ := k.name_word
  obtain ⟨a, rest, rfl, ha⟩ := hnames w hw
  cases hk : k.name with
  | nil => rw [hk] at hname; cases hname
  | cons c name =>
    rw [hk] at hname
    have hc := (List.forall₂_cons.1 hname).1
    rw [ColorCall.written, hk]
    intro h
    obtain rfl : c = '#' := Option.some.inj h
    exact ha hc

/-- **What is said of a value** in which none of the deciding words occurs: a value that begins with a number sign
is a color exactly if it is written as one, and the other ones that are not are left to the custom patterns. -/
theorem decided?_eq {t : Text} (hne : t ≠ []) (hrgb : ¬ "rgb".toList <:+: t) (hpx : ¬ "px".toList <:+: t)
    (hpalette : ¬ "colorPalette".toList <:+: t) (hfade : ¬ "fade".toList <:+: t) :
    (IsWrittenColor (strip t) ∧ decided? t = some true) ∨
      (¬ IsWrittenColor (strip t) ∧ decided? t = if (strip t).head? = some '#' then some false else none) := by
  have hword {w : Text} (h : ¬ w <:+: t) : occursIn w t = false := by
    by_contra ho
    obtain ⟨a, b, he⟩ := occursIn_iff.1 (by simpa using ho)
    exact h ⟨a, b, he.symm⟩
  have hempty : t.isEmpty = false := List.isEmpty_eq_false_iff.2 hne
  unfold decided?
  simp only [hword hrgb, hempty, hword hpx, hword hpalette, hword hfade, Bool.or_self, Bool.false_eq_true, if_false]
  split
  · next digits hstrip =>
    rw [hstrip, List.head?_cons, if_pos rfl]
    cases hhex : isHexColor ('#' :: digits) with
    | true => exact .inl ⟨.inl (isHexColor_iff.1 hhex), rfl⟩
    | false =>
      refine .inr ⟨?_, rfl⟩
      rintro (h | ⟨k, hk⟩)
      · exact absurd (hhex.symm.trans (isHexColor_iff.2 h)) (by simp)
      · exact k.head?_written (hk ▸ rfl)
  · next hstrip =>
    have hhead : (strip t).head? ≠ some '#' := fun h => by
      obtain ⟨digits, he⟩ := List.head?_eq_some_iff.1 h
      exact hstrip digits he
    rw [if_neg hhead]
    cases hcall : isColorCall (strip t) with
    | true => exact .inl ⟨.inr (isColorCall_iff.1 hcall), rfl⟩
    | false =>
      refine .inr ⟨?_, rfl⟩
      rintro (⟨digits, he, -⟩ | h)
      · exact hstrip digits he
      · exact absurd (hcall.symm.trans (isColorCall_iff.2 h)) (by simp)

/-- **What is accepted as a color,** in a value in which none of the deciding words occurs: without custom patterns
what is written as one, blanks at the ends aside; with custom patterns also a value without a number sign at its
beginning in which a pattern is found. -/
theorem isColor_iff {t : Text} (hne : t ≠ []) (hrgb : ¬ "rgb".toList <:+: t) (hpx : ¬ "px".toList <:+: t)
    (hpalette : ¬ "colorPalette".toList <:+: t) (hfade : ¬ "fade".toList <:+: t) :
    (∃ b, isColor (.ok []) t = .ok b ∧ (b = true ↔ IsWrittenColor (strip t))) ∧
    ∀ patterns : List Pattern, ∃ b, isColor (.ok patterns) t = .ok b ∧
      (b = true ↔ IsWrittenColor (strip t) ∨
        (strip t).head? ≠ some '#' ∧ ∃ p ∈ patterns, Pattern.isFoundIn p (strip t) = true) := by
  have hall : ∀ patterns : List Pattern, ∃ b, isColor (.ok patterns) t = .ok b ∧
      (b = true ↔ IsWrittenColor (strip t) ∨
        (strip t).head? ≠ some '#' ∧ ∃ p ∈ patterns, Pattern.isFoundIn p (strip t) = true) := by
    intro patterns
    rcases decided?_eq hne hrgb hpx hpalette hfade with ⟨hcolor, hd⟩ | ⟨hcolor, hd⟩
    · exact ⟨true, by rw [isColor, hd], by simp [hcolor]⟩
    · by_cases hhead : (strip t).head? = some '#'
      · rw [if_pos hhead] at hd
        exact ⟨false, by rw [isColor, hd], by simp [hcolor, hhead]⟩
      · rw [if_neg hhead] at hd
        exact ⟨_, by rw [isColor, hd]; rfl, by simp [hcolor, hhead]⟩
  refine ⟨?_, hall⟩
  obtain ⟨b, hb, hiff⟩ := hall []
  exact ⟨b, hb, by simpa using hiff⟩

/-- A call in mixed letter case, with a long s, a unit, two components and slashes before the last one. -/
theorem isColor_iff_call :
    let t : Text := " HſLA(120Turn,,\t40%\n / /.5%) ".toList
    t ≠ [] ∧ ¬ "rgb".toList <:+: t ∧ ¬ "px".toList <:+: t ∧ ¬ "colorPalette".toList <:+: t ∧
      ¬ "fade".toList <:+: t ∧ isColor (.ok []) t = .ok true ∧ IsWrittenColor (strip t) := by
  intro t
  have hne : t ≠ [] := by decide +kernel
  have hrgb : ¬ "rgb".toList <:+: t := by decide +kernel
  have hpx : ¬ "px".toList <:+: t := by decide +kernel
  have hpalette : ¬ "colorPalette".toList <:+: t := by decide +kernel
  have hfade : ¬ "fade".toList <:+: t := by decide +kernel
  obtain ⟨⟨b, hb, hiff⟩, -⟩ := isColor_iff hne hrgb hpx hpalette hfade
  have hcolor : isColor (.ok []) t = .ok true := by decide +kernel
  have htrue : b = true := Except.ok.inj (hb.symm.trans hcolor)
  exact ⟨hne, hrgb, hpx, hpalette, hfade, hcolor, hiff.1 htrue⟩

end Color
end ThemeSheet
