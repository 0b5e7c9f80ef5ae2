/-
# Names of variables and of their shades

A variable is an `@` sign and characters of a name.  The names of its shades say
which variable and which number they belong to, so different variables have
different shades.
-/

import Mathlib.Data.List.Nodup
import ThemeSheet.Marker.Discovery
import ThemeSheet.Number.Decimal
import ThemeSheet.Proofs.Variable.Shade

namespace ThemeSheet

open Text

/-! ### Characters of names -/

/-- The code points of the blanks. -/
def blankPoints : List Nat :=
  [9, 10, 11, 12, 13, 28, 29, 30, 31, 32, 0x85, 0xA0, 0x1680, 0x2000, 0x2001, 0x2002, 0x2003,
    0x2004, 0x2005, 0x2006, 0x2007, 0x2008, 0x2009, 0x200A, 0x2028, 0x2029, 0x202F, 0x205F, 0x3000]

/-- A blank has one of the code points of the blanks. -/
theorem toNat_mem_blankPoints {c : Char} (h : isBlank c = true) : c.toNat ∈ blankPoints := by
  simp only [isBlank, Bool.or_eq_true, Bool.and_eq_true, decide_eq_true_eq, beq_iff_eq] at h
  simp only [blankPoints, List.mem_cons, List.not_mem_nil, or_false]
  omega

/-- **No blank is a character of a name.** -/
theorem not_blank_of_isNameChar {c : Char} (h : isNameChar c = true) : isBlank c = false := by
  by_contra hb
  have hpoints : ∀ n ∈ blankPoints, isNameChar (Char.ofNat n) = false := by decide +kernel
  have := hpoints c.toNat (toNat_mem_blankPoints (by simpa using hb))
  rw [Char.ofNat_toNat, h] at this
  exact Bool.noConfusion this

/-- A text of name characters holds no other character. -/
theorem notMem_of_isNameChar {w : Text} (hw : ∀ c ∈ w, isNameChar c = true) {d : Char}
    (hd : isNameChar d = false) : d ∉ w :=
  fun hm => Bool.noConfusion ((hw d hm).symm.trans hd)

namespace Variable

/-- **A variable:** an `@` sign and one or more characters of a name. -/
def IsVariable (name : Text) : Prop := ∃ w, name = '@' :: w ∧ w ≠ [] ∧ ∀ c ∈ w, isNameChar c = true

/-- The name behind the at sign is the bare name. -/
theorem bareName_cons {w : Text} (hw : ∀ c ∈ w, isNameChar c = true) : bareName ('@' :: w) = w := by
  cases w with
  | nil => rfl
  | cons c w =>
    have hc : c ≠ '@' :=
      fun h => notMem_of_isNameChar hw (d := '@') (by decide) (h ▸ List.mem_cons_self ..)
    simp [bareName, hc]

/-- A variable is an at sign and its bare name. -/
theorem IsVariable.eq_cons_bareName {name : Text} (h : IsVariable name) :
    name = '@' :: bareName name := by
  obtain ⟨w, rfl, -, hw⟩ := h
  rw [bareName_cons hw]

/-- The bare name of a variable is not empty and made of name characters. -/
theorem IsVariable.bareName_spec {name : Text} (h : IsVariable name) :
    bareName name ≠ [] ∧ ∀ c ∈ bareName name, isNameChar c = true := by
  obtain ⟨w, rfl, hne, hw⟩ := h
  rw [bareName_cons hw]
  exact ⟨hne, hw⟩

/-! ### Shades -/

/-- What the names of a variable's shades begin with. -/
def shadeBase (name : Text) : Text := if name = primary then primaryShades else name

/-- The name of the shade with the given number. -/
def shadeName (name : Text) (n : Nat) : Text := shadeBase name ++ '-' :: decimalDigits n

/-- The names of the shades are made from their numbers. -/
theorem shadeNames_eq (name : Text) : shadeNames name = shadeNumbers.map (shadeName name) := rfl

/-- The numbers of the shades have digits, few enough, that denote them. -/
theorem shadeNumbers_digits : ∀ n ∈ shadeNumbers, decimalDigits n ≠ [] ∧
    (∀ c ∈ decimalDigits n, Unicode.isDigit c = true ∧ isNameChar c = true) ∧
    (decimalDigits n).length ≤ longestNumeral ∧ Decimal.digitsNumber (decimalDigits n) = n := by
  decide

/-- What the shades of a variable begin with is a variable. -/
theorem IsVariable.shadeBase {name : Text} (h : IsVariable name) : IsVariable (shadeBase name) := by
  unfold Variable.shadeBase
  split
  · exact ⟨"primary".toList, rfl, by decide, by decide⟩
  · exact h

/-- The shades of a variable are variables. -/
theorem IsVariable.shadeName {name : Text} (h : IsVariable name) {n : Nat} (hn : n ∈ shadeNumbers) :
    IsVariable (shadeName name n) := by
  obtain ⟨w, hw, -, hchars⟩ := h.shadeBase
  refine ⟨w ++ '-' :: decimalDigits n, by rw [Variable.shadeName, hw]; rfl, by simp, fun c hc => ?_⟩
  rcases List.mem_append.1 hc with hc | hc
  · exact hchars c hc
  · rcases List.mem_cons.1 hc with rfl | hc
    · decide
    · exact ((shadeNumbers_digits n hn).2.1 c hc).2

/-- **The name of a shade tells its base and its number.** -/
theorem shadeParts?_shadeName {name : Text} (h : IsVariable name) {n : Nat} (hn : n ∈ shadeNumbers) :
    shadeParts? (shadeName name n) = some (shadeBase name, decimalDigits n) := by
  obtain ⟨hne, hdigits, -⟩ := shadeNumbers_digits n hn
  have hd : ∀ c ∈ (decimalDigits n).reverse, Unicode.isDigit c = true :=
    fun c hc => (hdigits c (List.mem_reverse.1 hc)).1
  obtain ⟨w, hw, -, hchars⟩ := h.shadeBase
  have hline : '\n' ∉ shadeBase name := by
    rw [hw]
    exact List.not_mem_cons_of_ne_of_not_mem (by decide) (notMem_of_isNameChar hchars (by decide))
  have hwhole : withoutLineEnd (shadeName name n) = shadeName name n := by
    rw [withoutLineEnd, if_neg]
    intro hlast
    have hmem := List.mem_of_getLast? hlast
    rw [shadeName, List.mem_append, List.mem_cons] at hmem
    rcases hmem with hm | hm | hm
    · exact hline hm
    · exact absurd hm (by decide)
    · exact absurd (hdigits _ hm).1 (by decide)
  have htake : (shadeName name n).reverse.takeWhile Unicode.isDigit = (decimalDigits n).reverse := by
    rw [shadeName, List.reverse_append, List.reverse_cons, List.append_assoc,
      List.takeWhile_append_of_pos hd]
    simp [show Unicode.isDigit '-' = false by decide]
  have hdrop : (shadeName name n).reverse.dropWhile Unicode.isDigit =
      '-' :: (shadeBase name).reverse := by
    rw [shadeName, List.reverse_append, List.reverse_cons, List.append_assoc,
      List.dropWhile_append_of_pos hd]
    simp [show Unicode.isDigit '-' = false by decide]
  simp [shadeParts?, hwhole, htake, hdrop, hne, hline]

/-- The shades of a variable are shades. -/
theorem isShade_shadeName {name : Text} (h : IsVariable name) {n : Nat} (hn : n ∈ shadeNumbers) :
    isShade (shadeName name n) = true := by
  rw [isShade, shadeParts?_shadeName h hn]
  rfl

/-- **A shade is asked for by a variable and its number:** its own variable, but for those of `@primary`, which
are asked for by the main theme color. -/
theorem shadeCall_shadeName_eq {name : Text} (h : IsVariable name) {n : Nat} (hn : n ∈ shadeNumbers) :
    shadeCall (shadeName name n) =
      .ok (paletteCall (bareName (if name = primaryShades then primary else name)) (decimalDigits n)) := by
  have hbase : (if shadeBase name = primaryShades then primary else shadeBase name) =
      if name = primaryShades then primary else name := by
    by_cases hname : name = primary
    · rw [shadeBase, if_pos hname, if_pos rfl, hname, if_neg (by decide)]
    · rw [shadeBase, if_neg hname]
  rw [shadeCall, shadeParts?_shadeName h hn]
  exact congrArg (fun base => Except.ok (paletteCall (bareName base) (decimalDigits n))) hbase

/-- A shade of a variable is computed by a call with the bare name and its number. -/
theorem shadeCall_shadeName {name : Text} (h : IsVariable name) (hp : name ≠ primaryShades)
    {n : Nat} (hn : n ∈ shadeNumbers) :
    shadeCall (shadeName name n) = .ok (paletteCall (bareName name) (decimalDigits n)) := by
  rw [shadeCall_shadeName_eq h hn, if_neg hp]

/-- **Two variables begin the names of their shades alike** only if one is the main theme color and the other
is `@primary`. -/
theorem shadeBase_eq_iff {a b : Text} : shadeBase a = shadeBase b ↔
    a = b ∨ (a = primary ∧ b = primaryShades) ∨ (a = primaryShades ∧ b = primary) := by
  unfold shadeBase
  split <;> split
  · next h₁ h₂ => simp [h₁, h₂]
  · next h₁ h₂ => simp [h₁, Ne.symm h₂, eq_comm, show primary ≠ primaryShades by decide]
  · next h₁ h₂ => simp [h₁, h₂]
  · next h₁ h₂ => simp [h₁, h₂]

/-- Variables whose shades begin alike are the same, but for the main theme color and what its shades begin
with. -/
theorem shadeBase_inj {a b : Text} (ha : a ≠ primaryShades) (hb : b ≠ primaryShades)
    (h : shadeBase a = shadeBase b) : a = b := by
  rcases shadeBase_eq_iff.1 h with h | ⟨-, h⟩ | ⟨h, -⟩
  · exact h
  · exact absurd h hb
  · exact absurd h ha

/-- A shade's name tells what it begins with and its number. -/
theorem shadeBase_eq_of_shadeName_eq {a b : Text} (ha : IsVariable a) (hb : IsVariable b) {n k : Nat}
    (hn : n ∈ shadeNumbers) (hk : k ∈ shadeNumbers) (h : shadeName a n = shadeName b k) :
    shadeBase a = shadeBase b ∧ n = k := by
  have hparts := (shadeParts?_shadeName ha hn).symm.trans (h ▸ shadeParts?_shadeName hb hk)
  obtain ⟨hbase, hdigits⟩ := Prod.mk.inj (Option.some.inj hparts)
  refine ⟨hbase, ?_⟩
  rw [← (shadeNumbers_digits n hn).2.2.2, ← (shadeNumbers_digits k hk).2.2.2, hdigits]

/-- **Different variables or numbers have different shades.** -/
theorem shadeName_inj {a b : Text} (ha : IsVariable a) (hb : IsVariable b) (hpa : a ≠ primaryShades)
    (hpb : b ≠ primaryShades) {n k : Nat} (hn : n ∈ shadeNumbers) (hk : k ∈ shadeNumbers)
    (h : shadeName a n = shadeName b k) : a = b ∧ n = k :=
  (shadeBase_eq_of_shadeName_eq ha hb hn hk h).imp_left (shadeBase_inj hpa hpb)

/-- **Shades are faithful but for one pair of variables.**  Different variables have no shade in common unless
one is the main theme color and the other is `@primary`.  The names of a variable's shades are those of shades,
and the calls they stand for are those on the variable, one for each number; those of `@primary` are on the main
theme color. -/
theorem shadeNames_faithful :
    (∀ a b, IsVariable a → IsVariable b → a ≠ b → ((shadeNames a).Disjoint (shadeNames b) ↔
      ¬ ((a = primary ∧ b = primaryShades) ∨ (a = primaryShades ∧ b = primary)))) ∧
    ∀ w, IsVariable ('@' :: w) → (∀ name ∈ shadeNames ('@' :: w), isShade name = true) ∧
      (shadeNames ('@' :: w)).map shadeCall = shadeNumbers.map fun n =>
        .ok (paletteCall (if w = "primary".toList then "primary-color".toList else w) (decimalDigits n)) := by
  refine ⟨fun a b ha hb hne => ⟨fun hdisjoint hpair => ?_, fun hpair x hxa hxb => ?_⟩, fun w hw => ⟨?_, ?_⟩⟩
  · -- the two have the same shades
    have hbase : shadeBase a = shadeBase b := shadeBase_eq_iff.2 (.inr hpair)
    have hmem (v : Text) : shadeName v 1 ∈ shadeNames v :=
      List.mem_map_of_mem (show 1 ∈ shadeNumbers by decide)
    refine hdisjoint (hmem a) ?_
    rw [show shadeName a 1 = shadeName b 1 by rw [shadeName, shadeName, hbase]]
    exact hmem b
  · obtain ⟨n, hn, rfl⟩ := List.mem_map.1 hxa
    obtain ⟨k, hk, he⟩ := List.mem_map.1 hxb
    exact (shadeBase_eq_iff.1 (shadeBase_eq_of_shadeName_eq hb ha hk hn he).1.symm).elim hne hpair
  · intro name hname
    obtain ⟨n, hn, rfl⟩ := List.mem_map.1 hname
    exact isShade_shadeName hw hn
  · have hbare : bareName (if '@' :: w = primaryShades then primary else '@' :: w) =
        if w = "primary".toList then "primary-color".toList else w := by
      have hiff : '@' :: w = primaryShades ↔ w = "primary".toList := by
        rw [show primaryShades = '@' :: "primary".toList from rfl, List.cons.injEq, and_iff_right rfl]
      simp only [hiff]
      split
      · rfl
      · exact (List.cons.inj hw.eq_cons_bareName).2.symm
    rw [shadeNames_eq, List.map_map]
    refine List.map_congr_left fun n hn => ?_
    rw [Function.comp_apply, shadeCall_shadeName_eq hw hn, hbare]

/-- A variable is named as a shade of the other one would be, but for a hyphen at the end. -/
theorem shadeNames_faithful_hyphens :
    (shadeNames "@link".toList).Disjoint (shadeNames "@link-1-".toList) ∧
      (∀ name ∈ shadeNames "@link-1-".toList, isShade name = true) ∧
      (shadeNames "@link-1-".toList).map shadeCall =
        shadeNumbers.map fun n => .ok (paletteCall "link-1-".toList (decimalDigits n)) := by
  have hlink : IsVariable "@link".toList := ⟨"link".toList, rfl, by decide, by decide⟩
  have hhyphens : IsVariable ('@' :: "link-1-".toList) := ⟨"link-1-".toList, rfl, by decide, by decide⟩
  obtain ⟨hshades, hcalls⟩ := shadeNames_faithful.2 "link-1-".toList hhyphens
  refine ⟨(shadeNames_faithful.1 _ _ hlink hhyphens (by decide)).2 (by decide), hshades, ?_⟩
  rwa [if_neg (by decide)] at hcalls

/-- **The main theme color and `@primary` have the same shades,** and `@primary` has none of its own. -/
theorem not_forall_shadeNames_disjoint :
    (¬ ∀ a b, IsVariable a → IsVariable b → isShade a = false → isShade b = false → a ≠ b →
      (shadeNames a).Disjoint (shadeNames b)) ∧
    ¬ ∀ w, IsVariable ('@' :: w) → isShade ('@' :: w) = false →
      (shadeNames ('@' :: w)).map shadeCall =
        shadeNumbers.map fun n => .ok (paletteCall w (decimalDigits n)) := by
  have hcolor : IsVariable primary := ⟨"primary-color".toList, rfl, by decide, by decide⟩
  have hshades : IsVariable primaryShades := ⟨"primary".toList, rfl, by decide, by decide⟩
  constructor <;> intro hall
  · exact hall primary primaryShades hcolor hshades (by decide) (by decide) (by decide)
      (show "@primary-1".toList ∈ shadeNames primary by decide)
      (show "@primary-1".toList ∈ shadeNames primaryShades by decide)
  · have hcalls := hall "primary".toList hshades (by decide)
    exact absurd hcalls (by decide)

/-- A variable and its nine shades. -/
def family (name : Text) : List Text := name :: shadeNames name

/-- The names that are asked for are those of the variables and of their shades. -/
theorem mem_wanted_iff {names : List Text} {name : Text} :
    name ∈ Marker.wanted names ↔ name ∈ names.flatMap family := by
  simp only [Marker.wanted, List.mem_append, List.mem_flatMap, family, List.mem_cons]
  constructor
  · rintro (h | ⟨a, ha, hs⟩)
    · exact ⟨name, h, .inl rfl⟩
    · exact ⟨a, ha, .inr hs⟩
  · rintro ⟨a, ha, rfl | hs⟩
    · exact .inl ha
    · exact .inr ⟨a, ha, hs⟩

/-- **Theme variables:** different variables, none of which is a shade or what the shades of the
main theme color begin with. -/
structure IsTheme (names : List Text) : Prop where
  nodup : names.Nodup
  isVariable : ∀ name ∈ names, IsVariable name
  no_shade : ∀ name ∈ names, isShade name = false
  no_primary : primaryShades ∉ names

/-- No theme variable is what the shades of the main theme color begin with. -/
theorem IsTheme.ne_primaryShades {names : List Text} (h : IsTheme names) {name : Text}
    (hn : name ∈ names) : name ≠ primaryShades :=
  fun he => h.no_primary (he ▸ hn)

/-- **No name stands for two variables or shades.** -/
theorem IsTheme.nodup_families {names : List Text} (h : IsTheme names) :
    (names.flatMap family).Nodup := by
  have hnotShade {a b : Text} (ha : a ∈ names) (hb : b ∈ names) : a ∉ shadeNames b := by
    rw [shadeNames_eq, List.mem_map]
    rintro ⟨n, hn, rfl⟩
    exact Bool.noConfusion ((isShade_shadeName (h.isVariable b hb) hn).symm.trans (h.no_shade _ ha))
  refine List.nodup_flatMap.2 ⟨fun name hname => ?_, h.nodup.imp_of_mem fun {a b} ha hb hne => ?_⟩
  · refine List.nodup_cons.2 ⟨hnotShade hname hname, ?_⟩
    have hv := h.isVariable name hname
    have hp := h.ne_primaryShades hname
    rw [shadeNames_eq]
    exact List.Nodup.map_on (fun n hn k hk he => (shadeName_inj hv hv hp hp hn hk he).2) (by decide)
  · intro x hxa hxb
    rcases List.mem_cons.1 hxa with rfl | hxa <;> rcases List.mem_cons.1 hxb with rfl | hxb
    · exact hne rfl
    · exact hnotShade ha hb hxb
    · exact hnotShade hb ha hxa
    · rw [shadeNames_eq, List.mem_map] at hxa hxb
      obtain ⟨n, hn, rfl⟩ := hxa
      obtain ⟨k, hk, he⟩ := hxb
      exact hne (shadeName_inj (h.isVariable a ha) (h.isVariable b hb) (h.ne_primaryShades ha)
        (h.ne_primaryShades hb) hn hk he.symm).1

end Variable
end ThemeSheet
