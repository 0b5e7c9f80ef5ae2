/-
# Calls of the palette function

A call is found where it stands, and gives the shade of the color that its variable
has.
-/

import ThemeSheet.Proofs.Less.Value
import ThemeSheet.Proofs.Table
import ThemeSheet.Proofs.Variable.Name

namespace ThemeSheet
namespace Less
namespace Evaluator

open Text

/-- How a call of the palette function begins. -/
def paletteOpening : Text :=
  ['c', 'o', 'l', 'o', 'r', '(', '~', '`', 'c', 'o', 'l', 'o', 'r', 'P', 'a', 'l', 'e', 't', 't',
    'e', '(', '"', '@', '\x7b']

/-- What stands between the variable and the number. -/
def paletteMiddle : Text := ['\x7d', '"', ',', ' ']

/-- How a call of the palette function ends. -/
def paletteEnd : Text := [')', '`', ')']

/-- A call for a shade is the name and the number between three fixed texts. -/
theorem paletteCall_eq (name number : Text) :
    Variable.paletteCall name number =
      paletteOpening ++ name ++ paletteMiddle ++ number ++ paletteEnd := by
  unfold Variable.paletteCall
  rfl

/-- **What a call of the palette function is.** -/
theorem paletteCall?_eq_some {t name number rest : Text}
    (h : paletteCall? t = some ((name, number), rest)) :
    t = Variable.paletteCall name number ++ rest ∧ (∀ c ∈ name, isNameChar c = true) ∧
      ∀ c ∈ number, Unicode.isDigit c = true := by
  obtain ⟨inner, hi, h⟩ := Option.bind_eq_some_iff.1 h
  obtain ⟨afterName, hn, h⟩ := Option.bind_eq_some_iff.1 h
  obtain ⟨rest', hr, h⟩ := Option.bind_eq_some_iff.1 h
  simp only [Option.ite_none_left_eq_some, Option.some.injEq, Prod.mk.injEq] at h
  obtain ⟨-, ⟨rfl, rfl⟩, rfl⟩ := h
  refine ⟨?_, fun c hc => List.mem_takeWhile_imp hc, fun c hc => List.mem_takeWhile_imp hc⟩
  have hnumber : afterName = afterName.takeWhile Unicode.isDigit ++ (")`)".toList ++ rest') := by
    rw [← dropPrefix?_eq_some.1 hr, List.takeWhile_append_dropWhile]
  have hname : inner = inner.takeWhile isNameChar ++ ("\x7d\", ".toList ++ afterName) := by
    rw [← dropPrefix?_eq_some.1 hn, List.takeWhile_append_dropWhile]
  rw [dropPrefix?_eq_some.1 hi, paletteCall_eq]
  conv => lhs; rw [hname, hnumber]
  show paletteOpening ++ _ = _
  simp [paletteMiddle, paletteEnd]

/-- **A call is read as it is written.** -/
theorem paletteCall?_paletteCall {name number : Text} (hne : name ≠ [])
    (hn : ∀ c ∈ name, isNameChar c = true) (hne' : number ≠ [])
    (hd : ∀ c ∈ number, Unicode.isDigit c = true) (rest : Text) :
    paletteCall? (Variable.paletteCall name number ++ rest) = some ((name, number), rest) := by
  have hdigit : Unicode.isDigit ')' = false := by decide
  have hname : isNameChar '\x7d' = false := by decide
  have h₁ : dropPrefix? "color(~`colorPalette(\"@\x7b".toList
      (Variable.paletteCall name number ++ rest) =
        some (name ++ paletteMiddle ++ number ++ paletteEnd ++ rest) :=
    dropPrefix?_eq_some.2 (by rw [paletteCall_eq]; show _ = paletteOpening ++ _; simp)
  have h₂ : (name ++ paletteMiddle ++ number ++ paletteEnd ++ rest).dropWhile isNameChar =
      paletteMiddle ++ (number ++ paletteEnd ++ rest) := by
    rw [List.append_assoc, List.append_assoc, List.append_assoc, List.dropWhile_append_of_pos hn]
    simp [paletteMiddle, hname]
  have h₃ : (name ++ paletteMiddle ++ number ++ paletteEnd ++ rest).takeWhile isNameChar = name := by
    rw [List.append_assoc, List.append_assoc, List.append_assoc, List.takeWhile_append_of_pos hn]
    simp [paletteMiddle, hname]
  have h₄ : dropPrefix? "\x7d\", ".toList (paletteMiddle ++ (number ++ paletteEnd ++ rest)) =
      some (number ++ paletteEnd ++ rest) :=
    dropPrefix?_eq_some.2 rfl
  have h₅ : (number ++ paletteEnd ++ rest).dropWhile Unicode.isDigit = paletteEnd ++ rest := by
    rw [List.append_assoc, List.dropWhile_append_of_pos hd]
    simp [paletteEnd, hdigit]
  have h₆ : (number ++ paletteEnd ++ rest).takeWhile Unicode.isDigit = number := by
    rw [List.append_assoc, List.takeWhile_append_of_pos hd]
    simp [paletteEnd, hdigit]
  have h₇ : dropPrefix? ")`)".toList (paletteEnd ++ rest) = some rest := dropPrefix?_eq_some.2 rfl
  rw [paletteCall?, h₁]
  show (dropPrefix? "\x7d\", ".toList _).bind _ = _
  rw [h₂, h₃, h₄]
  show (dropPrefix? ")`)".toList _).bind _ = _
  rw [h₅, h₆, h₇]
  exact if_neg (by simp [hne, hne'])

/-- A call that begins in front of a rule ends in front of it. -/
theorem staysBefore_paletteCall (defined : Table Text) (source z : Text) :
    StaysBefore (fun t => (paletteCall? t).map fun ((name, digits), rest) =>
      (paletteColor defined source name digits, rest)) ('.' :: z) := by
  refine staysBefore_of (q := fun p => '.' ∉ p) ?_ ?_
  · intro t x r h
    obtain ⟨⟨⟨name, number⟩, rest⟩, hc, he⟩ := Option.map_eq_some_iff.1 h
    obtain ⟨-, rfl⟩ := Prod.mk.inj he
    obtain ⟨ht, hn, hd⟩ := paletteCall?_eq_some hc
    refine ⟨_, ht, fun hm => ?_⟩
    rw [paletteCall_eq] at hm
    simp only [List.mem_append] at hm
    rcases hm with (((hm | hm) | hm) | hm) | hm
    · exact absurd hm (by decide)
    · exact absurd (hn _ hm) (by decide)
    · exact absurd hm (by decide)
    · exact absurd (hd _ hm) (by decide)
    · exact absurd hm (by decide)
  · intro u w r hu hw hz hq
    cases w with
    | nil => exact hw rfl
    | cons c w =>
      obtain rfl := (List.cons.inj hz).1
      exact hq (by simp)

/-- No call begins in a text without round brackets that ends with a character that is in no call's
beginning. -/
theorem paletteCall?_skip {p z : Text} {c : Char} (hp : '(' ∉ p) (hc : c ∉ paletteOpening) :
    ∀ s, s ≠ [] → s <:+ p ++ [c] → paletteCall? (s ++ z) = none := by
  intro s hs hsuffix
  by_contra hn
  obtain ⟨⟨⟨name, number⟩, rest⟩, hcall⟩ := Option.ne_none_iff_exists'.1 hn
  obtain ⟨ht, -, -⟩ := paletteCall?_eq_some hcall
  rw [paletteCall_eq] at ht
  have hlast : c ∈ s := by
    obtain ⟨front, hfront⟩ := hsuffix
    rcases s.eq_nil_or_concat with rfl | ⟨s, d, rfl⟩
    · exact absurd rfl hs
    · rw [List.concat_eq_append, ← List.append_assoc] at hfront
      obtain rfl : d = c := by simpa using (List.append_inj' hfront rfl).2
      simp
  rcases List.append_eq_append_iff.1
    (show s ++ z = paletteOpening ++
      (name ++ paletteMiddle ++ number ++ paletteEnd ++ rest) by rw [ht]; simp) with
    ⟨x, hx, -⟩ | ⟨x, hx, -⟩
  · exact hc (by rw [hx]; exact List.mem_append_left _ hlast)
  · -- the whole beginning of the call stands in the text, with its bracket
    have hm : '(' ∈ p ++ [c] := hsuffix.subset (by rw [hx]; exact List.mem_append_left _ (by decide))
    rcases List.mem_append.1 hm with hm | hm
    · exact hp hm
    · exact hc (by rw [← List.mem_singleton.1 hm]; decide)

/-- **The color of a call is the shade of the color that its variable has.** -/
theorem paletteColor_eq_ok {defined : Table Text} {source name color text : Text} {n : Nat}
    (hname : name ≠ [] ∧ ∀ c ∈ name, isNameChar c = true) (hd : defined.get? ('@' :: name) = some color)
    (hc : Color.IsValue color) (hn : n ∈ Variable.shadeNumbers)
    (h : paletteColor defined source name (decimalDigits n) = .ok text) :
    ∃ rgb, channels? color = some rgb ∧ shade rgb n = .ok text := by
  have hat : '@' ∉ color := hc.notMem (by decide)
  have hreference : reference? ('@' :: name) = some ('@' :: name, []) := by
    have htake : name.takeWhile isNameChar = name := List.takeWhile_eq_self_iff.2 hname.2
    have hdrop : name.dropWhile isNameChar = [] := List.dropWhile_eq_nil_iff.2 hname.2
    simp [reference?, htake, hdrop, hname.1]
  have honce : substituteOnce defined source ('@' :: name) = .ok color := by
    rw [substituteOnce, hreference]
    simp [hd, substituteOnce, Except.map]
  have hvalue : substitute defined source rounds ('@' :: name) = .ok color := by
    rw [rounds, substitute]
    refine Fallible.bind_eq_ok.2 ⟨color, honce, ?_⟩
    have hne : ¬ color = '@' :: name := fun he => hat (by rw [he]; exact List.mem_cons_self ..)
    rw [if_neg hne]
    exact substitute_of_notMem hat _
  obtain ⟨-, -, hlong, hnumber⟩ := Variable.shadeNumbers_digits n hn
  obtain ⟨value, hv, h⟩ := Fallible.bind_eq_ok.1 h
  obtain rfl := Except.ok.inj (hvalue.symm.trans hv)
  obtain ⟨number, hk, h⟩ := Fallible.bind_eq_ok.1 h
  rw [shadeNumber, if_neg (by omega), hnumber] at hk
  obtain rfl := Except.ok.inj hk
  split at h
  · next rgb hrgb => exact ⟨rgb, hrgb, h⟩
  · simp [throw, throwThe, MonadExceptOf.throw] at h

/-- A shade is written as a color's value. -/
theorem isValue_of_shade {rgb : Color.Rgb} {n : Nat} {text : Text} (h : shade rgb n = .ok text) :
    Color.IsValue text := by
  obtain ⟨r, -, h⟩ := Fallible.bind_eq_ok.1 h
  obtain ⟨g, -, h⟩ := Fallible.bind_eq_ok.1 h
  obtain ⟨b, -, h⟩ := Fallible.bind_eq_ok.1 h
  exact Except.ok.inj h ▸ Color.Rgb.isValue_hex _

end Evaluator
end Less
end ThemeSheet
