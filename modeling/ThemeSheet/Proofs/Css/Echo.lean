/-
# Texts that end a piece as another text does

A piece ends where it does because of the few characters behind it.  `Echo r t` says
that `t` looks like `r` from its beginning up to the first place where the written form
differs from the source: a comment, a quote, an escape, or the letters of an address
or a range.  What does not carry a piece on in the source does not do so in its echo.
-/

import ThemeSheet.Proofs.Css.Spelling

namespace ThemeSheet
namespace Css

/-- Characters that carry nothing on and begin nothing that could. -/
def isStill (c : Char) : Bool := "\"/ \n;)]\x7d".toList.contains c

/-- A text that is empty or begins with such a character. -/
def IsStill (t : Text) : Prop := ∀ c, t.head? = some c → isStill c = true

/-- **The text `t` ends every piece that the text `r` ends.** -/
inductive Echo : Text → Text → Prop
  | still {r t : Text} : IsStill t → Echo r t
  | same {r t : Text} (c : Char) : Echo r t → Echo (c :: r) (c :: t)
  | address {n r t : Text} : IsIdent n → isUrlName n = true → Echo (n ++ '(' :: r) ("url(".toList ++ t)
  | range {r t : Text} : startsUnicodeRange r = true → Echo r ('U' :: '+' :: t)
  | escape {c : Char} {r t : Text} : isNameStart c = true → Echo (c :: r) ('\\' :: t)

/-- The characters at which a text may differ from its echo. -/
def isTurn (c : Char) : Bool := isStill c || c == 'u' || c == 'U' || c == '\\'

/-- A text and its echo begin alike but for the characters at which they may differ. -/
theorem Echo.cons_inv {r t : Text} {c : Char} (h : Echo r (c :: t)) (hc : isTurn c = false) :
    ∃ r', r = c :: r' ∧ Echo r' t := by
  simp only [isTurn, Bool.or_eq_false_iff, beq_eq_false_iff_ne] at hc
  obtain ⟨⟨⟨h1, h2⟩, h3⟩, h4⟩ := hc
  cases h with
  | still ht => rw [ht c rfl] at h1; exact Bool.noConfusion h1
  | same _ h => exact ⟨_, rfl, h⟩
  | address => exact absurd rfl h2
  | range => exact absurd rfl h3
  | escape => exact absurd rfl h4

/-! ### What an echo does not begin with -/

/-- What an echo begins with, the text begins with, if no such character is in it. -/
theorem Echo.beginsWith {r t : Text} (h : Echo r t) (p : Text) (hp : p.all fun c => !isTurn c) :
    Text.beginsWith p t = true → Text.beginsWith p r = true := by
  intro ht
  induction p generalizing r t with
  | nil => exact Text.beginsWith_iff.2 ⟨r, rfl⟩
  | cons c p ih =>
    obtain ⟨u, rfl⟩ := Text.beginsWith_iff.1 ht
    obtain ⟨hc, hp'⟩ := Bool.and_eq_true_iff.1 (List.all_cons ▸ hp)
    obtain ⟨r', rfl, h'⟩ := h.cons_inv (by simpa using hc)
    obtain ⟨v, rfl⟩ := Text.beginsWith_iff.1 (ih h' hp' (Text.beginsWith_iff.2 ⟨u, rfl⟩))
    exact Text.beginsWith_iff.2 ⟨v, rfl⟩

/-- A text begins with a character exactly if the character comes first. -/
theorem head?_eq_some_iff_beginsWith {c : Char} {t : Text} :
    t.head? = some c ↔ Text.beginsWith [c] t = true := by
  rw [Text.beginsWith_iff, List.head?_eq_some_iff]
  rfl

/-- A character that does not come first in the text does not come first in its echo. -/
theorem Echo.head? {r t : Text} (h : Echo r t) {c : Char} (hc : isTurn c = false)
    (hr : r.head? ≠ some c) : t.head? ≠ some c := fun ht =>
  hr (head?_eq_some_iff_beginsWith.2
    (h.beginsWith [c] (by simp [hc]) (head?_eq_some_iff_beginsWith.1 ht)))

/-- The still characters, one by one. -/
theorem isStill_iff {c : Char} :
    isStill c = true ↔ c ∈ ['"', '/', ' ', '\n', ';', ')', ']', '\x7d'] := by
  rw [isStill, List.contains_iff_mem]
  rfl

/-- A class without characters that carry nothing on. -/
theorem not_isStill {p : Char → Bool}
    (hp : ∀ c ∈ ['"', '/', ' ', '\n', ';', ')', ']', '\x7d'], p c = false) {c : Char} (h : p c = true) :
    isStill c = false := by
  cases hs : isStill c with
  | false => rfl
  | true =>
    rw [hp c (isStill_iff.1 hs)] at h
    exact Bool.noConfusion h

/-- A class without turns. -/
theorem not_isTurn {p : Char → Bool}
    (hp : ∀ c ∈ ['"', '/', ' ', '\n', ';', ')', ']', '\x7d', 'u', 'U', '\\'], p c = false) {c : Char}
    (h : p c = true) : isTurn c = false := by
  have hne : ∀ d, p d = false → c ≠ d := by
    rintro d hd rfl
    rw [h] at hd
    exact Bool.noConfusion hd
  have hs := not_isStill (fun c hc => hp c (by revert hc; simp; grind)) h
  simp [isTurn, hs, hne 'u' (hp _ (by decide)), hne 'U' (hp _ (by decide)), hne '\\' (hp _ (by decide))]

/-- A text and its echo do not differ at a digit. -/
theorem not_isTurn_of_isDigit {c : Char} (h : c.isDigit = true) : isTurn c = false :=
  not_isTurn (by decide) h

/-- Where a digit stands first in the echo, one stands first in the text. -/
theorem Echo.startsDigit {r t : Text} (h : Echo r t) (ht : startsDigit t = true) :
    Css.startsDigit r = true := by
  cases t with
  | nil => simp [Css.startsDigit] at ht
  | cons c t =>
    have hc : c.isDigit = true := by simpa [Css.startsDigit] using ht
    obtain ⟨r', rfl, -⟩ := h.cons_inv (not_isTurn_of_isDigit hc)
    simpa [Css.startsDigit] using hc

/-- Where a fraction begins the echo, one begins the text. -/
theorem Echo.startsFraction {r t : Text} (h : Echo r t) (ht : startsFraction t = true) :
    Css.startsFraction r = true := by
  unfold Css.startsFraction at ht
  split at ht
  · next u =>
    obtain ⟨r', rfl, h'⟩ := h.cons_inv (by decide)
    exact h'.startsDigit ht
  · simp at ht

/-- A digit or a fraction begins a number. -/
theorem startsNumber_of_startsDigit {r : Text} (h : startsDigit r = true ∨ startsFraction r = true) :
    startsNumber r = true := by
  have hsign : (sign r).2 = r := by
    unfold sign
    split
    · simp [startsDigit, startsFraction] at h
    · simp [startsDigit, startsFraction] at h
    · rfl
  rw [startsNumber, hsign, Bool.or_eq_true]
  exact h

/-- Where a number begins the echo, one begins the text. -/
theorem Echo.startsNumber {r t : Text} (h : Echo r t) (ht : startsNumber t = true) :
    Css.startsNumber r = true := by
  have hstep : ∀ {r t : Text}, Echo r t → Css.startsDigit t = true ∨ Css.startsFraction t = true →
      Css.startsDigit r = true ∨ Css.startsFraction r = true := fun h ht =>
    ht.imp h.startsDigit h.startsFraction
  rw [Css.startsNumber, Bool.or_eq_true] at ht
  unfold sign at ht
  split at ht
  · obtain ⟨r', rfl, h'⟩ := h.cons_inv (by decide)
    rw [Css.startsNumber, Bool.or_eq_true]
    exact hstep h' ht
  · obtain ⟨r', rfl, h'⟩ := h.cons_inv (by decide)
    rw [Css.startsNumber, Bool.or_eq_true]
    exact hstep h' ht
  · exact startsNumber_of_startsDigit (hstep h ht)

/-- Does a name begin here, but for a hyphen before it? -/
def beginsName (t : Text) : Bool := t.head?.any fun c => isNameStart c || c == '\\'

/-- The name of addresses begins with a letter. -/
theorem isNameStart_of_isUrlName {n : Text} (h : isUrlName n = true) :
    ∃ c u, n = c :: u ∧ isNameStart c = true := by
  rw [isUrlName, beq_iff_eq, Text.asciiLower] at h
  obtain ⟨c, u, rfl⟩ := List.exists_cons_of_ne_nil (show n ≠ [] by rintro rfl; simp at h)
  refine ⟨c, u, rfl, ?_⟩
  have hc : c.toLower = 'u' := (List.cons.inj h).1
  have hcase : c = 'u' ∨ c = 'U' := by
    unfold Char.toLower at hc
    split at hc
    · next hupper =>
      refine .inr (Char.ext (UInt32.toNat_inj.1 ?_))
      have hval := congrArg (fun c => c.val.toNat) hc
      have hle := UInt32.le_iff_toNat_le.1 hupper.2
      simp at hval hle ⊢
      omega
    · exact .inl hc
  rcases hcase with rfl | rfl <;> decide

/-- What begins a range of code points begins with a letter. -/
theorem startsUnicodeRange_eq_true {r : Text} (h : startsUnicodeRange r = true) :
    ∃ c u, r = c :: u ∧ isNameStart c = true := by
  cases r with
  | nil => simp [startsUnicodeRange] at h
  | cons c r =>
    refine ⟨c, r, rfl, ?_⟩
    rcases eq_of_startsUnicodeRange h with rfl | rfl <;> decide

/-- Where a name begins the echo, one begins the text. -/
theorem Echo.beginsName {r t : Text} (h : Echo r t) (ht : beginsName t = true) :
    Css.beginsName r = true := by
  cases h with
  | still hstill =>
    cases t with
    | nil => simp [Css.beginsName] at ht
    | cons c t =>
      have hc : isNameStart c = true ∨ c = '\\' := by simpa [Css.beginsName] using ht
      have hs := hstill c rfl
      rw [not_isStill (p := fun c => isNameStart c || c == '\\') (by decide) (by simpa using hc)] at hs
      exact Bool.noConfusion hs
  | same c _ => exact ht
  | address _ hurl =>
    obtain ⟨c, u, rfl, hc⟩ := isNameStart_of_isUrlName hurl
    simp [Css.beginsName, hc]
  | range hr =>
    obtain ⟨c, u, rfl, hc⟩ := startsUnicodeRange_eq_true hr
    simp [Css.beginsName, hc]
  | escape hc => simp [Css.beginsName, hc]

/-- What begins a name continues one. -/
theorem continuesName_of_beginsName {r : Text} (h : beginsName r = true) : continuesName r = true := by
  cases r with
  | nil => simp [beginsName] at h
  | cons c r =>
    have hc : isNameStart c = true ∨ c = '\\' := by simpa [beginsName] using h
    rcases hc with hc | rfl
    · simp [continuesName, isNamePart_of_isNameStart hc]
    · rfl

/-- Where the echo carries a name on, the text does. -/
theorem Echo.continuesName {r t : Text} (h : Echo r t) (ht : continuesName t = true) :
    Css.continuesName r = true := by
  cases t with
  | nil => simp [Css.continuesName] at ht
  | cons c t =>
    by_cases hn : Css.beginsName (c :: t) = true
    · exact continuesName_of_beginsName (h.beginsName hn)
    · have hc : c.isDigit = true ∨ c = '-' := by
        simp [Css.continuesName, isNamePart] at ht
        simp [Css.beginsName] at hn
        simpa [hn] using ht
      have hturn : isTurn c = false := by
        rcases hc with hc | rfl
        · exact not_isTurn_of_isDigit hc
        · decide
      obtain ⟨r', rfl, -⟩ := h.cons_inv hturn
      exact ht

/-- Without backslashes, a name begins exactly where a letter stands first. -/
theorem beginsName_iff {r : Text} (hb : '\\' ∉ r) :
    beginsName r = true ↔ ∃ c u, r = c :: u ∧ isNameStart c = true := by
  cases r with
  | nil => simp [beginsName]
  | cons c r =>
    have hc : c ≠ '\\' := by rintro rfl; simp at hb
    simp [beginsName, hc]

/-- Where an identifier begins the echo, one begins the text. -/
theorem Echo.startsIdent {r t : Text} (h : Echo r t) (hb : '\\' ∉ r) (ht : startsIdent t = true) :
    Css.startsIdent r = true := by
  have hname : ∀ {c : Char} {u : Text}, isNameStart c = true ∨ startsEscape (c :: u) = true →
      Css.beginsName (c :: u) = true := by
    intro c u hcu
    rcases hcu with hc | hc
    · simp [Css.beginsName, hc]
    · have : c = '\\' := by
        by_contra hne
        rw [startsEscape_cons hne] at hc
        exact Bool.noConfusion hc
      simp [Css.beginsName, this]
  rw [startsIdent_iff hb]
  unfold Css.startsIdent at ht
  split at ht
  · next c u =>
    obtain ⟨r', rfl, h'⟩ := h.cons_inv (by decide)
    have hb' : '\\' ∉ r' := fun hm => hb (List.mem_cons_of_mem _ hm)
    by_cases hc : c = '-'
    · subst hc
      obtain ⟨r'', rfl, -⟩ := h'.cons_inv (by decide)
      exact .inr ⟨'-', r'', rfl, .inr rfl⟩
    · have hn := h'.beginsName (hname (by simpa [hc] using ht))
      obtain ⟨d, v, rfl, hd⟩ := (beginsName_iff hb').1 hn
      exact .inr ⟨d, v, rfl, .inl hd⟩
  · next c u _ =>
    exact .inl ((beginsName_iff hb).1 (h.beginsName (hname (by simpa using ht))))
  · simp at ht

/-- Where a range of code points begins the echo, one begins the text. -/
theorem Echo.startsUnicodeRange {r t : Text} (h : Echo r t) (ht : startsUnicodeRange t = true) :
    Css.startsUnicodeRange r = true := by
  cases h with
  | still hstill =>
    obtain ⟨c, u, rfl, hc⟩ := startsUnicodeRange_eq_true ht
    have := hstill c rfl
    rw [not_isStill (by decide) hc] at this
    exact Bool.noConfusion this
  | @same r t c h' =>
    unfold Css.startsUnicodeRange at ht
    split at ht
    · next d u heq =>
      obtain ⟨rfl, rfl⟩ := List.cons.inj heq
      obtain ⟨r', rfl, h''⟩ := h'.cons_inv (by decide)
      have hu := (Bool.and_eq_true_iff.1 ht).2
      obtain ⟨r'', rfl, -⟩ := h''.cons_inv (not_isTurn (p := fun c => isHexDigit c || c == '?') (by decide) hu)
      exact ht
    · simp at ht
  | address => simp [Css.startsUnicodeRange] at ht
  | range hr => exact hr
  | escape => rw [startsUnicodeRange_cons (by decide)] at ht; exact Bool.noConfusion ht

end Css
end ThemeSheet
