/-
# Calls that the compiler has computed

A call that fades a discovered color by a written percentage is recognised by its
computed text.  Every entry of the table of such texts is a computed color and a
call.
-/

import ThemeSheet.Proofs.Color.Computed
import ThemeSheet.Proofs.Fade.Calls

namespace ThemeSheet

open Text

namespace Fade

/-- Does the text end with a bracket, and hold no opening one? -/
def EndsCall (t : Text) : Prop := ∃ arguments, t = arguments ++ [')'] ∧ '(' ∉ arguments

/-- A character that is no opening bracket may stand before the end of a call. -/
theorem EndsCall.cons {c : Char} {t : Text} (h : EndsCall t) (hc : '(' ≠ c) : EndsCall (c :: t) := by
  obtain ⟨arguments, rfl, hround⟩ := h
  exact ⟨c :: arguments, rfl, by rw [List.mem_cons, not_or]; exact ⟨hc, hround⟩⟩

/-- A character that is dropped from the beginning, and is no opening bracket, may be put back. -/
theorem EndsCall.of_dropPrefix? {c : Char} {t r : Text} (h : EndsCall r) (hd : dropPrefix? [c] t = some r)
    (hc : '(' ≠ c) : EndsCall t := by
  rw [dropPrefix?_eq_some.1 hd]
  exact h.cons hc

/-- Characters that are dropped from the beginning, opening brackets not among them, may be put back. -/
theorem EndsCall.of_dropWhile {p : Char → Bool} {t : Text} (h : EndsCall (t.dropWhile p))
    (hp : p '(' = false) : EndsCall t := by
  induction t with
  | nil => exact h
  | cons c t ih =>
    rw [List.dropWhile_cons] at h
    split at h
    · next hc =>
      refine (ih h).cons fun he => ?_
      rw [← he, hp] at hc
      exact Bool.noConfusion hc
    · exact h

/-- **A fade of a variable is a call** in which no bracket is opened again. -/
theorem endsCall_of_themeFade? {call name percent : Text} (h : themeFade? call = some (name, percent)) :
    ∃ inner, call = opening ++ inner ∧ EndsCall inner := by
  obtain ⟨inner, hinner, h⟩ := Option.bind_eq_some_iff.1 h
  obtain ⟨afterAt, hat, h⟩ := Option.bind_eq_some_iff.1 h
  obtain ⟨afterComma, hcomma, h⟩ := Option.bind_eq_some_iff.1 h
  obtain ⟨rest, hrest, h⟩ := Option.bind_eq_some_iff.1 h
  obtain ⟨hforms, -⟩ := Option.ite_none_left_eq_some.1 h
  simp only [Bool.or_eq_true, not_or, bne_iff_ne, ne_eq, not_not] at hforms
  have hclose : EndsCall rest := .of_dropWhile (p := isBlank) ⟨[], hforms.2, List.not_mem_nil⟩ rfl
  have hnumber : EndsCall afterComma :=
    ((hclose.of_dropPrefix? hrest (by decide)).of_dropWhile (by decide)).of_dropWhile rfl
  have hname : EndsCall afterAt :=
    ((hnumber.of_dropPrefix? hcomma (by decide)).of_dropWhile rfl).of_dropWhile (by decide)
  exact ⟨inner, dropPrefix?_eq_some.1 hinner, (hname.of_dropPrefix? hat (by decide)).of_dropWhile rfl⟩

/-- A call that is read as a variable and a percentage is a call as it is found. -/
theorem isCall_of_themeFade? {call name percent : Text} (h : themeFade? call = some (name, percent)) :
    IsCall call := by
  obtain ⟨inner, rfl, arguments, rfl, -⟩ := endsCall_of_themeFade? h
  exact ⟨arguments, (List.append_assoc ..).symm⟩

/-- **The call fades the variable to the percentage,** and the text is what this makes of its color. -/
def Prints (d : Discovered) (call name : Text) (percent : Binary64) (text : Text) : Prop :=
  ∃ numeral color, themeFade? call = some (name, numeral) ∧ Decimal.numeral? numeral = some percent ∧
    d.get? name = some (some color) ∧ Color.faded color percent = .ok text

end Fade

namespace FadeMap

variable {f : FadeMap} {d : Discovered}

/-- **The text of a call is what its fade makes of a color,** and no full color. -/
theorem prints_of_literal? {call text : Text} (h : literal? d call = .ok (some text)) :
    beginsWith "rgba".toList text = true ∧ ∃ name percent, Fade.Prints d call name percent text := by
  unfold literal? at h
  split at h
  · simp at h
  · next name numeral hfade =>
    split at h
    · simp at h
    · simp at h
    · next color hcolor =>
      split at h
      · simp at h
      · split at h
        · simp at h
        · next percent hpercent =>
          obtain ⟨text', htext, h⟩ := Fallible.bind_eq_ok.1 h
          have h := Except.ok.inj h
          split at h
          · next hrgba =>
            obtain rfl := Option.some.inj h
            exact ⟨hrgba, name, percent, numeral, color, hfade, hpercent, hcolor, htext⟩
          · simp at h

/-- **What a call compiles to is a computed color.** -/
theorem isComputed_of_literal? {call text : Text} (h : literal? d call = .ok (some text)) :
    Fade.IsCall call ∧ Color.IsComputed text := by
  obtain ⟨hrgba, name, percent, numeral, color, hfade, -, -, htext⟩ := prints_of_literal? h
  exact ⟨Fade.isCall_of_themeFade? hfade, Color.isComputed_of_faded htext hrgba⟩

/-- **The computed texts are computed colors, each beside a call.** -/
theorem isComputed_of_derived {computed : Table Text} (h : f.derived d = .ok computed) :
    ∀ e ∈ computed.entries, Color.IsComputed e.1 ∧ Fade.IsCall e.2 := by
  refine Fallible.foldlM_induction (p := fun t : Table Text =>
    ∀ e ∈ t.entries, Color.IsComputed e.1 ∧ Fade.IsCall e.2) ?_
    (fun e he => absurd he List.not_mem_nil) h
  intro t call t' _ ht hstep
  obtain ⟨found, hfound, hstep⟩ := Fallible.bind_eq_ok.1 hstep
  split at hstep
  · next text =>
    obtain rfl := Except.ok.inj hstep
    unfold Table.insertNew
    split
    · exact ht
    · intro e he
      rcases Table.mem_putPair he with rfl | he
      · exact (isComputed_of_literal? hfound).symm
      · exact ht e he
  · exact Except.ok.inj hstep ▸ ht

end FadeMap
end ThemeSheet
