/-
# Texts laid out as characters and colors

A text in which colors stand for calls is laid out in cells: plain characters, and
marks, each a color that stands for a call.  When a call is found that begins inside
a color already put in, the color loses the letters that the call takes, so a mark
keeps a first part of its color and may have lost the rest to the mark behind it.

From one layout come all texts of a round trip: the source with its calls
(`original`), the text with colors (`colored`), and the texts on the way back
(`restored`), where the calls with a rank below a bound have been put back.
-/

import ThemeSheet.Proofs.Fade.Calls

namespace ThemeSheet
namespace Fade

open Text Unicode

/-- A cell of a layout. -/
inductive Cell where
  | plain (c : Char)
  /-- The color `kept ++ lost` stands for the call; only `kept` is left of it. -/
  | mark (call kept lost : Text)

/-- The call that the first cell stands for. -/
def headCall? : List Cell → Option Text
  | .mark call _ _ :: _ => some call
  | _ => none

/-- The text with every call in its place. -/
def original : List Cell → Text
  | [] => []
  | .plain c :: l => c :: original l
  | .mark call _ lost :: l => call ++ (original l).drop lost.length

/-- The text with what is left of the colors. -/
def colored : List Cell → Text
  | [] => []
  | .plain c :: l => c :: colored l
  | .mark _ kept _ :: l => kept ++ colored l

/-- Are the letters that the first color has lost, and those that the colors behind have lost in
turn, put back before it, by the order of ranks? -/
def isSettled (rank : Text → Nat) : List Cell → Bool
  | .mark call _ lost :: l => lost.isEmpty || (headCall? l).any (rank · < rank call) && isSettled rank l
  | _ => true

/-- The text when the calls of rank below `k` have been looked for: a color gives way to its call
if it is whole at its turn. -/
def restored (rank : Text → Nat) (k : Nat) : List Cell → Text
  | [] => []
  | .plain c :: l => c :: restored rank k l
  | .mark call kept lost :: l =>
    if rank call < k ∧ isSettled rank (.mark call kept lost :: l) = true then
      call ++ (restored rank k l).drop lost.length
    else kept ++ restored rank k l

/-- Has every color lost letters only to colors of a lower rank? -/
def Descending (rank : Text → Nat) : List Cell → Prop
  | [] => True
  | .plain _ :: l => Descending rank l
  | .mark call _ lost :: l =>
    (lost = [] ∨ ∃ call', headCall? l = some call' ∧ rank call' < rank call) ∧ Descending rank l

/-- **A layout for colors that stand for calls:** every mark is one of them, and what it has lost begins
the call of the mark behind it. -/
def WellLaid (pairs : List (Text × Text)) : List Cell → Prop
  | [] => True
  | .plain _ :: l => WellLaid pairs l
  | .mark call kept lost :: l =>
    (call, kept ++ lost) ∈ pairs ∧
      (lost = [] ∨ ∃ call' rest, headCall? l = some call' ∧ call' = lost ++ rest) ∧ WellLaid pairs l

/-- **Colors that stand for calls:** drawn colors, different ones for different calls, none of which
occurs in a call. -/
structure Standing (pairs : List (Text × Text)) : Prop where
  call : ∀ e ∈ pairs, IsCall e.1
  color : ∀ e ∈ pairs, Color.Drawn e.2
  distinct : (pairs.map Prod.snd).Nodup
  absent : ∀ e ∈ pairs, ∀ e' ∈ pairs, occursAnyCase e.2 e'.1 = false

/-! ### Digits and brackets -/

/-- Digits at the beginning end before the first character that is none. -/
theorem digits_before {q r a b : Text} {c : Char} (hq : ∀ d ∈ q, isHexDigit d = true)
    (hc : isHexDigit c = false) (h : q ++ r = a ++ c :: b) : ∃ u, a = q ++ u ∧ r = u ++ c :: b := by
  rcases List.append_eq_append_iff.1 h with ⟨u, ha, hr⟩ | ⟨u, hqa, hb⟩
  · exact ⟨u, ha, hr⟩
  · cases u with
    | nil => exact ⟨[], by simpa using hqa.symm, by simpa using hb.symm⟩
    | cons d u =>
      have hd : c = d := (List.cons.inj hb).1
      have := hq d (by rw [hqa]; simp)
      rw [← hd, hc] at this
      exact Bool.noConfusion this

/-- No hash stands among the digits of a color. -/
theorem hash_notMem {q : Text} (hq : ∀ d ∈ q, isHexDigit d = true) : '#' ∉ q :=
  fun h => absurd (hq _ h) (by decide)

/-- A call begins with the letters of `fade`, which are digits, and a bracket, which is none. -/
theorem IsCall.eq_cons {call : Text} (h : IsCall call) :
    ∃ rest, call = ['f', 'a', 'd', 'e'] ++ '(' :: rest := by
  obtain ⟨inner, rfl⟩ := h
  exact ⟨inner ++ [')'], by simp [opening]⟩

/-- **A color that begins in front of a bracket ends in front of it.** -/
theorem begins_of_begins_append {color w x : Text} (hc : Color.isSixDigit color = true)
    (h : beginsAnyCase color (w ++ ')' :: x) = true) : beginsAnyCase color (w ++ [')']) = true := by
  obtain ⟨q, r, hq, he⟩ := beginsAnyCase_iff.1 h
  obtain ⟨ds, rfl, -, hds⟩ := Color.isSixDigit_iff.1 (Color.isSixDigit_of_sameText hc hq)
  cases w with
  | nil => exact absurd (List.cons.inj he).1 (by decide)
  | cons c w =>
    obtain ⟨rfl, he'⟩ := List.cons.inj he
    obtain ⟨u, hw, -⟩ := digits_before hds (by decide) he'.symm
    exact beginsAnyCase_iff.2 ⟨'#' :: ds, u ++ [')'], hq, by rw [hw]; simp⟩

/-- A color that does not occur neither begins the text nor occurs behind its first character. -/
theorem occursAnyCase_cons {color t : Text} {c : Char} (h : occursAnyCase color (c :: t) = false) :
    beginsAnyCase color (c :: t) = false ∧ occursAnyCase color t = false :=
  Bool.or_eq_false_iff.1 h

/-- A color that does not occur in a text does not occur in its end. -/
theorem occursAnyCase_of_append {color p t : Text} (h : occursAnyCase color (p ++ t) = false) :
    occursAnyCase color t = false := by
  induction p with
  | nil => exact h
  | cons c p ih => exact ih (occursAnyCase_cons h).2

/-- A text that ends with a bracket and holds no color is left alone. -/
theorem replaceAnyCase_skip {color w : Text} (new x : Text) (hc : Color.isSixDigit color = true)
    (hw : ∃ front, w = front ++ [')']) (ho : occursAnyCase color w = false) :
    replaceAnyCase color new (w ++ x) = w ++ replaceAnyCase color new x := by
  obtain ⟨front, rfl⟩ := hw
  induction front with
  | nil => exact replaceAnyCase_cons (Color.beginsAnyCase_color_cons hc (by decide))
  | cons c front ih =>
    obtain ⟨hb, ht⟩ := occursAnyCase_cons ho
    have hnone : beginsAnyCase color (c :: front ++ [')'] ++ x) = false := by
      by_contra hn
      refine Bool.noConfusion (hb.symm.trans (begins_of_begins_append (w := c :: front) (x := x) hc ?_))
      simpa using hn
    rw [List.cons_append, List.cons_append] at hnone ⊢
    rw [replaceAnyCase_cons hnone, ih ht]
    rfl

/-- Text without a number sign is left alone. -/
theorem replaceAnyCase_skip_digits {color q : Text} (new t : Text) (hc : Color.isSixDigit color = true)
    (hq : ∀ d ∈ q, isHexDigit d = true) :
    replaceAnyCase color new (q ++ t) = q ++ replaceAnyCase color new t := by
  rw [replaceAnyCase_eq, replaceAnyCase_eq]
  refine replaceMatches_skip fun d hd u => firstOf_eq_none.2 fun p hm => ?_
  rw [List.mem_singleton.1 hm]
  exact Color.beginsAnyCase_color_cons hc (ne_of_mem_of_not_mem hd (hash_notMem hq))

/-- A color at the beginning of a text gives way. -/
theorem replaceAnyCase_whole {color : Text} (new t : Text) (h : color ≠ []) :
    replaceAnyCase color new (color ++ t) = new ++ replaceAnyCase color new t :=
  replaceMatches_of_some h (by rw [dropPrefixAnyCase?_eq_some.2 ⟨color, rfl, rfl⟩]; rfl)

end Fade
end ThemeSheet
