/-
# Reading a style sheet by its colors

Some colors of a compiled style sheet stand for something: for a call of the library
that was given a color of its own, for a call that the compiler has computed, or for
a variable.  A palette lists them in the order in which they are looked for.  A
single reading of the style sheet, from left to right, tells what stands where; it is
what the passes over the text are compared with.
-/

import ThemeSheet.Proofs.Color.Computed
import ThemeSheet.Proofs.Fade.Layout
import ThemeSheet.Proofs.Text.Boundary
import ThemeSheet.Theme.Restoration

namespace ThemeSheet
namespace Theme

open Text Unicode

/-- What a color of a compiled style sheet may stand for. -/
inductive StandIn where
  /-- A call that was given a color of its own. -/
  | drawn (call : Text)
  /-- A call that the compiler has computed. -/
  | computed (call : Text)
  /-- A variable or a shade. -/
  | discovered (name : Text)
deriving DecidableEq

namespace StandIn

/-- What is written in the place of the color. -/
def written : StandIn → Text
  | drawn call | computed call => call
  | discovered name => referenceTo name

/-- Is it a call? -/
def isCall : StandIn → Bool
  | discovered _ => false
  | _ => true

/-- Is it a call that the compiler has computed? -/
def isComputed : StandIn → Bool
  | computed _ => true
  | _ => false

/-- Is the text the color?  A computed text is compared letter by letter, other colors in any letter
case. -/
def isSame : StandIn → Text → Text → Bool
  | computed _, color, q => q == color
  | _, color, q => q.map foldCase == color.map foldCase

/-- What follows the color at the beginning of a text. -/
def rest? : StandIn → Text → Text → Option Text
  | computed _ => dropPrefix?
  | _ => dropPrefixAnyCase?

/-- What follows a color at the beginning is what stands behind one of its spellings. -/
theorem rest?_eq_some {s : StandIn} {color t r : Text} :
    s.rest? color t = some r ↔ ∃ q, s.isSame color q = true ∧ t = q ++ r := by
  cases s with
  | computed call => simp [rest?, isSame, dropPrefix?_eq_some]
  | drawn call => simp [rest?, isSame, dropPrefixAnyCase?_eq_some]
  | discovered name => simp [rest?, isSame, dropPrefixAnyCase?_eq_some]

/-- Writes what a color stands for in its place, everywhere. -/
def pass (t : Text) (e : StandIn × Text) : Text :=
  replaceMatches (fun u => (e.1.rest? e.2 u).map (e.1.written, ·)) t

/-- Does the color occur in the text? -/
def occurs (s : StandIn) (color : Text) : Text → Bool
  | [] => false
  | c :: t => (s.rest? color (c :: t)).isSome || occurs s color t

/-- A color that does not occur in a text is not spelled anywhere in it. -/
theorem isSame_of_occurs {s : StandIn} {color before q rest : Text} (hq : q ≠ [])
    (h : s.occurs color (before ++ q ++ rest) = false) : s.isSame color q = false := by
  induction before with
  | nil =>
    obtain ⟨c, q, rfl⟩ := List.exists_cons_of_ne_nil hq
    by_contra hs
    have hrest : s.rest? color (c :: q ++ rest) = some rest :=
      rest?_eq_some.2 ⟨c :: q, by simpa using hs, rfl⟩
    rw [List.nil_append, List.cons_append, occurs, ← List.cons_append, hrest] at h
    exact Bool.noConfusion h
  | cons c before ih =>
    rw [List.cons_append, List.cons_append, occurs, Bool.or_eq_false_iff] at h
    exact ih h.2

/-- A color that begins nowhere in a text occurs only behind it. -/
theorem occurs_append_of_none {s : StandIn} {color w t : Text}
    (h : ∀ front back, w = front ++ back → back ≠ [] → s.rest? color (back ++ t) = none) :
    s.occurs color (w ++ t) = s.occurs color t := by
  induction w with
  | nil => rfl
  | cons c w ih =>
    have hnone : s.rest? color (c :: (w ++ t)) = none := h [] (c :: w) rfl (by simp)
    rw [List.cons_append, occurs, hnone, Option.isSome_none, Bool.false_or]
    exact ih fun front back hw hb => h (c :: front) back (by rw [hw]; rfl) hb

/-- A color in digits is looked for in any letter case. -/
theorem occursAnyCase_of_occurs {s : StandIn} {color t : Text} (hs : s.isComputed = false)
    (hc : Color.isSixDigit color = true) (h : s.occurs color t = false) :
    occursAnyCase color t = false := by
  induction t with
  | nil =>
    obtain ⟨ds, rfl, -⟩ := Color.isSixDigit_iff.1 hc
    rfl
  | cons c t ih =>
    rw [occurs, Bool.or_eq_false_iff] at h
    rw [occursAnyCase, ih h.2, Bool.or_false, beginsAnyCase]
    cases s with
    | computed call => exact Bool.noConfusion hs
    | drawn call => exact h.1
    | discovered name => exact h.1

/-- The form of its color. -/
def HasColor (s : StandIn) (color : Text) : Prop :=
  if s.isComputed then Color.IsComputed color else Color.isSixDigit color = true

/-- The form of what is written. -/
def IsWritten (s : StandIn) : Prop := if s.isCall then Fade.IsCall s.written else Color.Inert s.written

variable {s : StandIn} {color q : Text}

/-- A spelling of a color has its form. -/
theorem HasColor.of_isSame (h : s.HasColor color) (hs : s.isSame color q = true) : s.HasColor q := by
  cases s with
  | computed call =>
    obtain rfl : q = color := by simpa [isSame] using hs
    exact h
  | drawn call => exact Color.isSixDigit_of_sameText h (by simpa [isSame] using hs)
  | discovered name => exact Color.isSixDigit_of_sameText h (by simpa [isSame] using hs)

/-- A form of the palette is a color's. -/
theorem HasColor.isColor (h : s.HasColor color) : Color.IsColor color := by
  unfold HasColor at h
  split at h
  · exact .inr h
  · exact .inl h

/-- **Nothing that is written begins with six digits.** -/
theorem IsWritten.exists_break (h : s.IsWritten) :
    ∃ front c back, s.written = front ++ c :: back ∧ front.length < 6 ∧ isHexDigit c = false := by
  unfold IsWritten at h
  split at h
  · obtain ⟨rest, hrest⟩ := Fade.IsCall.eq_cons h
    exact ⟨['f', 'a', 'd', 'e'], '(', rest, hrest, by decide, by decide⟩
  · obtain ⟨front, c, back, hw, hlen, hc⟩ := h.breaks
    exact ⟨front, c, back, hw, by omega, hc⟩

end StandIn

/-- **Colors and what they stand for,** in the order in which they are looked for. -/
abbrev Palette := List (StandIn × Text)

/-- A piece of a style sheet: a character, or a color that stands for something. -/
inductive Piece where
  | plain (c : Char)
  | standIn (s : StandIn)
deriving DecidableEq

/-- The text of the pieces, with what colors stand for in their place. -/
def writeOut (l : List Piece) : Text :=
  l.flatMap fun
    | .plain c => [c]
    | .standIn s => s.written

/-- Is every color apart from hexadecimal digits in front of it?  `behind` when a digit has come. -/
def isApart (behind : Bool) : List Piece → Bool
  | [] => true
  | .plain c :: l => isApart (isHexDigit c) l
  | .standIn _ :: l => !behind && isApart false l

namespace Palette

/-- The first color of the palette that begins a text, and what follows it. -/
def first? (p : Palette) (t : Text) : Option (StandIn × Text) :=
  p.findSome? fun e => (e.1.rest? e.2 t).map (e.1, ·)

/-- **What stands in a text,** read from left to right. -/
def read (p : Palette) : Text → List Piece
  | [] => []
  | c :: t =>
    match p.first? (c :: t) with
    | some (s, rest) => if rest.length ≤ t.length then .standIn s :: read p rest else .plain c :: read p t
    | none => .plain c :: read p t
termination_by t => t.length

/-- **A palette that is looked for without mistakes:** colors of the right forms, none of which occurs in
a call; no computed text comes behind a variable. -/
structure Sound (p : Palette) : Prop where
  color : ∀ e ∈ p, e.1.HasColor e.2
  written : ∀ e ∈ p, e.1.IsWritten
  absent : ∀ e ∈ p, ∀ e' ∈ p, e'.1.isCall = true → e.1.occurs e.2 e'.1.written = false
  order : p.Pairwise fun e e' => e'.1.isComputed = true → e.1.isCall = true

variable {p : Palette}

/-- The first color found begins the text in one of its spellings, and no color before it does. -/
theorem first?_eq_some {t rest : Text} {s : StandIn} (h : p.first? t = some (s, rest)) :
    ∃ before color after q, p = before ++ (s, color) :: after ∧ s.isSame color q = true ∧ t = q ++ rest ∧
      ∀ e ∈ before, e.1.rest? e.2 t = none := by
  obtain ⟨before, ⟨s', color⟩, after, rfl, he, hbefore⟩ := List.findSome?_eq_some_iff.1 h
  obtain ⟨r, hr, he⟩ := Option.map_eq_some_iff.1 he
  obtain ⟨rfl, rfl⟩ := Prod.mk.inj he
  obtain ⟨q, hq, ht⟩ := StandIn.rest?_eq_some.1 hr
  exact ⟨before, color, after, q, rfl, hq, ht, fun e hm => Option.map_eq_none_iff.1 (hbefore e hm)⟩

/-- No color is found exactly if none begins the text. -/
theorem first?_eq_none {t : Text} : p.first? t = none ↔ ∀ e ∈ p, e.1.rest? e.2 t = none := by
  simp [first?]

namespace Sound

/-- Every spelling of a color of the palette is a color. -/
theorem isColor (hp : p.Sound) {e : StandIn × Text} (he : e ∈ p) {q : Text}
    (hq : e.1.isSame e.2 q = true) : Color.IsColor q :=
  ((hp.color e he).of_isSame hq).isColor

/-- **Where a color stands,** the colors that begin the text are those it is equal to. -/
theorem rest?_append (hp : p.Sound) {e e' : StandIn × Text} (he : e ∈ p) (he' : e' ∈ p) {q : Text}
    (hq : e.1.isSame e.2 q = true) (t : Text) :
    e'.1.rest? e'.2 (q ++ t) = if e'.1.isSame e'.2 q = true then some t else none := by
  split
  · next hs => exact StandIn.rest?_eq_some.2 ⟨q, hs, rfl⟩
  · next hs =>
    by_contra hn
    obtain ⟨r, hr⟩ := Option.ne_none_iff_exists'.1 hn
    obtain ⟨q', hq', ht⟩ := StandIn.rest?_eq_some.1 hr
    obtain ⟨rfl, -⟩ := (hp.isColor he hq).append_inj (hp.isColor he' hq') ht
    exact hs hq'

/-- **No color begins behind the first character of a color.** -/
theorem rest?_of_not_isStart (hp : p.Sound) {e : StandIn × Text} (he : e ∈ p) {c : Char}
    (hc : Color.isStart c = false) (t : Text) : e.1.rest? e.2 (c :: t) = none := by
  by_contra hn
  obtain ⟨r, hr⟩ := Option.ne_none_iff_exists'.1 hn
  obtain ⟨q, hq, ht⟩ := StandIn.rest?_eq_some.1 hr
  obtain ⟨d, tail, rfl, hd, -⟩ := (hp.isColor he hq).eq_cons
  rw [(List.cons.inj ht).1, hd] at hc
  exact Bool.noConfusion hc

/-- **No color begins in what is written for another one,** whatever follows. -/
theorem rest?_written (hp : p.Sound) {e e' : StandIn × Text} (he : e ∈ p) (he' : e' ∈ p)
    (hcall : e.1.isComputed = true → e'.1.isCall = true) {front back : Text}
    (hw : e'.1.written = front ++ back) (hb : back ≠ []) (t : Text) :
    e.1.rest? e.2 (back ++ t) = none := by
  by_contra hn
  obtain ⟨r, hr⟩ := Option.ne_none_iff_exists'.1 hn
  obtain ⟨q, hq, ht⟩ := StandIn.rest?_eq_some.1 hr
  have hcolor := hp.isColor he hq
  have hform := hp.written e' he'
  unfold StandIn.IsWritten at hform
  split at hform
  · next hk =>
    -- a call ends with a bracket, and a color does not go on behind one
    obtain ⟨b, rfl⟩ := Fade.IsCall.end_eq_append hform hw hb
    obtain ⟨v, hv⟩ := hcolor.prefix_of_bracket ht
    have habsent := hp.absent e he e' he' hk
    rw [hw, hv, ← List.append_assoc] at habsent
    obtain ⟨c, tail, rfl, -⟩ := hcolor.eq_cons
    rw [StandIn.isSame_of_occurs (List.cons_ne_nil c tail) habsent] at hq
    exact Bool.noConfusion hq
  · next hk =>
    -- a color in digits begins with a number sign
    have hsix := (hp.color e he).of_isSame hq
    rw [StandIn.HasColor, if_neg fun hc => hk (hcall hc)] at hsix
    obtain ⟨ds, rfl, -⟩ := Color.isSixDigit_iff.1 hsix
    obtain ⟨x, back, rfl⟩ := List.exists_cons_of_ne_nil hb
    refine hform.no_hash ?_
    rw [hw, (List.cons.inj ht).1]
    simp

end Sound

end Palette
end Theme
end ThemeSheet
