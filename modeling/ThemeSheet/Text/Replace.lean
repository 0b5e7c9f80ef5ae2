/-
# Replacing

One pass over a text from left to right.  Where a matcher applies, the matched part
gives way to a new text and the search goes on behind it; every other character
stays.  Text that was put in is never searched again in the same pass.
-/

import ThemeSheet.Text.Basic
import ThemeSheet.Unicode.CaseFold

namespace ThemeSheet
namespace Text

/-- Looks at the beginning of a text; where it applies, it gives the text to put in
and what follows the matched part. -/
abbrev Matcher := Text → Option (Text × Text)

/-- Replaces the leftmost match, then the leftmost one behind it, and so on. -/
def replaceMatches (m : Matcher) : Text → Text
  | [] => []
  | c :: t =>
    match m (c :: t) with
    | some (new, rest) =>
      if rest.length ≤ t.length then new ++ replaceMatches m rest else c :: replaceMatches m t
    | none => c :: replaceMatches m t
termination_by t => t.length

/-- Replaces as `replaceMatches` does what may fail to be replaced; the first fault ends the work. -/
def replaceFallibly {ε : Type} (m : Text → Option (Except ε Text × Text)) : Text → Except ε Text
  | [] => .ok []
  | c :: t =>
    match m (c :: t) with
    | some (new, rest) =>
      if rest.length ≤ t.length then do pure ((← new) ++ (← replaceFallibly m rest))
      else (replaceFallibly m t).map (c :: ·)
    | none => (replaceFallibly m t).map (c :: ·)
termination_by t => t.length

/-- All matches from left to right, none overlapping an earlier one. -/
def allMatches {α : Type} (m : Text → Option (α × Text)) : Text → List α
  | [] => []
  | c :: t =>
    match m (c :: t) with
    | some (found, rest) =>
      if rest.length ≤ t.length then found :: allMatches m rest else allMatches m t
    | none => allMatches m t
termination_by t => t.length

/-- Every occurrence of `needle` gives way to `new`. -/
def replaceAll (needle new : Text) (t : Text) : Text :=
  replaceMatches (fun s => (dropPrefix? needle s).map (new, ·)) t

/-- What follows `p` in a text that begins with `p`, upper and lower case alike. -/
def dropPrefixAnyCase? : Text → Text → Option Text
  | [], t => some t
  | _ :: _, [] => none
  | p :: ps, c :: t => if Unicode.sameLetter p c then dropPrefixAnyCase? ps t else none

/-- Every occurrence of `needle`, in any letter case, gives way to `new`. -/
def replaceAnyCase (needle new : Text) (t : Text) : Text :=
  replaceMatches (fun s => (dropPrefixAnyCase? needle s).map (new, ·)) t

end Text
end ThemeSheet
