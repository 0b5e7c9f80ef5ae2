/-
# Fades of theme colors

The compiler cannot fade a color that it does not know.  Every call of the fade
function gives way to a color of its own before compiling and is put back
afterwards.  Where a style file had the color computed, the computed text gives way
to the call.
-/

import ThemeSheet.Color.Draw
import ThemeSheet.Color.Fade
import ThemeSheet.Table
import ThemeSheet.Text.Replace
import ThemeSheet.Text.Word

namespace ThemeSheet

/-- Names that were asked for and the colors found for them; a name may be listed without one. -/
abbrev Discovered := Table (Option Text)

/-- Every name with its color. -/
def Discovered.ofColors (colors : Table Text) : Discovered :=
  .ofList (colors.entries.map fun (name, color) => (name, some color))

namespace Fade

/-- How a call of the fade function begins. -/
def opening : Text := "fade(".toList

/-- A round bracket. -/
def isRound (c : Char) : Bool := c == '(' || c == ')'

/-- The arguments of a call up to and including the closing bracket, and the rest; brackets may
stand inside, but none inside these. -/
def arguments? : Text → Option (Text × Text)
  | [] => none
  | c :: t =>
    if c = ')' then some ([c], t)
    else if c = '(' then
      match t.dropWhile (!isRound ·) with
      | d :: rest =>
        if d = ')' ∧ rest.length ≤ t.length then
          (arguments? rest).map fun (more, after) => (c :: t.takeWhile (!isRound ·) ++ d :: more, after)
        else none
      | [] => none
    else (arguments? t).map fun (more, after) => (c :: more, after)
termination_by t => t.length
decreasing_by all_goals (simp at *; try omega)

/-- The call at the beginning of a text, and the rest. -/
def call? (t : Text) : Option (Text × Text) := do
  let inner ← Text.dropPrefix? opening t
  let (arguments, rest) ← arguments? inner
  pure (opening ++ arguments, rest)

/-- The calls in a text, from left to right. -/
def calls (t : Text) : List Text := Text.allMatches call? t

/-- How the calls begin that the compiler can evaluate. -/
def staticOpenings : List Text :=
  ["fade(@black".toList, "fade(@white".toList, "fade(#".toList, "fade(@color".toList]

/-- Can the compiler evaluate the call? -/
def isStatic (call : Text) : Bool := staticOpenings.any (Text.beginsWith · call)

/-- The variable and the percentage of a call that fades a variable. -/
def themeFade? (call : Text) : Option (Text × Text) := do
  let inner ← Text.dropPrefix? opening call
  let afterAt ← Text.dropPrefix? ['@'] (inner.dropWhile isBlank)
  let name := afterAt.takeWhile isNameChar
  let afterComma ← Text.dropPrefix? [','] ((afterAt.dropWhile isNameChar).dropWhile isBlank)
  let number := afterComma.dropWhile isBlank
  let isPercentChar c := Unicode.isDigit c || c == '.'
  let percent := number.takeWhile isPercentChar
  let rest ← Text.dropPrefix? ['%'] (number.dropWhile isPercentChar)
  if name.isEmpty || percent.isEmpty || rest.dropWhile isBlank != [')'] then none
  else some ('@' :: name, percent)

end Fade

/-- The calls seen so far and the colors that stand for some of them. -/
structure FadeMap where
  draws : Color.Draws
  /-- Colors that no call may be given. -/
  reserved : List Text
  /-- The color that stands for a call. -/
  sentinels : Table Text
  /-- Every call that was seen, in the order of the first time. -/
  calls : List Text

namespace FadeMap

/-- No call has been seen. -/
def start (d : Color.Draws) (reserved : List Text) : FadeMap := ⟨d, reserved, .empty, []⟩

/-- Remembers a call. -/
def see (f : FadeMap) (call : Text) : FadeMap :=
  if f.calls.contains call then f else { f with calls := f.calls ++ [call] }

/-- Remembers the calls of a source. -/
def observe (f : FadeMap) (source : Text) : FadeMap := (Fade.calls source).foldl see f

/-- Gives a call a color unless the compiler can evaluate it or it has one. -/
def give (f : FadeMap) (call : Text) : Except Fault FadeMap :=
  if Fade.isStatic call || f.sentinels.contains call then .ok f
  else
    match Color.drawUnique (f.reserved ++ f.sentinels.values) f.draws with
    | some (color, rest) => .ok { f with draws := rest, sentinels := f.sentinels.insert call color }
    | none => .error .colorsExhausted

/-- Remembers the calls of a source and gives them colors. -/
def collect (f : FadeMap) (source : Text) : Except Fault FadeMap :=
  (Fade.calls source).foldlM give (f.observe source)

/-- The calls that have a color, longer ones first. -/
def longestFirst (f : FadeMap) : List (Text × Text) :=
  f.sentinels.entries.mergeSort fun a b => b.1.length ≤ a.1.length

/-- Puts the colors in the place of the calls. -/
def substitute (f : FadeMap) (source : Text) : Text :=
  f.longestFirst.foldl (fun t (call, color) => Text.replaceAll call color t) source

/-- The text that a call which fades a discovered color compiles to; none for other calls. -/
def literal? (discovered : Discovered) (call : Text) : Except Fault (Option Text) :=
  match Fade.themeFade? call with
  | none => .ok none
  | some (name, percent) =>
    match discovered.get? name with
    | none => .ok none
    | some none => .error (.noColor name)
    | some (some color) =>
      if !Text.beginsWith ['#'] color then .ok none
      else
        match Decimal.numeral? percent with
        | none => .error (.badNumeral percent)
        | some p => do
          let text ← Color.faded color p
          pure (if Text.beginsWith "rgba".toList text then some text else none)

/-- The computed texts of the calls that were seen, each with the first call that gives it. -/
def derived (f : FadeMap) (discovered : Discovered) : Except Fault (Table Text) :=
  f.calls.foldlM (fun t call => do
    match ← literal? discovered call with
    | some text => pure (t.insertNew text call)
    | none => pure t) .empty

/-- Puts the calls back: for the colors that stand for them, in any letter case, and for their
computed texts. -/
def restore (f : FadeMap) (css : Text) (discovered : Discovered) : Except Fault Text := do
  let plain := f.sentinels.entries.foldl (fun t (call, color) => Text.replaceAnyCase color call t) css
  let computed ← f.derived discovered
  pure (computed.entries.foldl (fun t (text, call) => Text.replaceAll text call t) plain)

end FadeMap
end ThemeSheet
