/-
# The color rules of a style sheet

`prune` keeps what a change of colors can touch: style rules with their color
declarations and their bare numbers, one declaration to a line.  At-rules, comments,
probe rules, addresses and rules left empty go.  A style sheet with a whole number of
too many digits is refused.
-/

import ThemeSheet.Css.Printer
import ThemeSheet.Css.Rule
import ThemeSheet.Fault
import ThemeSheet.Text.Numeral

namespace ThemeSheet
namespace Css

/-- Parts of the names of the properties that hold colors. -/
def colorProperties : List Text :=
  ["color".toList, "background".toList, "border".toList, "box-shadow".toList]

/-- How the selectors of the rules begin that only probe the palette. -/
def probeSelector : Text := ".main-color .palatte-".toList

/-- Does an address stand in the text, opened and closed on one line? -/
def hasUrl : Text → Bool
  | [] => false
  | c :: t =>
    (match Text.dropPrefix? "url(".toList (c :: t) with
      | some rest => (rest.takeWhile (· != '\n')).contains ')'
      | none => false) || hasUrl t

namespace Declaration

/-- Does the name of the property speak of a color? -/
def isColorProperty (d : Declaration) : Bool :=
  colorProperties.any fun part => Text.occursIn part (Text.asciiLower d.name)

/-- Is the value a single number without unit? -/
def isNumeric (d : Declaration) : Bool :=
  match d.value.filter fun n => !n.isSpace with
  | [.token (.number _)] => true
  | _ => false

/-- Color declarations and bare numbers are kept, unless an address stands in the value. -/
def isKept (d : Declaration) : Bool :=
  !hasUrl (Css.written d.value) && (d.isColorProperty || d.isNumeric)

/-- The declaration on a line of its own. -/
def line (d : Declaration) : Text :=
  ' ' :: ' ' :: d.name ++ ':' :: ' ' :: Text.strip (Css.written d.value) ++
    (if d.important then " !important".toList else []) ++ [';']

end Declaration

/-- A rule that is kept: its selector and its declarations. -/
structure KeptRule where
  selector : Text
  declarations : List Declaration

/-- What is kept of a rule. -/
def Rule.kept? : Rule → Option KeptRule
  | .atRule _ _ _ => none
  | .style selector content =>
    let selector := Text.strip (written selector)
    let kept := (declarations content).filter Declaration.isKept
    if Text.beginsWith probeSelector selector || kept.isEmpty then none else some ⟨selector, kept⟩

/-- The rule as text, without a final line end. -/
def KeptRule.written (r : KeptRule) : Text :=
  r.selector ++ " \x7b\n".toList ++ Text.join ['\n'] (r.declarations.map Declaration.line) ++ "\n\x7d".toList

/-- The color rules of a style sheet, each behind the other and closed by a line end. -/
def pruned (css : Text) : Text :=
  match (rules (Node.ofText css)).filterMap Rule.kept? with
  | [] => []
  | kept => Text.join ['\n'] (kept.map KeptRule.written) ++ ['\n']

/-- The digits of a whole number that has too many of them. -/
def overlong? (numeral : Text) : Option Text :=
  let digits := numeral.dropWhile fun c => c == '+' || c == '-'
  if digits.all Char.isDigit && longestNumeral < digits.length then some numeral else none

/-- The numeral of a token that writes a whole number with too many digits. -/
def Lexeme.overlong? : Lexeme → Option Text
  | .token (.number n) => Css.overlong? n
  | .token (.percentage n) => Css.overlong? n
  | .token (.dimension n _) => Css.overlong? n
  | _ => none

/-- The color rules of a style sheet that can be read. -/
def prune (css : Text) : Except Fault Text :=
  match (lexemes (normalise css)).findSome? Lexeme.overlong? with
  | some numeral => .error (.badNumeral numeral)
  | none => .ok (pruned css)

end Css
end ThemeSheet
