/-
# Characters of style sheets

The classes of characters that the tokens of a style sheet are made of.  Beyond
ASCII every character may stand in a name.
-/

import ThemeSheet.Text.Basic
import ThemeSheet.Text.Numeral

namespace ThemeSheet
namespace Css

/-- The three characters that separate tokens. -/
def isSpace (c : Char) : Bool := c == ' ' || c == '\n' || c == '\t'

/-- A character that may begin a name. -/
def isNameStart (c : Char) : Bool := c.isAlpha || c == '_' || 0x80 ≤ c.toNat

/-- A character of a name: one that may begin it, a digit or a hyphen. -/
def isNamePart (c : Char) : Bool := isNameStart c || c.isDigit || c == '-'

/-- The control characters that no bare address may hold. -/
def isUnprintable (c : Char) : Bool :=
  let n := c.toNat
  (1 ≤ n && n ≤ 8) || n == 0x0B || (0x0E ≤ n && n ≤ 0x1F) || n == 0x7F

/-- What stands for a character that cannot be shown. -/
def replacementChar : Char := '\uFFFD'

/-- Does a valid escape begin here?  A backslash begins one unless a line end follows. -/
def startsEscape : Text → Bool
  | '\\' :: '\n' :: _ => false
  | '\\' :: _ => true
  | _ => false

/-- Does an identifier begin here? -/
def startsIdent : Text → Bool
  | '-' :: c :: t => isNameStart c || c == '-' || startsEscape (c :: t)
  | c :: t => isNameStart c || startsEscape (c :: t)
  | [] => false

/-- Line ends become line feeds, and the null character the replacement character. -/
def normalise : Text → Text
  | [] => []
  | '\r' :: '\n' :: t => '\n' :: normalise t
  | c :: t =>
    (if c = '\r' ∨ c = '\x0c' then '\n' else if c = '\x00' then replacementChar else c) :: normalise t

end Css
end ThemeSheet
