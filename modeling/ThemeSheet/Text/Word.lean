/-
# Words and names

A word character is a letter or a number of any script, or the underscore; the
names of Less variables and of classes also hold hyphens.
-/

import ThemeSheet.Text.Basic
import ThemeSheet.Unicode.Alphanumeric

namespace ThemeSheet

/-- A letter, a number or the underscore. -/
def isWordChar (c : Char) : Bool := Unicode.isAlphanumeric c || c == '_'

/-- A word character or a hyphen. -/
def isNameChar (c : Char) : Bool := isWordChar c || c == '-'

/-- Either kind of quote. -/
def isQuote (c : Char) : Bool := c == '"' || c == '\''

/-- A quote is a double or a single one. -/
theorem isQuote_iff {c : Char} : isQuote c = true ↔ c = '"' ∨ c = '\'' := by
  rw [isQuote, Bool.or_eq_true, beq_iff_eq, beq_iff_eq]

/-- Does a name end here, that is, does no name character follow? -/
def Text.nameEnds : Text → Bool
  | [] => true
  | c :: _ => !isNameChar c

end ThemeSheet
