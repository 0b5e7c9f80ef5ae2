/-
# Blanks

The characters that count as white space in Less sources and in the theme: the
ASCII controls from tabulator to carriage return, the four separators before the
space, the space itself, and the Unicode spaces and line ends.
-/

import ThemeSheet.Text.Basic

namespace ThemeSheet

/-- White space, Unicode included. -/
def isBlank (c : Char) : Bool :=
  let n := c.toNat
  (9 ≤ n && n ≤ 13) || (28 ≤ n && n ≤ 32) || n == 0x85 || n == 0xA0 || n == 0x1680 ||
    (0x2000 ≤ n && n ≤ 0x200A) || n == 0x2028 || n == 0x2029 || n == 0x202F || n == 0x205F || n == 0x3000

/-- White space that may stand around a numeral: every blank but the four separators before the
space. -/
def isNumeralMargin (c : Char) : Bool := isBlank c && !(28 ≤ c.toNat && c.toNat ≤ 31)

namespace Text

/-- The text without the blanks at its two ends. -/
def strip (t : Text) : Text := trim isBlank t

/-- The text without the blanks at its beginning. -/
def stripLeft (t : Text) : Text := t.dropWhile isBlank

/-- Is the text a run of blanks, possibly empty? -/
def allBlank (t : Text) : Bool := t.all isBlank

end Text

end ThemeSheet
