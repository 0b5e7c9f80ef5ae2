/-
# Quoted values

How a value is shown in a message: between quotes, with a backslash before what
could be misread and in the stead of what cannot be seen.
-/

import ThemeSheet.Text.Numeral
import ThemeSheet.Unicode.Printable

namespace ThemeSheet
namespace Text

/-- The number of a character in the shortest of three forms: two, four or eight hexadecimal
digits. -/
def codeEscape (n : Nat) : Text :=
  if n < 0x100 then ['\\', 'x'] ++ hexDigits 2 n
  else if n < 0x10000 then ['\\', 'u'] ++ hexDigits 4 n
  else ['\\', 'U'] ++ hexDigits 8 n

/-- A character inside a quoted value. -/
def quotedChar (quote c : Char) : Text :=
  if c = '\\' ∨ c = quote then ['\\', c]
  else if c = '\n' then ['\\', 'n']
  else if c = '\r' then ['\\', 'r']
  else if c = '\t' then ['\\', 't']
  else if Unicode.isPrintable c then [c]
  else codeEscape c.toNat

/-- The value in quotes: single ones unless it holds these and no double ones. -/
def quoted (t : Text) : Text :=
  let quote := if t.contains '\'' && !t.contains '"' then '"' else '\''
  quote :: t.flatMap (quotedChar quote) ++ [quote]

end Text
end ThemeSheet
