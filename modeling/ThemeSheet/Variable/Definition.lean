/-
# Definitions of variables

A line of a variables file defines a variable when it begins, blanks aside, with
`@`, a name, a colon and a value that ends with a semicolon.  Quotes in the name do
not count; what follows the semicolon is left out.
-/

import ThemeSheet.Text.Blank
import ThemeSheet.Text.Word

namespace ThemeSheet
namespace Variable

/-- A variable, named with its `@`, and its value as it is written. -/
structure Definition where
  name : Text
  value : Text
deriving DecidableEq, Repr

/-- A character of a name as it is written, quotes included. -/
def isWrittenNameChar (c : Char) : Bool := isNameChar c || isQuote c

/-- The value behind a colon: all up to the first semicolon, blanks at both ends aside. -/
def valueOf? (t : Text) : Option Text :=
  if t.contains ';' then some (Text.strip (t.takeWhile (· != ';'))) else none

/-- The definition that a line holds. -/
def Definition.ofLine? (line : Text) : Option Definition :=
  match Text.stripLeft line with
  | '@' :: t =>
    let name := t.takeWhile isWrittenNameChar
    match Text.stripLeft (t.dropWhile isWrittenNameChar) with
    | ':' :: rest =>
      if name.isEmpty then none
      else (valueOf? rest).map fun value => ⟨'@' :: name.filter (!isQuote ·), value⟩
    | _ => none
  | _ => none

/-- The definitions of a text, line by line. -/
def definitions (content : Text) : List Definition := (Text.lines content).filterMap Definition.ofLine?

end Variable
end ThemeSheet
