/-
# The short layout of a style sheet

`minify` removes comments and blank lines and joins a rule on one line.  Each pass
looks at a mark and the line break behind it; what stands inside the lines stays.
-/

import ThemeSheet.Css.Comment
import ThemeSheet.Text.Blank

namespace ThemeSheet
namespace Css

/-- The text without its comments; quoted strings are kept whole. -/
def withoutComments (t : Text) : Text := (pieces false t).flatMap Piece.kept

/-- The lines without the blank ones; the last line stays, whatever it holds. -/
def dropBlank : List Text → List Text
  | [] => []
  | [line] => [line]
  | line :: next :: ls => if Text.allBlank line then dropBlank (next :: ls) else line :: dropBlank (next :: ls)

/-- The text without the lines that hold blanks only. -/
def withoutBlankLines (t : Text) : Text := Text.join ['\n'] (dropBlank (Text.lines t))

/-- What follows the line end at the beginning: a line feed, a carriage return or both. -/
def lineEnd? : Text → Option Text
  | '\r' :: '\n' :: t => some t
  | '\r' :: t => some t
  | '\n' :: t => some t
  | _ => none

/-- Behind `mark`, a line end and the blanks after it go, at least two characters in all. -/
def joinBehind (mark : Char) (t : Text) : Text :=
  Text.replaceMatches (fun s =>
    match s with
    | c :: rest =>
      let run := rest.takeWhile isBlank
      if c = mark ∧ (lineEnd? run).isSome ∧ 2 ≤ run.length then some ([mark], rest.dropWhile isBlank) else none
    | [] => none) t

/-- A line end between the marks `a` and `b` gives way to `between`. -/
def joinBetween (a b : Char) (between : Text) (t : Text) : Text :=
  Text.replaceMatches (fun s =>
    match s with
    | c :: rest =>
      if c = a then
        match lineEnd? rest with
        | some (d :: after) => if d = b then some (a :: between ++ [b], after) else none
        | _ => none
      else none
    | [] => none) t

/-- The short layout: no comments, no blank lines, the declarations of a rule on one line, and
a list of class selectors on one line. -/
def minify (t : Text) : Text :=
  joinBetween ',' '.' [' '] <|
  joinBehind ';' <|
  joinBetween ';' '\x7d' [] <|
  joinBehind '\x7b' <|
  withoutBlankLines <|
  withoutComments t

end Css
end ThemeSheet
