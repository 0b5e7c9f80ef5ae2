/-
# An evaluator of flat style sheets

The part of Less that a theme is made of: imports, definitions of variables, flat
rules, fades of hexadecimal colors and shades of the palette.  The result is laid
out as the Less compiler does it.  A shade is a plain mix towards white below the
sixth and towards black above it.
-/

import ThemeSheet.Color.Fade
import ThemeSheet.Css.Comment
import ThemeSheet.Less.Compiler
import ThemeSheet.Less.Import
import ThemeSheet.Table
import ThemeSheet.Variable.Shade

namespace ThemeSheet
namespace Less
namespace Evaluator

/-! ### Shades and fades -/

/-- The number of steps, which must be finite. -/
def stepCount (steps : Nat) : Except Fault Binary64 :=
  match Binary64.ofInt steps with
  | .infinite _ => .error (.tooLarge (decimalDigits steps))
  | x => .ok x

/-- How far a shade lies from the color itself, `steps` numbers away. -/
def mixShare (steps : Nat) : Except Fault Binary64 := (stepCount steps).map (·.mul (.ofDecimal false 15 (-2)))

/-- The channel nearest to a mixed value, which must be finite. -/
def nearestChannel (number : Nat) : Binary64 → Except Fault Int
  | .infinite _ => .error (.tooLarge (decimalDigits number))
  | x => .ok x.round

/-- A channel of the shade with the given number. -/
def shadeChannel (number : Nat) (c : Int) : Except Fault Int := do
  let channel := Binary64.ofInt c
  if number < 6 then
    nearestChannel number (channel.add ((Binary64.ofInt (255 - c)).mul (← mixShare (6 - number))))
  else if 6 < number then
    nearestChannel number (channel.mul ((Binary64.ofInt 1).sub (← mixShare (number - 6))))
  else pure c

/-- The shade of a color with the given number. -/
def shade (color : Color.Rgb) (number : Nat) : Except Fault Text := do
  let channel := shadeChannel number
  pure (Color.Rgb.hex ⟨← channel color.red, ← channel color.green, ← channel color.blue⟩)

/-- The value of a hexadecimal digit, or of a decimal digit of any script. -/
def digitValue? (c : Char) : Option Nat := (hexValue? c).or (Unicode.digitValue? c)

/-- Reads a channel of at most two characters: digits with a sign or margins around them. -/
def channel? (t : Text) : Option Int :=
  let number (ds : Text) : Option Int :=
    if ds.isEmpty then none else (ds.mapM digitValue?).map fun vs => (vs.foldl (16 * · + ·) 0 : Nat)
  match Text.trim isNumeralMargin t with
  | '-' :: ds => (number ds).map (- ·)
  | '+' :: ds => number ds
  | ds => number ds

/-- The one character that is two in lower case. -/
def wideCapital : Char := 'İ'

/-- The three channels behind the first character of a text in lower case. -/
def channels? (t : Text) : Option Color.Rgb := do
  guard (t.head? ≠ some wideCapital)
  let r ← channel? ((t.drop 1).take 2)
  let g ← channel? ((t.drop 3).take 2)
  let b ← channel? ((t.drop 5).take 2)
  pure ⟨r, g, b⟩

/-! ### Imports -/

/-- The import statement at the beginning of a text: its path, which holds no quotes, and the rest. -/
def statement? (t : Text) : Option (Text × Text) :=
  match Text.dropPrefix? importWord t with
  | none => none
  | some rest =>
    match rest.head?.any isBlank, rest.dropWhile isBlank with
    | true, q :: inner =>
      let path := inner.takeWhile (!isQuote ·)
      match isQuote q && !path.isEmpty, inner.dropWhile (!isQuote ·) with
      | true, _ :: ';' :: after => some (path, after)
      | _, _ => none
    | _, _ => none

/-- A piece of a text with imports. -/
inductive Part where
  | char (c : Char)
  | importOf (path : Text)

/-- Cuts a text into its import statements and the characters between them. -/
def parts : Text → List Part
  | [] => []
  | c :: t =>
    match statement? (c :: t) with
    | some (path, rest) => if rest.length ≤ t.length then .importOf path :: parts rest else .char c :: parts t
    | none => .char c :: parts t
termination_by t => t.length

/-- How deep imports may be nested: each nested file takes three of a thousand nested calls, and some are
open already. -/
def importDepth : Nat := 320

/-- Puts the text of imported files in the place of import statements.  A file is looked up in
each of the directories `search`, and its own imports first in its own directory. -/
def inline (tree : FileTree) (source : Text) : Nat → List Path → Text → Except Fault Text
  | 0, _, _ => .error (.importsTooDeep source)
  | depth + 1, search, t => do
    let texts ← (parts t).mapM fun part =>
      match part with
      | .char c => pure [c]
      | .importOf path => do
        let target := Text.withSuffix suffix path
        let places := if (Path.ofText target).isAbsolute then [Path.ofText target] else search.map (·.child target)
        match ← places.findM? tree.contains with
        | some place => inline tree source depth (place.parent :: search) (← tree.read place)
        | none => throw (.refused source ('\'' :: target ++ "' wasn't found".toList))
    pure texts.flatten

/-! ### Definitions -/

/-- Removes comments that take whole lines, with the blanks before them; `lineStart` when a line
begins here. -/
def dropLineComments (lineStart : Bool) : Text → Text
  | [] => []
  | c :: t =>
    match if lineStart then Text.dropPrefix? "//".toList ((c :: t).dropWhile isBlank) else none with
    | some rest =>
      if rest.length ≤ t.length then dropLineComments false (rest.dropWhile (· != '\n'))
      else c :: dropLineComments (c = '\n') t
    | none => c :: dropLineComments (c = '\n') t
termination_by t => t.length
decreasing_by
  · have := (List.dropWhile_sublist (· != '\n') (l := rest)).length_le; simp; omega
  · simp
  · simp

/-- The end of a definition: a semicolon with only blanks behind it on its line.  The blanks up to
the last line end among them belong to it; what follows is given with whether a line begins there. -/
def endOfDefinition? : Text → Option (Bool × Text)
  | ';' :: t =>
    let run := t.takeWhile isBlank
    match t.dropWhile isBlank with
    | [] => some (false, [])
    | rest =>
      (Text.lastCut? (Text.dropPrefix? ['\n']) run).map fun (before, after) =>
        (before.getLast? = some '\n', '\n' :: after ++ rest)
  | _ => none

/-- The text of a value, up to the first semicolon that ends the definition on the same line, and
what follows the definition. -/
def definedValue? : Text → Option (Text × Bool × Text)
  | [] => none
  | c :: t =>
    match endOfDefinition? (c :: t) with
    | some after => some ([], after)
    | none => if c = '\n' then none else (definedValue? t).map fun (value, after) => (c :: value, after)

/-- The definition at the beginning of a line: the variable with its value, and what follows. -/
def definition? (t : Text) : Option ((Text × Text) × Bool × Text) :=
  match t.dropWhile isBlank with
  | '@' :: s =>
    let name := s.takeWhile isNameChar
    match (s.dropWhile isNameChar).dropWhile isBlank with
    | ':' :: rest =>
      if name.isEmpty then none
      else (definedValue? (rest.dropWhile isBlank)).map fun (value, after) => (('@' :: name, value), after)
    | _ => none
  | _ => none

/-- The definitions of a text and the text without them; `lineStart` when a line begins here. -/
def splitDefinitions (lineStart : Bool) : Text → List (Text × Text) × Text
  | [] => ([], [])
  | c :: t =>
    match if lineStart then definition? (c :: t) else none with
    | some (found, startsLine, rest) =>
      if rest.length ≤ t.length then
        let (more, body) := splitDefinitions startsLine rest
        (found :: more, body)
      else
        let (more, body) := splitDefinitions (c = '\n') t
        (more, c :: body)
    | none =>
      let (more, body) := splitDefinitions (c = '\n') t
      (more, c :: body)
termination_by t => t.length

/-! ### Values -/

/-- The variable at the beginning of a text, and the rest. -/
def reference? : Text → Option (Text × Text)
  | '@' :: t =>
    let name := t.takeWhile isNameChar
    if name.isEmpty then none else some ('@' :: name, t.dropWhile isNameChar)
  | _ => none

/-- Puts the values of variables in their place, once. -/
def substituteOnce (defined : Table Text) (source : Text) : Text → Except Fault Text
  | [] => .ok []
  | c :: t =>
    match reference? (c :: t) with
    | some (name, rest) =>
      match defined.get? name with
      | none => .error (.refused source ("variable ".toList ++ name ++ " is undefined".toList))
      | some value =>
        if rest.length ≤ t.length then (substituteOnce defined source rest).map (value ++ ·)
        else .ok []
    | none => (substituteOnce defined source t).map (c :: ·)
termination_by t => t.length

/-- Puts the values of variables in their place until none is left, at most `rounds` times. -/
def substitute (defined : Table Text) (source : Text) : Nat → Text → Except Fault Text
  | 0, t => .ok t
  | rounds + 1, t => do
    let next ← substituteOnce defined source t
    if next = t then pure t else substitute defined source rounds next

/-- How often the values of variables are put in their place. -/
def rounds : Nat := 10

/-- The call of the palette function at the beginning of a text: the bare variable, the number
and the rest. -/
def paletteCall? (t : Text) : Option ((Text × Text) × Text) := do
  let inner ← Text.dropPrefix? "color(~`colorPalette(\"@\x7b".toList t
  let afterName ← Text.dropPrefix? "\x7d\", ".toList (inner.dropWhile isNameChar)
  let rest ← Text.dropPrefix? ")`)".toList (afterName.dropWhile Unicode.isDigit)
  let name := inner.takeWhile isNameChar
  let number := afterName.takeWhile Unicode.isDigit
  if name.isEmpty || number.isEmpty then none else some ((name, number), rest)

/-- The number of a shade, in not too many digits. -/
def shadeNumber (digits : Text) : Except Fault Nat :=
  if longestNumeral < digits.length then .error (.badNumeral digits) else .ok (Decimal.digitsNumber digits)

/-- The color that a palette call gives. -/
def paletteColor (defined : Table Text) (source name digits : Text) : Except Fault Text := do
  let value ← substitute defined source rounds ('@' :: name)
  let number ← shadeNumber digits
  match channels? value with
  | some color => shade color number
  | none => throw (.badColor value)

/-- Puts shades in the place of palette calls. -/
def replacePaletteCalls (defined : Table Text) (source : Text) : Text → Except Fault Text :=
  Text.replaceFallibly fun t =>
    (paletteCall? t).map fun ((name, digits), rest) => (paletteColor defined source name digits, rest)

/-- The fade of a six-digit color at the beginning of a text: color, percentage and the rest. -/
def hexFade? (t : Text) : Option ((Text × Text) × Text) := do
  let inner ← Text.dropPrefix? "fade(#".toList t
  let digits := inner.take 6
  let afterComma ← Text.dropPrefix? [','] ((inner.drop 6).dropWhile isBlank)
  let isPercentChar c := Unicode.isDigit c || c == '.'
  let percentage := (afterComma.dropWhile isBlank).takeWhile isPercentChar
  let rest ← Text.dropPrefix? "%)".toList ((afterComma.dropWhile isBlank).dropWhile isPercentChar)
  if digits.length = 6 ∧ digits.all isHexDigit ∧ percentage ≠ [] then some (('#' :: digits, percentage), rest)
  else none

/-- The text of a fade. -/
def fadeText (color percentage : Text) : Except Fault Text :=
  match channels? color, Decimal.numeral? percentage with
  | some c, some p => .ok (c.withAlpha (Decimal.significant (p.divNat 100)))
  | none, _ => .error (.badColor color)
  | _, none => .error (.badNumeral percentage)

/-- Puts the texts of fades in their place. -/
def replaceFades : Text → Except Fault Text :=
  Text.replaceFallibly fun t => (hexFade? t).map fun ((color, percentage), rest) => (fadeText color percentage, rest)

/-- Puts hexadecimal colors of three to eight digits in lower case. -/
def lowerColors (t : Text) : Text :=
  Text.replaceMatches (fun s =>
    match s with
    | '#' :: rest =>
      let digits := rest.takeWhile isHexDigit
      let after := rest.dropWhile isHexDigit
      if 3 ≤ digits.length ∧ digits.length ≤ 8 ∧ ¬ after.head?.any isWordChar then
        some ('#' :: Text.asciiLower digits, after)
      else none
    | _ => none) t

/-! ### Rules -/

/-- A rule as it is written: the text before its block and the text in it. -/
structure FlatRule where
  head : Text
  body : Text

/-- A curly bracket. -/
def isCurly (c : Char) : Bool := c == '\x7b' || c == '\x7d'

/-- The rules of a text: those whose blocks hold no other block. -/
def flatRules (t : Text) : List FlatRule :=
  match _h : t.dropWhile (!isCurly ·) with
  | [] => []
  | c :: rest =>
    let head := t.takeWhile (!isCurly ·)
    let body := rest.takeWhile (!isCurly ·)
    match _hr : rest.dropWhile (!isCurly ·) with
    | '\x7d' :: after =>
      if c = '\x7b' ∧ head ≠ [] then ⟨head, body⟩ :: flatRules after else flatRules rest
    | _ => flatRules rest
termination_by t.length
decreasing_by
  all_goals
    have h1 := (List.dropWhile_sublist (!isCurly ·) (l := t)).length_le
    have h2 := (List.dropWhile_sublist (!isCurly ·) (l := rest)).length_le
    rw [_h] at h1
    rw [_hr] at h2
    simp only [List.length_cons] at h1 h2
    omega

/-- The value of a declaration with everything computed. -/
def computed (defined : Table Text) (source value : Text) : Except Fault Text := do
  pure (lowerColors (← replaceFades (← substitute defined source rounds (Text.strip value))))

/-- The lines of the declarations in a block; what holds no colon is none. -/
def declarationLines (defined : Table Text) (source body : Text) : Except Fault (List Text) := do
  let lines ← (Text.splitOn ';' body).mapM fun d =>
    match Text.cutAt? [':'] d with
    | none => pure none
    | some (property, value) => do
      let v ← computed defined source value
      pure (some (' ' :: ' ' :: Text.strip property ++ ": ".toList ++ v ++ [';']))
  pure (lines.filterMap id)

/-- A rule with everything computed. -/
def compiledRule (defined : Table Text) (source : Text) (r : FlatRule) : Except Fault Text := do
  let lines ← declarationLines defined source r.body
  let selectors := (Text.splitOn ',' r.head).map Text.strip
  pure (Text.join ",\n".toList selectors ++ " \x7b\n".toList ++ Text.join ['\n'] lines ++ "\n\x7d".toList)

/-- What no source may hold. -/
def brokenMark : Text := "@@broken".toList

/-- Compiles a text whose imports have been put in their place. -/
def compileInlined (source t : Text) : Except Fault Text :=
  if Text.occursIn brokenMark t then .error (.refused source "Unrecognised input".toList)
  else do
    let (pairs, body) := splitDefinitions true (dropLineComments true (Css.dropComments t))
    let defined := Table.ofList pairs
    let plain ← replacePaletteCalls defined source body
    let compiled ← (flatRules plain).mapM (compiledRule defined source)
    pure (Text.join ['\n'] compiled ++ ['\n'])

/-- The evaluator as a compiler over a tree of files. -/
def compiler (tree : FileTree) : Compiler := fun r => do
  let own := match r.fileName with
    | some file => [(Path.ofText file).parent]
    | none => []
  compileInlined r.source (← inline tree r.source importDepth (own ++ r.searchPaths.map Path.ofText) r.text)

end Evaluator
end Less
end ThemeSheet
