/-
# Drawing colors

Colors that stand for something else for a while are drawn at random.  The numbers
come from a script; when it is used up, from a counter.  A color that is taken is
drawn again.
-/

import ThemeSheet.Color.Hex

namespace ThemeSheet
namespace Color

/-- A source of numbers. -/
structure Draws where
  /-- The numbers to come, before the counter begins. -/
  script : List Int
  /-- The next number of the counter. -/
  next : Int
  /-- How many numbers have been drawn. -/
  count : Nat
deriving DecidableEq, Repr

namespace Draws

/-- A script, and a counter behind it that begins with one. -/
def ofScript (script : List Int) : Draws := ⟨script, 1, 0⟩

/-- A counter that begins with `first`. -/
def counterFrom (first : Int) : Draws := ⟨[], first, 0⟩

/-- The number that is drawn next. -/
def head (d : Draws) : Int := d.script.head?.getD d.next

/-- What remains behind the next number. -/
def tail (d : Draws) : Draws :=
  match d.script with
  | _ :: script => ⟨script, d.next, d.count + 1⟩
  | [] => ⟨[], d.next + 1, d.count + 1⟩

/-- Draws a number below `bound`. -/
def below (bound : Nat) (d : Draws) : Nat × Draws := ((d.head % bound).toNat, d.tail)

end Draws

/-- How many colors there are. -/
def total : Nat := 0x1000000

/-- The color with the given number. -/
def ofNumber (n : Nat) : Text := '#' :: hexDigits 6 n

/-- The darkest color. -/
def black : Text := "#000000".toList

/-- The lightest color. -/
def white : Text := "#ffffff".toList

/-- Draws a color. -/
def draw (d : Draws) : Text × Draws :=
  let (n, rest) := d.below total
  (ofNumber n, rest)

/-- Draws up to `tries` colors, until one is free. -/
def drawWithin (free : Text → Bool) : Nat → Draws → Option (Text × Draws)
  | 0, _ => none
  | tries + 1, d =>
    let (color, rest) := draw d
    if free color then some (color, rest) else drawWithin free tries rest

/-- Draws until a color is free.  Behind the script the counter gives every color once before
it repeats one, so where none comes none is free. -/
def drawFree (free : Text → Bool) (d : Draws) : Option (Text × Draws) :=
  drawWithin free (d.script.length + total) d

/-- Draws a color that is neither black nor white nor reserved. -/
def drawUnique (reserved : List Text) (d : Draws) : Option (Text × Draws) :=
  drawFree (fun color => color ≠ black ∧ color ≠ white ∧ ¬ reserved.contains color) d

/-- Draws `n` colors. -/
def drawMany : Nat → Draws → List Text × Draws
  | 0, d => ([], d)
  | n + 1, d =>
    let (color, rest) := draw d
    let (colors, last) := drawMany n rest
    (color :: colors, last)

end Color
end ThemeSheet
