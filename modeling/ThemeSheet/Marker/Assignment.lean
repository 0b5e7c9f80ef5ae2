/-
# Marker colors

To find out what a variable compiles to, it is given a color that nothing else has.
The main theme color always has the same marker; the others are drawn.
-/

import ThemeSheet.Color.Draw
import ThemeSheet.Fault
import ThemeSheet.Table
import ThemeSheet.Variable.Shade

namespace ThemeSheet

/-- The marker of the main theme color. -/
def primaryMarker : Text := "#123456".toList

/-- Which color marks which variable, and the reverse. -/
structure MarkerAssignment where
  colors : Table Text
  owners : Table Text

namespace MarkerAssignment

/-- No variable has a marker. -/
def empty : MarkerAssignment := ⟨.empty, .empty⟩

/-- Gives a variable its marker. -/
def assign (m : MarkerAssignment) (name color : Text) : MarkerAssignment :=
  ⟨m.colors.insert name color, m.owners.insert color name⟩

/-- Is the color a marker? -/
def marks (m : MarkerAssignment) (color : Text) : Bool := m.owners.contains color

/-- May the color become the marker of a variable other than the main theme color? -/
def isFree (m : MarkerAssignment) (color : Text) : Bool :=
  color ≠ Color.black ∧ color ≠ Color.white ∧ color ≠ primaryMarker ∧ ¬ m.marks color

/-- Gives one more variable a marker. -/
def extend (m : MarkerAssignment) (d : Color.Draws) (name : Text) :
    Except Fault (MarkerAssignment × Color.Draws) :=
  if name = Variable.primary then .ok (m.assign name primaryMarker, d)
  else
    match Color.drawFree m.isFree d with
    | some (color, rest) => .ok (m.assign name color, rest)
    | none => .error .colorsExhausted

/-- Gives every variable of a list a marker, in order. -/
def ofVariables (names : List Text) (d : Color.Draws) : Except Fault (MarkerAssignment × Color.Draws) :=
  names.foldlM (fun (m, d) name => extend m d name) (empty, d)

end MarkerAssignment
end ThemeSheet
