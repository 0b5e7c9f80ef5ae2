/-
# Collecting variables

Two readings of a variables file.  The color reading keeps colors only and follows
aliases through what it has kept so far; the plain reading keeps every value as it
is written.  Where both know a name, the plain value counts.
-/

import ThemeSheet.Color.Classify
import ThemeSheet.Variable.Alias
import ThemeSheet.Variable.Definition
import ThemeSheet.Variable.Shade

namespace ThemeSheet
namespace Variable

/-- The value of a definition with an alias followed through the colors so far; none for an
alias that leads to no color. -/
def knownValue (colors : Table Text) (d : Definition) : Except Fault (Option Text) :=
  if d.value.head? = some '@' then resolve colors d.value else .ok (some d.value)

/-- Takes a definition among the colors if its value is one. -/
def addColor (custom : Except Fault (List Pattern)) (colors : Table Text) (d : Definition) :
    Except Fault (Table Text) := do
  match ← knownValue colors d with
  | none => pure colors
  | some value => if ← Color.isColor custom value then pure (colors.insert d.name value) else pure colors

/-- The color reading of a text. -/
def colorTable (custom : Except Fault (List Pattern)) (content : Text) : Except Fault (Table Text) :=
  (definitions content).foldlM (addColor custom) .empty

/-- The plain reading of a text. -/
def plainTable (content : Text) : Table Text :=
  .ofList ((definitions content).map fun d => (d.name, d.value))

/-- The two readings of the variables. -/
structure Collection where
  colors : Table Text
  raw : Table Text

namespace Collection

/-- Reads the colors of one text and the plain values of another. -/
def collect (custom : Except Fault (List Pattern)) (content rawContent : Text) : Except Fault Collection := do
  pure ⟨← colorTable custom content, plainTable rawContent⟩

/-- Both readings in one, plain values before colors. -/
def values (c : Collection) : Table Text := c.colors.merge c.raw

/-- Does either reading know the name? -/
def knows (c : Collection) (name : Text) : Bool := c.colors.contains name || c.raw.contains name

/-- The value of a name that must be known. -/
def value (c : Collection) (name : Text) : Except Fault Text :=
  match c.values.get? name with
  | some v => .ok v
  | none => .error (.missingKey name)

/-- The value of a name with aliases followed. -/
def resolve (c : Collection) (name : Text) : Except Fault (Option Text) := Variable.resolve c.values name

/-- The requested theme variables that are known and are no shades; the main theme color if none
is requested. -/
def themeVariables (c : Collection) (requested : List Text) : List Text :=
  (if requested.isEmpty then [primary] else requested).filter fun name => c.knows name && !isShade name

end Collection
end Variable
end ThemeSheet
