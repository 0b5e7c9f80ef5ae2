/-
# What can go wrong

The causes for which a step of the theme generator stops, and their wording.
-/

import ThemeSheet.Text.Blank

namespace ThemeSheet

/-- Why a step stopped. -/
inductive Fault where
  /-- The Less compiler refused a source. -/
  | compile (source detail : Text)
  /-- A chain of aliases came back to a variable already on it. -/
  | cyclicVariable (chain : List Text)
  /-- A table has no entry under the key. -/
  | missingKey (key : Text)
  /-- A custom color pattern is malformed. -/
  | badPattern (pattern : Text)
  /-- No file can be read, or none written, at the place. -/
  | noFile (path : Text)
  /-- A path holds a character that no file name may hold. -/
  | badPath (path : Text)
  /-- The bytes of a file are not valid UTF-8. -/
  | undecodable (path : Text)
  /-- Imports are nested too deeply, as on an import cycle. -/
  | importsTooDeep (path : Text)
  /-- The name is not that of a shade. -/
  | notAShade (name : Text)
  /-- A color is needed, and the name has none. -/
  | noColor (name : Text)
  /-- A setting does not have the kind of value it needs. -/
  | badSetting (name : Text)
  /-- The text is no color. -/
  | badColor (text : Text)
  /-- The text is no numeral. -/
  | badNumeral (text : Text)
  /-- The number is too large to be computed with. -/
  | tooLarge (text : Text)
  /-- Every color is taken. -/
  | colorsExhausted
deriving DecidableEq, Repr

namespace Fault

/-- The refusal of a source, with blanks around the compiler's words removed. -/
def refused (source words : Text) : Fault := .compile source (Text.strip words)

/-- The wording of a fault. -/
def message : Fault → Text
  | compile source detail => source ++ ": ".toList ++ detail
  | cyclicVariable chain => "Cyclic variable reference: ".toList ++ Text.join " -> ".toList chain
  | missingKey key => key
  | badPattern pattern => "malformed pattern: ".toList ++ pattern
  | noFile path => "no such file: ".toList ++ path
  | badPath path => "a path with a null character: ".toList ++ path
  | undecodable path => "not valid UTF-8: ".toList ++ path
  | importsTooDeep path => "imports nested too deeply: ".toList ++ path
  | notAShade name => "not a shade: ".toList ++ name
  | noColor name => "no color known for ".toList ++ name
  | badSetting name => "wrong kind of value for ".toList ++ name
  | badColor text => "unknown color specifier: ".toList ++ text
  | badNumeral text => "not a numeral: ".toList ++ text
  | tooLarge text => "too large a number: ".toList ++ text
  | colorsExhausted => "every color is taken".toList

end Fault
end ThemeSheet
