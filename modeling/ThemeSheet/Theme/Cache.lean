/-
# The cache

The last generated theme, kept under the digest of the style files it was made from.
-/

import ThemeSheet.Style.Compilation

namespace ThemeSheet
namespace Theme

/-- The last theme and the digest it is kept under. -/
structure Cache where
  digest : Option Text
  css : Option Text
deriving DecidableEq, Repr

namespace Cache

/-- Nothing is kept. -/
def empty : Cache := ⟨none, none⟩

/-- What is kept under the digest. -/
def lookup (c : Cache) (digest : Option Text) : Option Text := if digest = c.digest then c.css else none

/-- Keeps a theme in the stead of the last one. -/
def store (_ : Cache) (digest css : Option Text) : Cache := ⟨digest, css⟩

/-- Keeps a generated theme; an empty one changes nothing. -/
def keep (c : Cache) (digest css : Text) : Cache := if css.isEmpty then c else c.store (some digest) (some css)

end Cache

/-- The digest of the texts of style files. -/
def sourcesDigest (contents : List Text) : Text := Style.digest contents.flatten

end Theme
end ThemeSheet
