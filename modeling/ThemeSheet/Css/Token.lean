/-
# Tokens of a style sheet

The smallest pieces of a style sheet: names, numbers, strings, addresses and single
characters, and the three kinds of brackets that nest.  Comments leave no token.
-/

import ThemeSheet.Text.Basic

namespace ThemeSheet
namespace Css

/-- The three kinds of brackets. -/
inductive Bracket where
  | curly
  | square
  | round
deriving DecidableEq, Repr

/-- The opening bracket. -/
def Bracket.opening : Bracket → Char
  | curly => '\x7b'
  | square => '['
  | round => '('

/-- The closing bracket. -/
def Bracket.closing : Bracket → Char
  | curly => '\x7d'
  | square => ']'
  | round => ')'

/-- The kind of bracket that a character opens. -/
def Bracket.opened? (c : Char) : Option Bracket :=
  if c = '\x7b' then some curly else if c = '[' then some square else if c = '(' then some round else none

/-- The kind of bracket that a character closes. -/
def Bracket.closed? (c : Char) : Option Bracket :=
  if c = '\x7d' then some curly else if c = ']' then some square else if c = ')' then some round else none

/-- A token without inner structure.  Names and values are stored unescaped. -/
inductive Token where
  | ident (name : Text)
  | atKeyword (name : Text)
  /-- A number sign and a name; `isIdent` when the name could stand alone. -/
  | hash (name : Text) (isIdent : Bool)
  | number (digits : Text)
  | percentage (digits : Text)
  | dimension (digits unit : Text)
  | unicodeRange (first last : Nat)
  /-- A quoted string; not `closed` when the text ends inside it. -/
  | string (value : Text) (closed : Bool)
  /-- A bare address; not `closed` when the text ends inside it. -/
  | url (value : Text) (closed : Bool)
  | space (run : Text)
  /-- A character, or one of the few combinations, that is no part of another token. -/
  | literal (chars : Text)
  /-- A string broken by a line end. -/
  | badString
  /-- An address with a character that no bare address may hold. -/
  | badUrl
  /-- The text ended inside a string. -/
  | endInString
  /-- The text ended inside an address. -/
  | endInUrl
  /-- A closing bracket that closes nothing. -/
  | stray (bracket : Bracket)
deriving DecidableEq, Repr

/-- What the text is first cut into: tokens, and the ends of what nests. -/
inductive Lexeme where
  | token (t : Token)
  | opens (bracket : Bracket)
  /-- A name directly followed by an opening round bracket. -/
  | calls (name : Text)
  | closes (bracket : Bracket)
deriving DecidableEq, Repr

end Css
end ThemeSheet
