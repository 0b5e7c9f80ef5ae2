/-
# Writing nodes as text

Every node has one written form.  Between two neighbours that would be read as
something else when put together stands an empty comment.
-/

import ThemeSheet.Css.Node

namespace ThemeSheet
namespace Css

/-! ### Names and values -/

/-- The written form of a line end inside a name or a string. -/
def lineEndEscape? (c : Char) : Option Text :=
  if c = '\n' then some "\\A ".toList
  else if c = '\r' then some "\\D ".toList
  else if c = '\x0c' then some "\\C ".toList
  else none

/-- A character inside a name. -/
def nameChar (c : Char) : Text :=
  if isNamePart c then [c] else (lineEndEscape? c).getD ['\\', c]

/-- The characters of a name behind the first one. -/
def writtenName (n : Text) : Text := n.flatMap nameChar

/-- The first character of a name; a digit is written by its code point. -/
def firstChar (c : Char) : Text :=
  if isNameStart c then [c]
  else if c.isDigit then ['\\', '3', c, ' ']
  else (lineEndEscape? c).getD ['\\', c]

/-- A name that can stand alone. -/
def writtenIdent : Text → Text
  | [] => []
  | ['-'] => ['\\', '-']
  | '-' :: '-' :: n => '-' :: '-' :: writtenName n
  | '-' :: c :: n => '-' :: (firstChar c ++ writtenName n)
  | c :: n => firstChar c ++ writtenName n

/-- A unit; one that could be taken for an exponent has its first letter escaped. -/
def writtenUnit (u : Text) : Text :=
  match u with
  | c :: rest =>
    if (c = 'e' ∨ c = 'E') ∧ (rest = [] ∨ rest.head? = some '-') then "\\65 ".toList ++ writtenName rest
    else writtenIdent u
  | [] => writtenIdent u

/-- A character inside double quotes. -/
def stringChar (c : Char) : Text :=
  if c = '"' ∨ c = '\\' then ['\\', c] else (lineEndEscape? c).getD [c]

/-- A character of a bare address. -/
def urlChar (c : Char) : Text :=
  if c = '\'' ∨ c = '"' ∨ c = '\\' ∨ c = ' ' ∨ c = '(' ∨ c = ')' then ['\\', c]
  else if c = '\t' then "\\9 ".toList
  else (lineEndEscape? c).getD [c]

/-- A code point in upper case hexadecimal digits. -/
def writtenCode (n : Nat) : Text := (Nat.toDigits 16 n).map Char.toUpper

/-! ### Neighbours -/

/-- What a node is for its neighbours. -/
inductive Kind where
  | ident
  | call
  | url
  | atKeyword
  | hash
  | string
  | number
  | percentage
  | dimension
  | unicodeRange
  | space
  | error
  | block (b : Bracket)
  | literal (chars : Text)
deriving DecidableEq

/-- The kind of a token. -/
def Token.kind : Token → Kind
  | .ident _ => .ident
  | .atKeyword _ => .atKeyword
  | .hash _ _ => .hash
  | .number _ => .number
  | .percentage _ => .percentage
  | .dimension _ _ => .dimension
  | .unicodeRange _ _ => .unicodeRange
  | .string _ _ => .string
  | .url _ _ => .url
  | .space _ => .space
  | .literal chars => .literal chars
  | .badString | .badUrl | .endInString | .endInUrl | .stray _ => .error

/-- The kind of a node. -/
def Node.kind : Node → Kind
  | .token t => t.kind
  | .block b _ => .block b
  | .call _ _ => .call

namespace Kind

/-- The kind of a single character. -/
def mark (c : Char) : Kind := .literal [c]

/-- Kinds that begin with a name character or read on as part of a name. -/
def isNameLike (k : Kind) : Bool := k == ident || k == call || k == url

/-- Kinds that begin with a number. -/
def isNumeric (k : Kind) : Bool := k == number || k == percentage || k == dimension

/-- Kinds that end in a name. -/
def endsInName (k : Kind) : Bool := k == ident || k == atKeyword || k == hash || k == dimension

/-- Would the two kinds be read as something else when nothing stands between them? -/
def fuses (a b : Kind) : Bool :=
  ((a.endsInName || a == mark '#' || a == mark '-' || a == number) &&
      (b.isNameLike || b.isNumeric || b == unicodeRange)) ||
    (a.endsInName && (b == mark '-' || b == literal "-->".toList)) ||
    (a == mark '@' && (b.isNameLike || b == unicodeRange || b == mark '-')) ||
    ((a == unicodeRange || a == mark '.' || a == mark '+') && b.isNumeric) ||
    (a == unicodeRange && (b == ident || b == call || b == mark '?')) ||
    ((a == mark '$' || a == mark '*' || a == mark '^' || a == mark '~' || a == mark '|') && b == mark '=') ||
    (a == ident && b == block .round) ||
    (a == mark '|' && b == mark '|') ||
    (a == mark '/' && b == mark '*')

end Kind

/-- Is the node a run of separators that begins with a line feed? -/
def Node.startsLine : Node → Bool
  | .token (.space ('\n' :: _)) => true
  | _ => false

/-- What stands between a node of the given kind and the next node: an empty comment if the
two would fuse, a line feed behind a lone backslash. -/
def gap (before : Option Kind) (n : Node) : Text :=
  match before with
  | none => []
  | some k =>
    if k.fuses n.kind then "/**/".toList
    else if k = Kind.mark '\\' ∧ n.startsLine = false then ['\n']
    else []

/-! ### Nodes -/

/-- The written form of a token. -/
def Token.written : Token → Text
  | .ident n => writtenIdent n
  | .atKeyword n => '@' :: writtenIdent n
  | .hash n isIdent => '#' :: (if isIdent then writtenIdent n else writtenName n)
  | .number ds => ds
  | .percentage ds => ds ++ ['%']
  | .dimension ds u => ds ++ writtenUnit u
  | .unicodeRange first last =>
    'U' :: '+' :: writtenCode first ++ (if first = last then [] else '-' :: writtenCode last)
  | .string v closed => '"' :: v.flatMap stringChar ++ (if closed then ['"'] else [])
  | .url v closed => "url(".toList ++ v.flatMap urlChar ++ (if closed then [')'] else [])
  | .space run => run
  | .literal chars => chars
  | .badString => "\"[bad string]\n".toList
  | .badUrl => "url([bad url])".toList
  | .endInString | .endInUrl => []
  | .stray b => [b.closing]

mutual

/-- Does the text end inside a string that is the last thing in the node? -/
def Node.endsInString : Node → Bool
  | .token .endInString => true
  | .token _ => false
  | .block _ _ => false
  | .call _ arguments => Node.lastEndsInString arguments

/-- Does the text end inside a string that is the last thing in the last node? -/
def Node.lastEndsInString : List Node → Bool
  | [] => false
  | [n] => n.endsInString
  | _ :: n :: ns => Node.lastEndsInString (n :: ns)

end

mutual

/-- The written form of a node. -/
def Node.written : Node → Text
  | .token t => t.written
  | .block b content => b.opening :: Node.writtenAll none content ++ [b.closing]
  | .call name arguments =>
    writtenIdent name ++ '(' :: Node.writtenAll none arguments ++
      (if Node.lastEndsInString arguments then [] else [')'])

/-- The written form of neighbours, behind a node of the given kind. -/
def Node.writtenAll (before : Option Kind) : List Node → Text
  | [] => []
  | n :: ns => gap before n ++ n.written ++ Node.writtenAll (some n.kind) ns

end

/-- The written form of a run of nodes. -/
def written (ns : List Node) : Text := Node.writtenAll none ns

end Css
end ThemeSheet
