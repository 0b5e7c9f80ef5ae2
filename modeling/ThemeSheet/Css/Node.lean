/-
# The nesting of a style sheet

Brackets and calls nest.  `Node.ofLexemes` reads lexemes one by one and keeps the
levels that are still open; a closing bracket closes the innermost level or, if that
level waits for another bracket, stays behind as a stray one.  The end of the text
closes every level.
-/

import ThemeSheet.Css.Lexer

namespace ThemeSheet
namespace Css

/-- A token, or a bracketed piece with all that stands inside. -/
inductive Node where
  | token (t : Token)
  | block (bracket : Bracket) (content : List Node)
  | call (name : Text) (arguments : List Node)
deriving Repr

/-- What opened a level. -/
inductive Opener where
  | bracket (b : Bracket)
  | call (name : Text)

/-- The bracket that closes the level. -/
def Opener.closedBy : Opener → Bracket
  | bracket b => b
  | call _ => .round

/-- The level as a whole. -/
def Opener.node : Opener → List Node → Node
  | bracket b, content => .block b content
  | call name, content => .call name content

/-- A level that is still open. -/
structure Level where
  opener : Opener
  /-- What stands before it on the level around it, the latest first. -/
  before : List Node

/-- A reader of lexemes: the open levels, innermost first, and what the innermost
one holds so far, the latest first. -/
structure Nesting where
  levels : List Level
  inner : List Node

namespace Nesting

/-- Nothing has been read. -/
def start : Nesting := ⟨[], []⟩

/-- Adds a node to the innermost level. -/
def add (n : Nesting) (node : Node) : Nesting := ⟨n.levels, node :: n.inner⟩

/-- Opens a level. -/
def enter (n : Nesting) (opener : Opener) : Nesting := ⟨⟨opener, n.inner⟩ :: n.levels, []⟩

/-- Reads one lexeme. -/
def push (n : Nesting) : Lexeme → Nesting
  | .token t => n.add (.token t)
  | .opens b => n.enter (.bracket b)
  | .calls name => n.enter (.call name)
  | .closes b =>
    match n.levels with
    | [] => n.add (.token (.stray b))
    | level :: outer =>
      if level.opener.closedBy = b then ⟨outer, level.opener.node n.inner.reverse :: level.before⟩
      else n.add (.token (.stray b))

/-- Closes all open levels, from the innermost outwards. -/
def close : List Level → List Node → List Node
  | [], inner => inner.reverse
  | level :: outer, inner => close outer (level.opener.node inner.reverse :: level.before)

/-- What has been read, the end of the text closing every level. -/
def finish (n : Nesting) : List Node := close n.levels n.inner

end Nesting

namespace Node

/-- The nodes that a run of lexemes stands for. -/
def ofLexemes (ls : List Lexeme) : List Node := (ls.foldl Nesting.push .start).finish

/-- The nodes of a style sheet. -/
def ofText (t : Text) : List Node := ofLexemes (lexemes (normalise t))

/-- Is the node a run of separators? -/
def isSpace : Node → Bool
  | .token (.space _) => true
  | _ => false

/-- Is the node the literal `chars`? -/
def isLiteral (chars : String) : Node → Bool
  | .token (.literal cs) => cs == chars.toList
  | _ => false

/-- The content of a block in curly brackets. -/
def curly? : Node → Option (List Node)
  | .block .curly content => some content
  | _ => none

/-- Is the node a block in curly brackets? -/
def isCurly (n : Node) : Bool := n.curly?.isSome

end Node
end Css
end ThemeSheet
