/-
# Rules and declarations

The nodes of a style sheet form rules: a style rule is all up to a block in curly
brackets, an at-rule ends with such a block or with a semicolon.  The block of a
style rule holds declarations, each a name, a colon and a value up to the next
semicolon; a value may end in the mark `!important`.
-/

import ThemeSheet.Css.Node

namespace ThemeSheet
namespace Css

/-- A rule of a style sheet. -/
inductive Rule where
  | style (selector content : List Node)
  /-- The nodes behind the name, and the block if the rule ends with one. -/
  | atRule (name : Text) (head : List Node) (block : Option (List Node))

/-- Does the node end an at-rule? -/
def endsAtRule (n : Node) : Bool := n.isCurly || n.isLiteral ";"

/-- Is the node one of the comment marks that may stand around a whole style sheet? -/
def isSheetMark (n : Node) : Bool := n.isLiteral "<!--" || n.isLiteral "-->"

/-- The rules of a style sheet.  What has no block before the end is no rule. -/
def rules : List Node → List Rule
  | [] => []
  | n :: ns =>
    if n.isSpace || isSheetMark n then rules ns
    else
      match n with
      | .token (.atKeyword name) =>
        let rest := ns.dropWhile fun m => !endsAtRule m
        .atRule name (ns.takeWhile fun m => !endsAtRule m) (rest.head?.bind Node.curly?) :: rules (rest.drop 1)
      | .block .curly content => .style [] content :: rules ns
      | _ =>
        let rest := ns.dropWhile fun m => !m.isCurly
        match rest.head?.bind Node.curly? with
        | some content => .style (n :: ns.takeWhile fun m => !m.isCurly) content :: rules (rest.drop 1)
        | none => []
termination_by ns => ns.length
decreasing_by
  · simp
  · have := (List.dropWhile_sublist (fun m => !endsAtRule m) (l := ns)).length_le; simp; omega
  · simp
  · have := (List.dropWhile_sublist (fun m => !m.isCurly) (l := ns)).length_le; simp; omega

/-- A property with its value. -/
structure Declaration where
  name : Text
  value : List Node
  important : Bool

/-- How far the mark `!important` has been read; `value` stands before its exclamation mark. -/
inductive Importance where
  | absent
  | announced (value : List Node)
  | given (value : List Node)

/-- A reader of the nodes of a value. -/
structure ValueReader where
  /-- All nodes so far, the latest first. -/
  read : List Node
  importance : Importance
  /-- Has any node but separators and the mark been read? -/
  hasContent : Bool
  /-- Has a block in curly brackets been read behind some content? -/
  hasLateBlock : Bool

namespace ValueReader

/-- Nothing has been read. -/
def start : ValueReader := ⟨[], .absent, false, false⟩

/-- Is the node the word of the mark, in any letter case? -/
def isImportantWord : Node → Bool
  | .token (.ident n) => Text.asciiLower n == "important".toList
  | _ => false

/-- Reads a node that is no part of the mark. -/
def pushContent (r : ValueReader) (n : Node) : ValueReader :=
  ⟨n :: r.read, .absent, true, r.hasLateBlock || (n.isCurly && r.hasContent)⟩

/-- Reads a node. -/
def push (r : ValueReader) (n : Node) : ValueReader :=
  if n.isSpace then { r with read := n :: r.read }
  else
    match r.importance with
    | .absent =>
      if n.isLiteral "!" then { r with read := n :: r.read, importance := .announced r.read } else r.pushContent n
    | .announced value =>
      if isImportantWord n then { r with read := n :: r.read, importance := .given value } else r.pushContent n
    | .given _ => r.pushContent n

/-- The value and whether it is marked as important; none if a block stands behind other content. -/
def finish (r : ValueReader) : Option (List Node × Bool) :=
  if r.hasLateBlock then none
  else
    match r.importance with
    | .given value => some (value.reverse, true)
    | _ => some (r.read.reverse, false)

end ValueReader

/-- The declaration that a first node and the nodes behind it form. -/
def Declaration.ofNodes? (first : Node) (others : List Node) : Option Declaration :=
  match first, others.dropWhile Node.isSpace with
  | .token (.ident name), colon :: value =>
    if colon.isLiteral ":" then
      (value.foldl ValueReader.push .start).finish.map fun (v, important) => ⟨name, v, important⟩
    else none
  | _, _ => none

/-- The declarations in the block of a style rule. -/
def declarations : List Node → List Declaration
  | [] => []
  | n :: ns =>
    if n.isSpace || n.isLiteral ";" then declarations ns
    else
      match n with
      | .token (.atKeyword _) => declarations ((ns.dropWhile fun m => !endsAtRule m).drop 1)
      | _ =>
        (Declaration.ofNodes? n (ns.takeWhile fun m => !m.isLiteral ";")).toList ++
          declarations ((ns.dropWhile fun m => !m.isLiteral ";").drop 1)
termination_by ns => ns.length
decreasing_by
  · simp
  · have := (List.dropWhile_sublist (fun m => !endsAtRule m) (l := ns)).length_le; simp; omega
  · have := (List.dropWhile_sublist (fun m => !m.isLiteral ";") (l := ns)).length_le; simp; omega

end Css
end ThemeSheet
