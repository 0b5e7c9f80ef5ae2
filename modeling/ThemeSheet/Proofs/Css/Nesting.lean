/-
# Nodes and their lexemes

A node is the run of lexemes from its first to its last one.  Nesting such a run gives
the node back, and what any run of lexemes nests to has these lexemes again: only the
brackets that the text left open are closed, and one that closes nothing stays behind
as a token.
-/

import Mathlib.Data.List.Forall2
import ThemeSheet.Css.Node

namespace ThemeSheet
namespace Css

mutual

/-- The lexemes of a node. -/
def Node.lexemes : Node → List Lexeme
  | .token t => [.token t]
  | .block b content => .opens b :: (Node.allLexemes content ++ [.closes b])
  | .call name arguments => .calls name :: (Node.allLexemes arguments ++ [.closes .round])

/-- The lexemes of neighbours. -/
def Node.allLexemes : List Node → List Lexeme
  | [] => []
  | n :: ns => n.lexemes ++ Node.allLexemes ns

end

namespace Node

/-- No nodes have no lexemes. -/
theorem allLexemes_nil : allLexemes [] = [] := by rw [allLexemes]

/-- The lexemes of nodes are those of the first and those of the others. -/
theorem allLexemes_cons (n : Node) (ns : List Node) :
    allLexemes (n :: ns) = n.lexemes ++ allLexemes ns := by
  rw [allLexemes]

/-- The lexemes of nodes are those of the first nodes and those of the others. -/
theorem allLexemes_append (ns ms : List Node) :
    allLexemes (ns ++ ms) = allLexemes ns ++ allLexemes ms := by
  induction ns with
  | nil => rw [allLexemes_nil, List.nil_append, List.nil_append]
  | cons n ns ih => rw [List.cons_append, allLexemes_cons, allLexemes_cons, ih, List.append_assoc]

end Node

/-! ### From nodes to nodes -/

mutual

/-- **Reading the lexemes of a node adds the node** to the innermost level. -/
theorem Nesting.foldl_push_lexemes (n : Nesting) :
    (node : Node) → node.lexemes.foldl Nesting.push n = n.add node
  | .token t => by rw [Node.lexemes]; rfl
  | .block b content => by
    rw [Node.lexemes, List.foldl_cons, List.foldl_append, Nesting.foldl_push_allLexemes]
    simp [Nesting.push, Nesting.enter, Opener.closedBy, Opener.node, Nesting.add]
  | .call name arguments => by
    rw [Node.lexemes, List.foldl_cons, List.foldl_append, Nesting.foldl_push_allLexemes]
    simp [Nesting.push, Nesting.enter, Opener.closedBy, Opener.node, Nesting.add]

/-- Reading the lexemes of nodes adds the nodes to the innermost level. -/
theorem Nesting.foldl_push_allLexemes (n : Nesting) :
    (nodes : List Node) →
      (Node.allLexemes nodes).foldl Nesting.push n = ⟨n.levels, nodes.reverse ++ n.inner⟩
  | [] => by rw [Node.allLexemes]; rfl
  | node :: nodes => by
    rw [Node.allLexemes, List.foldl_append, Nesting.foldl_push_lexemes, Nesting.foldl_push_allLexemes]
    simp [Nesting.add]

end

/-- **Nesting the lexemes of nodes gives the nodes back.** -/
theorem Node.ofLexemes_allLexemes (ns : List Node) : Node.ofLexemes (Node.allLexemes ns) = ns := by
  rw [Node.ofLexemes, Nesting.foldl_push_allLexemes]
  simp [Nesting.finish, Nesting.start, Nesting.close]

/-! ### From lexemes to lexemes -/

/-- What nesting makes of a lexeme: itself, or a stray bracket if it closes nothing. -/
def Lexeme.Kept (l m : Lexeme) : Prop := m = l ∨ ∃ b, l = .closes b ∧ m = .token (.stray b)

/-- The lexeme that opens the level. -/
def Opener.lexeme : Opener → Lexeme
  | bracket b => .opens b
  | call name => .calls name

/-- The lexemes of a node are the opening one, those of its content and the closing one. -/
theorem Opener.lexemes_node (o : Opener) (content : List Node) :
    (o.node content).lexemes = o.lexeme :: (Node.allLexemes content ++ [.closes o.closedBy]) := by
  cases o <;> rw [Opener.node, Node.lexemes] <;> rfl

/-- The lexemes before the content of the innermost level. -/
def Level.lexemes : List Level → List Lexeme
  | [] => []
  | level :: outer =>
    Level.lexemes outer ++ (Node.allLexemes level.before.reverse ++ [level.opener.lexeme])

/-- The lexemes that have been read. -/
def Nesting.lexemes (n : Nesting) : List Lexeme :=
  Level.lexemes n.levels ++ Node.allLexemes n.inner.reverse

/-- Adding a node adds its lexemes. -/
theorem Nesting.lexemes_add (n : Nesting) (node : Node) :
    (n.add node).lexemes = n.lexemes ++ node.lexemes := by
  simp [Nesting.lexemes, Nesting.add, Node.allLexemes_append, Node.allLexemes_cons,
    Node.allLexemes_nil]

/-- Opening a level adds the lexeme that opens it. -/
theorem Nesting.lexemes_enter (n : Nesting) (o : Opener) :
    (n.enter o).lexemes = n.lexemes ++ [o.lexeme] := by
  simp [Nesting.lexemes, Nesting.enter, Level.lexemes, Node.allLexemes_nil]

/-- Adding a stray bracket adds its lexeme. -/
theorem Nesting.lexemes_stray (n : Nesting) (b : Bracket) :
    (n.add (.token (.stray b))).lexemes = n.lexemes ++ [.token (.stray b)] := by
  rw [Nesting.lexemes_add, Node.lexemes]

/-- **One lexeme read is one lexeme more.** -/
theorem Nesting.lexemes_push (n : Nesting) (l : Lexeme) :
    ∃ m, (n.push l).lexemes = n.lexemes ++ [m] ∧ l.Kept m := by
  cases l with
  | token t => exact ⟨.token t, by rw [Nesting.push, Nesting.lexemes_add, Node.lexemes], .inl rfl⟩
  | opens b => exact ⟨.opens b, n.lexemes_enter (.bracket b), .inl rfl⟩
  | calls name => exact ⟨.calls name, n.lexemes_enter (.call name), .inl rfl⟩
  | closes b =>
    rw [Nesting.push]
    split
    · exact ⟨_, n.lexemes_stray b, .inr ⟨b, rfl, rfl⟩⟩
    · next level outer hl =>
      split
      · next hb =>
        refine ⟨.closes b, ?_, .inl rfl⟩
        simp [Nesting.lexemes, hl, Level.lexemes, Node.allLexemes_append, Node.allLexemes_cons,
          Node.allLexemes_nil, Opener.lexemes_node, hb]
      · exact ⟨_, n.lexemes_stray b, .inr ⟨b, rfl, rfl⟩⟩

/-- **Nesting keeps every lexeme,** but for brackets that close nothing. -/
theorem Nesting.lexemes_foldl_push (ls : List Lexeme) (n : Nesting) :
    ∃ ms, (ls.foldl Nesting.push n).lexemes = n.lexemes ++ ms ∧ List.Forall₂ Lexeme.Kept ls ms := by
  induction ls generalizing n with
  | nil => exact ⟨[], by simp, .nil⟩
  | cons l ls ih =>
    obtain ⟨m, hm, hkept⟩ := n.lexemes_push l
    obtain ⟨ms, hms, hall⟩ := ih (n.push l)
    exact ⟨m :: ms, by rw [List.foldl_cons, hms, hm, List.append_assoc, List.singleton_append],
      .cons hkept hall⟩

/-- Closing the open levels adds their closing brackets. -/
theorem Nesting.allLexemes_close (levels : List Level) (inner : List Node) :
    Node.allLexemes (Nesting.close levels inner) =
      Level.lexemes levels ++ Node.allLexemes inner.reverse ++
        levels.map fun level => .closes level.opener.closedBy := by
  induction levels generalizing inner with
  | nil => simp [Nesting.close, Level.lexemes]
  | cons level outer ih =>
    rw [Nesting.close, ih]
    simp [Level.lexemes, Node.allLexemes_append, Node.allLexemes_cons, Node.allLexemes_nil,
      Opener.lexemes_node]

/-- **Nested lexemes are the same lexemes,** with a stray bracket for each that closes nothing and the
brackets that close what is left open. -/
theorem Node.allLexemes_ofLexemes (ls : List Lexeme) :
    ∃ ms bs, Node.allLexemes (Node.ofLexemes ls) = ms ++ List.map Lexeme.closes bs ∧
      List.Forall₂ Lexeme.Kept ls ms := by
  obtain ⟨ms, hms, hall⟩ := Nesting.lexemes_foldl_push ls .start
  have hstart : Nesting.start.lexemes = [] := by
    simp [Nesting.lexemes, Nesting.start, Level.lexemes, Node.allLexemes_nil]
  rw [hstart, List.nil_append, Nesting.lexemes] at hms
  refine ⟨ms, (ls.foldl Nesting.push .start).levels.map fun level => level.opener.closedBy, ?_, hall⟩
  rw [Node.ofLexemes, Nesting.finish, Nesting.allLexemes_close, hms, List.map_map]
  rfl

/-- Without a stray bracket the lexemes are all there. -/
theorem Lexeme.eq_of_kept {ls ms : List Lexeme} (h : List.Forall₂ Lexeme.Kept ls ms)
    (hstray : ∀ b, .token (.stray b) ∉ ms) : ms = ls := by
  induction h with
  | nil => rfl
  | @cons l m ls ms hkept _ ih =>
    rcases hkept with rfl | ⟨b, -, rfl⟩
    · rw [ih fun b hb => hstray b (List.mem_cons_of_mem _ hb)]
    · exact absurd (List.mem_cons_self ..) (hstray b)

end Css
end ThemeSheet
