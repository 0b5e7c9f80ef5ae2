/-
# Style sheets as they are printed

A style sheet is a list of comments, at-rules and style rules.  It may be printed with
separators and comments wherever they stand between two pieces.  Pruning any of these
texts gives the same one: the kept rules, each declaration on a line of its own.
-/

import ThemeSheet.Proofs.Css.Declaration
import ThemeSheet.Proofs.Css.Nesting
import ThemeSheet.Proofs.Css.Spelling

namespace ThemeSheet
namespace Css

/-- What a style sheet is made of. -/
inductive Item where
  | comment (content : Text)
  /-- The nodes behind the name, and the block if the rule ends with one. -/
  | atRule (name : Text) (head : List Node) (block : Option (List Node))
  | style (selector : List Node) (declarations : List Declaration)

/-! ### Rules -/

/-- What ends an at-rule: its block, or a semicolon. -/
def atRuleEnd : Option (List Node) → Node
  | some content => .block .curly content
  | none => .mark ';'

/-- Nodes that are the selector of a style rule: none is a block in curly brackets, and the first one
begins nothing else. -/
structure IsSelector (ns : List Node) : Prop where
  curly : ∀ n ∈ ns, n.isCurly = false
  space : ∀ n, ns.head? = some n → n.isSpace = false
  sheetMark : ∀ n, ns.head? = some n → isSheetMark n = false
  atKeyword : ∀ name, ns.head? ≠ some (.token (.atKeyword name))

/-- **The nodes of a style sheet,** with separators between its rules. -/
inductive LaidOut : List Item → List Node → Prop
  | nil : LaidOut [] []
  | space {n : Node} {ns : List Node} {items : List Item} : n.isSpace = true → LaidOut items ns →
      LaidOut items (n :: ns)
  | comment {b : Text} {ns : List Node} {items : List Item} : LaidOut items ns →
      LaidOut (.comment b :: items) ns
  | atRule {name : Text} {head ns : List Node} {block : Option (List Node)} {items : List Item} :
      (∀ m ∈ head, endsAtRule m = false) → LaidOut items ns →
      LaidOut (.atRule name head block :: items)
        (.token (.atKeyword name) :: (head ++ atRuleEnd block :: ns))
  | style {selector content ns : List Node} {ds : List Declaration} {items : List Item} :
      IsSelector selector → Content ds content → LaidOut items ns →
      LaidOut (.style selector ds :: items) (selector ++ .block .curly content :: ns)

/-- A separator between rules is left out. -/
theorem rules_skip {n : Node} (h : n.isSpace = true) (ns : List Node) : rules (n :: ns) = rules ns := by
  rw [rules.eq_def]
  simp only
  rw [if_pos (by simp [h])]

/-- What ends an at-rule ends one. -/
theorem endsAtRule_atRuleEnd (block : Option (List Node)) : endsAtRule (atRuleEnd block) = true := by
  cases block <;> rfl

/-- The block that ends an at-rule is its block. -/
theorem curly?_atRuleEnd (block : Option (List Node)) : (atRuleEnd block).curly? = block := by
  cases block <;> rfl

/-- An at-rule is read up to its end. -/
theorem rules_atRule {name : Text} {head : List Node} (h : ∀ m ∈ head, endsAtRule m = false)
    (block : Option (List Node)) (ns : List Node) :
    rules (.token (.atKeyword name) :: (head ++ atRuleEnd block :: ns)) =
      .atRule name head block :: rules ns := by
  have hends : ∀ n, (atRuleEnd block :: ns).head? = some n → endsAtRule n = true := by
    rintro n ⟨⟩
    exact endsAtRule_atRuleEnd block
  obtain ⟨htake, hdrop⟩ := takeWhile_not h hends
  rw [rules.eq_def]
  simp only
  rw [if_neg (by simp [Node.isSpace, isSheetMark, Node.isLiteral]), htake, hdrop]
  simp [curly?_atRuleEnd]

/-- A style rule is read up to its block. -/
theorem rules_style {selector : List Node} (h : IsSelector selector) (content ns : List Node) :
    rules (selector ++ .block .curly content :: ns) = .style selector content :: rules ns := by
  cases selector with
  | nil =>
    rw [List.nil_append, rules.eq_def]
    simp only
    rw [if_neg (by simp [Node.isSpace, isSheetMark, Node.isLiteral])]
  | cons n selector =>
    obtain ⟨hn, hcurly⟩ := List.forall_mem_cons.1 h.curly
    have hends : ∀ m, (Node.block .curly content :: ns).head? = some m → m.isCurly = true := by
      rintro m ⟨⟩
      rfl
    obtain ⟨htake, hdrop⟩ := takeWhile_not hcurly hends
    rw [List.cons_append, rules.eq_def]
    simp only
    rw [if_neg (by simp [h.space n rfl, h.sheetMark n rfl]), htake, hdrop]
    split
    · exact absurd rfl (h.atKeyword _)
    · simp [Node.isCurly, Node.curly?] at hn
    · simp [Node.curly?]

/-- What is kept of a rule with its selector and its declarations. -/
def keptRule? (selector : List Node) (ds : List Declaration) : Option KeptRule :=
  let kept := ds.filter Declaration.isKept
  if Text.beginsWith probeSelector (Text.strip (written selector)) || kept.isEmpty then none
  else some ⟨Text.strip (written selector), kept⟩

/-- What is kept of an item. -/
def Item.kept? : Item → Option KeptRule
  | .style selector ds => keptRule? selector ds
  | _ => none

/-- **What is kept of a style sheet is what is kept of its items.** -/
theorem LaidOut.kept_eq {items : List Item} {ns : List Node} (h : LaidOut items ns) :
    (rules ns).filterMap Rule.kept? = items.filterMap Item.kept? := by
  induction h with
  | nil => rw [rules]; rfl
  | space hn _ ih => rw [rules_skip hn, ih]
  | comment _ ih => exact ih
  | atRule hhead _ ih => rw [rules_atRule hhead, List.filterMap_cons, List.filterMap_cons, ih]; rfl
  | style hsel hcontent _ ih =>
    rw [rules_style hsel, List.filterMap_cons, List.filterMap_cons, ih]
    simp only [Rule.kept?, Item.kept?, keptRule?, hcontent.declarations_eq]

/-- The declarations of a style rule. -/
def Rule.declarations : Rule → List Declaration
  | .style _ content => Css.declarations content
  | .atRule _ _ _ => []

/-- The declarations of an item. -/
def Item.declarations : Item → List Declaration
  | .style _ ds => ds
  | _ => []

/-- **The declarations of a style sheet are those of its items.** -/
theorem LaidOut.declarations_eq {items : List Item} {ns : List Node} (h : LaidOut items ns) :
    (rules ns).flatMap Rule.declarations = items.flatMap Item.declarations := by
  induction h with
  | nil => rw [rules]; rfl
  | space hn _ ih => rw [rules_skip hn, ih]
  | comment _ ih => exact ih
  | atRule hhead _ ih => rw [rules_atRule hhead, List.flatMap_cons, List.flatMap_cons, ih]; rfl
  | style hsel hcontent _ ih =>
    rw [rules_style hsel, List.flatMap_cons, List.flatMap_cons, ih, Rule.declarations, hcontent.declarations_eq]
    rfl

/-! ### Numerals -/

/-- The whole numbers with too many digits among the lexemes. -/
def overlongs (ls : List Lexeme) : List Text := ls.filterMap Lexeme.overlong?

/-- The nodes of an item that are not fixed by its layout. -/
def Item.nodes : Item → List Node
  | .comment _ => []
  | .atRule _ head block => head ++ block.getD []
  | .style selector ds => selector ++ ds.flatMap Declaration.value

/-- The numerals that are too long are those of the one list and those of the other. -/
theorem overlongs_append (ls ms : List Lexeme) : overlongs (ls ++ ms) = overlongs ls ++ overlongs ms :=
  List.filterMap_append

/-- The numerals of nodes that are too long are those of the first nodes and those of the others. -/
theorem overlongs_nodes_append (ns ms : List Node) :
    overlongs (Node.allLexemes (ns ++ ms)) =
      overlongs (Node.allLexemes ns) ++ overlongs (Node.allLexemes ms) := by
  rw [Node.allLexemes_append, overlongs_append]

/-- The numerals of nodes that are too long are those of the first node and those of the others. -/
theorem overlongs_cons (n : Node) (ns : List Node) :
    overlongs (Node.allLexemes (n :: ns)) = overlongs n.lexemes ++ overlongs (Node.allLexemes ns) := by
  rw [Node.allLexemes_cons, overlongs_append]

/-- A separator holds no numeral. -/
theorem overlongs_space {n : Node} (h : n.isSpace = true) : overlongs n.lexemes = [] := by
  unfold Node.isSpace at h
  split at h
  · rw [Node.lexemes]; rfl
  · simp at h

/-- Separators hold no numerals. -/
theorem overlongs_spaces {ns : List Node} (h : AllSpace ns) : overlongs (Node.allLexemes ns) = [] := by
  induction ns with
  | nil => rw [Node.allLexemes_nil]; rfl
  | cons n ns ih =>
    obtain ⟨hn, hns⟩ := List.forall_mem_cons.1 h
    rw [overlongs_cons, overlongs_space hn, ih hns, List.append_nil]

/-- A single character holds no numeral. -/
theorem overlongs_mark (c : Char) : overlongs (Node.mark c).lexemes = [] := by
  rw [Node.mark, Node.lexemes]; rfl

/-- An identifier holds no numeral. -/
theorem overlongs_ident (n : Text) : overlongs (Node.token (.ident n)).lexemes = [] := by
  rw [Node.lexemes]; rfl

/-- The numerals of a block that are too long are those of what is in it. -/
theorem overlongs_block (b : Bracket) (content : List Node) :
    overlongs (Node.block b content).lexemes = overlongs (Node.allLexemes content) := by
  rw [Node.lexemes, overlongs, List.filterMap_cons, List.filterMap_append]
  simp [overlongs, Lexeme.overlong?]

/-- A node of one character holds no numeral. -/
theorem overlongs_literal {n : Node} {s : String} (h : n.isLiteral s = true) : overlongs n.lexemes = [] := by
  unfold Node.isLiteral at h
  split at h
  · rw [Node.lexemes]; rfl
  · simp at h

/-- The mark of importance holds no numeral. -/
theorem IsMarkOf.overlongs_eq {important : Bool} {m : List Node} (h : IsMarkOf important m) :
    overlongs (Node.allLexemes m) = [] := by
  cases h with
  | absent => rw [Node.allLexemes_nil]; rfl
  | given ha _ hb =>
    rw [overlongs_cons, overlongs_nodes_append, overlongs_cons, overlongs_mark, overlongs_ident,
      overlongs_spaces ha, overlongs_spaces hb]
    rfl

/-- The numerals of a declaration are those of its value. -/
theorem Declaration.LaidOut.overlongs_eq {d : Declaration} {ns : List Node} (h : d.LaidOut ns) :
    overlongs (Node.allLexemes ns) = overlongs (Node.allLexemes d.value) := by
  obtain @⟨a, m, -, ha, hm⟩ := h
  rw [overlongs_cons, overlongs_nodes_append, overlongs_cons, overlongs_nodes_append, overlongs_ident,
    overlongs_mark, overlongs_spaces ha, hm.overlongs_eq, List.append_nil]
  rfl

/-- The numerals of a block of declarations are those of their values. -/
theorem Content.overlongs_eq {ds : List Declaration} {ns : List Node} (h : Content ds ns) :
    overlongs (Node.allLexemes ns) = overlongs (Node.allLexemes (ds.flatMap Declaration.value)) := by
  induction h with
  | nil => rfl
  | skip hn _ ih => rw [overlongs_cons, ih, hn.elim overlongs_space overlongs_literal, List.nil_append]
  | last hd => rw [hd.overlongs_eq, List.flatMap_singleton]
  | cons hd _ ih =>
    rw [overlongs_nodes_append, overlongs_cons, overlongs_mark, List.nil_append, hd.overlongs_eq, ih,
      List.flatMap_cons, overlongs_nodes_append]

/-- **The numerals of a style sheet are those of its items.** -/
theorem LaidOut.overlongs_eq {items : List Item} {ns : List Node} (h : LaidOut items ns) :
    overlongs (Node.allLexemes ns) = overlongs (Node.allLexemes (items.flatMap Item.nodes)) := by
  induction h with
  | nil => rfl
  | space hn _ ih => rw [overlongs_cons, overlongs_space hn, List.nil_append, ih]
  | comment _ ih => exact ih
  | @atRule name head ns block items _ _ ih =>
    have hend : overlongs (atRuleEnd block).lexemes = overlongs (Node.allLexemes (block.getD [])) := by
      cases block with
      | none => rw [atRuleEnd, overlongs_mark, Option.getD_none, Node.allLexemes_nil]; rfl
      | some content => exact overlongs_block _ _
    have hkeyword : overlongs (Node.token (.atKeyword name)).lexemes = [] := by rw [Node.lexemes]; rfl
    rw [overlongs_cons, hkeyword, List.nil_append, overlongs_nodes_append, overlongs_cons, hend, ih,
      List.flatMap_cons, Item.nodes, overlongs_nodes_append, overlongs_nodes_append, List.append_assoc]
  | style _ hcontent _ ih =>
    rw [overlongs_nodes_append, overlongs_cons, overlongs_block, hcontent.overlongs_eq, ih,
      List.flatMap_cons, Item.nodes, overlongs_nodes_append, overlongs_nodes_append, List.append_assoc]

/-! ### Texts -/

/-- **The text of a style sheet.**  The body of an at-rule is any text that is read as balanced
pieces; all other pieces are spelled one by one. -/
inductive Printed : List Item → Text → Prop
  | nil : Printed [] []
  | space {c : Char} {t : Text} {items : List Item} : isSpace c = true → Printed items t →
      Printed items (c :: t)
  | comment {b t : Text} {items : List Item} : skipComment (b ++ "*/".toList ++ t) = t →
      Printed items t → Printed (.comment b :: items) ("/*".toList ++ (b ++ "*/".toList ++ t))
  | atRule {name s u rest : Text} {head : List Node} {block : Option (List Node)} {items : List Item} :
      (∀ m ∈ head, endsAtRule m = false) → Spells (.token (.atKeyword name)) s u →
      lexemes u = Node.allLexemes (head ++ [atRuleEnd block]) ++ lexemes rest → Printed items rest →
      Printed (.atRule name head block :: items) (s ++ u)
  | style {selector content : List Node} {ds : List Declaration} {t u rest : Text} {items : List Item} :
      IsSelector selector → Content ds content → Spelled ('\x7b' :: u) (Node.allLexemes selector) t →
      Spelled ('\x7d' :: rest) (Node.allLexemes content) u → Printed items rest →
      Printed (.style selector ds :: items) t

/-- The empty text has no lexemes. -/
theorem lexemes_nil : lexemes [] = [] := by rw [lexemes]

/-- A run of separators is one lexeme. -/
theorem lexemes_space {c : Char} (hc : isSpace c = true) (t : Text) :
    lexemes (c :: t) =
      .token (.space (c :: t.takeWhile isSpace)) :: lexemes (t.dropWhile isSpace) := by
  rw [lexemes_cons, nextLexemes, if_pos hc, List.singleton_append]

/-- Where a node begins with a token, it is this token. -/
theorem Node.allLexemes_eq_token {ns : List Node} {t : Token} {ls : List Lexeme}
    (h : Node.allLexemes ns = .token t :: ls) :
    ∃ ms, ns = .token t :: ms ∧ Node.allLexemes ms = ls := by
  cases ns with
  | nil => simp [Node.allLexemes_nil] at h
  | cons n ns =>
    rw [Node.allLexemes_cons] at h
    cases n with
    | token u =>
      rw [Node.lexemes, List.singleton_append] at h
      obtain ⟨h1, h2⟩ := List.cons.inj h
      exact ⟨ns, by rw [Lexeme.token.inj h1], h2⟩
    | block b content => simp [Node.lexemes] at h
    | call name arguments => simp [Node.lexemes] at h

/-- Separators before a style sheet say nothing. -/
theorem LaidOut.of_space {items : List Item} {n : Node} {ns : List Node} (hn : n.isSpace = true)
    (h : LaidOut items (n :: ns)) : LaidOut items ns := by
  generalize hms : n :: ns = ms at h
  induction h with
  | nil => simp at hms
  | space _ h' _ => rw [(List.cons.inj hms).2]; exact h'
  | comment _ ih => exact .comment (ih hms)
  | atRule _ _ _ => rw [(List.cons.inj hms).1] at hn; simp [Node.isSpace] at hn
  | @style selector content ns' ds items hsel _ _ _ =>
    cases selector with
    | nil => rw [(List.cons.inj hms).1] at hn; simp [Node.isSpace] at hn
    | cons m selector =>
      have := hsel.space m rfl
      rw [← (List.cons.inj hms).1, hn] at this
      exact absurd this (by simp)

/-- **The nodes of a printed style sheet** are laid out as it is. -/
theorem Printed.laidOut {items : List Item} {t : Text} (h : Printed items t) :
    ∃ ns, lexemes t = Node.allLexemes ns ∧ LaidOut items ns := by
  induction h with
  | nil => exact ⟨[], by rw [lexemes_nil, Node.allLexemes_nil], .nil⟩
  | @space c t items hc _ ih =>
    obtain ⟨ns, hns, hlaid⟩ := ih
    by_cases ht : ∃ d u, t = d :: u ∧ isSpace d = true
    · -- the separator joins those that the text begins with
      obtain ⟨d, u, rfl, hd⟩ := ht
      rw [lexemes_space hd] at hns
      obtain ⟨ms, rfl, hms⟩ := Node.allLexemes_eq_token hns.symm
      refine ⟨.token (.space (c :: (d :: u).takeWhile isSpace)) :: ms, ?_, .space rfl (hlaid.of_space rfl)⟩
      rw [lexemes_space hc, Node.allLexemes_cons, Node.lexemes, hms, List.dropWhile_cons_of_pos hd,
        List.singleton_append]
    · refine ⟨.token (.space [c]) :: ns, ?_, .space rfl hlaid⟩
      have hstop : t.takeWhile isSpace = [] ∧ t.dropWhile isSpace = t := by
        cases t with
        | nil => simp
        | cons d u => simpa using ht
      rw [lexemes_space hc, hstop.1, hstop.2, hns, Node.allLexemes_cons, Node.lexemes, List.singleton_append]
  | comment hskip _ ih =>
    obtain ⟨ns, hns, hlaid⟩ := ih
    exact ⟨ns, by rw [lexemes_comment, hskip, hns], .comment hlaid⟩
  | atRule hhead hname hbody _ ih =>
    obtain ⟨ns, hns, hlaid⟩ := ih
    refine ⟨_, ?_, .atRule hhead hlaid⟩
    rw [hname.lexemes_append, hbody, hns, Node.allLexemes_cons, Node.lexemes, Node.allLexemes_append,
      Node.allLexemes_append, Node.allLexemes_cons, Node.allLexemes_cons, Node.allLexemes_nil]
    simp
  | @style selector content ds t u rest items hsel hcontent hs hc _ ih =>
    obtain ⟨ns, hns, hlaid⟩ := ih
    refine ⟨_, ?_, .style hsel hcontent hlaid⟩
    have hopen : lexemes ('\x7b' :: u) = .opens .curly :: lexemes u :=
      (Spells.opens (r := u) .curly).lexemes_append
    have hclose : lexemes ('\x7d' :: rest) = .closes .curly :: lexemes rest :=
      (Spells.closes (r := rest) .curly).lexemes_append
    rw [hs.lexemes_eq, hopen, hc.lexemes_eq, hclose, hns, Node.allLexemes_append, Node.allLexemes_cons,
      Node.lexemes]
    simp

end Css
end ThemeSheet
