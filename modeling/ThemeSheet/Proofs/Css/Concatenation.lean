/-
# Style sheets one behind the other

A style sheet that ends at top level, its last rule closed and no comment or bracket left
open, is read in front of any other text as it is read alone: the lexemes, the nodes and
the rules of both are those of the first one and then those of the second.  So pruning
both at once is pruning each, whatever the second text is.
-/

import ThemeSheet.Proofs.Css.Pruning
import ThemeSheet.Proofs.Css.Seam
import ThemeSheet.Proofs.Css.Trimming

namespace ThemeSheet
namespace Css

/-- **Does the text end inside a comment?** -/
def endsInComment : Text → Bool
  | [] => false
  | c :: t =>
    (c == '/' && t.head? == some '*' && !Text.occursIn "*/".toList (t.drop 1)) || endsInComment (nextLexemes c t).2
termination_by t => t.length
decreasing_by have := nextLexemes_length c t; simp; omega

/-- **Nodes that are whole rules,** separators and the marks around a sheet between them. -/
inductive Complete : List Node → Prop
  | nil : Complete []
  | skip {n : Node} {ns : List Node} (hn : (n.isSpace || isSheetMark n) = true) (rest : Complete ns) :
      Complete (n :: ns)
  | atRule {name : Text} {head ns : List Node} (block : Option (List Node)) (hhead : ∀ m ∈ head, endsAtRule m = false)
      (rest : Complete ns) : Complete (.token (.atKeyword name) :: (head ++ atRuleEnd block :: ns))
  | style {selector ns : List Node} (content : List Node) (hselector : IsSelector selector) (rest : Complete ns) :
      Complete (selector ++ .block .curly content :: ns)

/-- **A style sheet that ends at top level.**  A string or an address that is left open is part of a rule that
is not closed. -/
structure EndsAtTop (css : Text) : Prop where
  comment : endsInComment (normalise css) = false
  levels : ((lexemes (normalise css)).foldl Nesting.push .start).levels = []
  rules : Complete (Node.ofText css)

variable {a b t y : Text} {ls : List Lexeme} {ns ms : List Node}

/-! ### Line ends -/

/-- Line ends are read in each text alone, unless one is cut in half. -/
theorem normalise_append (h : a.getLast? = some '\r' → b.head? ≠ some '\n') :
    normalise (a ++ b) = normalise a ++ normalise b := by
  fun_induction normalise a with
  | case1 => rfl
  | case2 t ih =>
    rw [List.cons_append, List.cons_append, normalise, ih fun ht => h ?_]
    · rfl
    · simp [List.getLast?_cons, ht]
  | case3 c t hpair ih =>
    have hboth : ∀ u, c = '\r' → t ++ b = '\n' :: u → False := by
      intro u hc hu
      cases t with
      | nil => exact h (by rw [hc]; rfl) (by rw [show b = '\n' :: u from hu]; rfl)
      | cons d t => exact hpair t hc (by rw [(List.cons.inj hu).1])
    rw [List.cons_append, normalise.eq_3 _ _ hboth, ih fun ht => h (by simp [List.getLast?_cons, ht]), List.cons_append]

/-- **Between two texts in a row a line ends,** by itself or together with the end of the first one. -/
theorem exists_normalise_seam (a b : Text) : ∃ w, normalise (a ++ '\n' :: b) = normalise a ++ (w ++ normalise b) ∧
    (∀ c ∈ w, isSpace c = true) ∧ Parted (normalise a) (w ++ normalise b) := by
  by_cases hlast : a.getLast? = some '\r'
  · obtain ⟨a, rfl⟩ := List.getLast?_eq_some_iff.1 hlast
    have hfirst : normalise (a ++ ['\r']) = normalise a ++ ['\n'] := normalise_append (by simp)
    have hboth : normalise (a ++ '\r' :: '\n' :: b) = normalise a ++ '\n' :: normalise b := normalise_append (by simp)
    refine ⟨[], ?_, by simp, .inl ?_⟩
    · rw [hfirst, List.append_assoc, List.singleton_append, hboth]
      simp
    · rw [hfirst, List.getLast?_concat]
      rfl
  · exact ⟨['\n'], normalise_append fun h => absurd h hlast, by simp [isSpace], .inr rfl⟩

/-! ### Comments -/

/-- A comment that is closed is skipped alike when the text goes on. -/
theorem skipComment_closed (h : "*/".toList <:+: t) : skipComment (t ++ y) = skipComment t ++ y := by
  fun_induction skipComment t with
  | case1 => exact absurd (List.infix_nil.1 h) (by decide)
  | case2 t => rfl
  | case3 c t hend ih =>
    rcases List.infix_cons_iff.1 h with ⟨r, hr⟩ | h
    · have hr : '*' :: '/' :: r = c :: t := hr
      obtain ⟨rfl, rfl⟩ := List.cons.inj hr
      exact (hend r rfl rfl).elim
    · obtain ⟨d, t, rfl⟩ : ∃ d u, t = d :: u :=
        List.exists_cons_of_ne_nil fun hnil => absurd (List.infix_nil.1 (hnil ▸ h)) (by decide)
      rw [List.cons_append, skipComment, ih h]
      rintro u hc hu
      exact hend t hc (by rw [(List.cons.inj hu).1])

/-! ### Nodes -/

/-- More nodes at the beginning of the outermost level. -/
def Nesting.under (below : List Node) : List Level → List Node → Nesting
  | [], inner => ⟨[], inner ++ below⟩
  | level :: outer, inner =>
    let around := Nesting.under below outer level.before
    ⟨⟨level.opener, around.inner⟩ :: around.levels, inner⟩

/-- Adding a node leaves what stands at the beginning of the outermost level. -/
theorem Nesting.under_add (below : List Node) (n : Nesting) (node : Node) :
    under below (n.add node).levels (n.add node).inner = (under below n.levels n.inner).add node := by
  obtain ⟨_ | ⟨level, outer⟩, inner⟩ := n <;> rfl

/-- What stands at the beginning is not looked at. -/
theorem Nesting.under_push (below : List Node) (n : Nesting) (l : Lexeme) :
    under below (n.push l).levels (n.push l).inner = (under below n.levels n.inner).push l := by
  cases l with
  | token t => exact under_add below n _
  | opens b => rfl
  | calls name => rfl
  | closes b =>
    obtain ⟨_ | ⟨level, outer⟩, inner⟩ := n
    · rfl
    · by_cases hb : level.opener.closedBy = b
      · simp only [push, under, if_pos hb]
        exact under_add below ⟨outer, level.before⟩ _
      · simp only [push, under, if_neg hb]
        rfl

/-- Reading lexemes leaves what stands at the beginning of the outermost level. -/
theorem Nesting.under_foldl (below : List Node) (ls : List Lexeme) (n : Nesting) :
    ls.foldl push (under below n.levels n.inner) =
      under below (ls.foldl push n).levels (ls.foldl push n).inner := by
  induction ls generalizing n with
  | nil => rfl
  | cons l ls ih => rw [List.foldl_cons, List.foldl_cons, ← under_push, ih]

/-- What stands at the beginning of the outermost level comes first at the end. -/
theorem Nesting.finish_under (below : List Node) (levels : List Level) (inner : List Node) :
    (under below levels inner).finish = below.reverse ++ close levels inner := by
  induction levels generalizing inner with
  | nil => simp [under, finish, close]
  | cons level outer ih =>
    have hadd := under_add below ⟨outer, level.before⟩ (level.opener.node inner.reverse)
    have hfinish := ih (level.opener.node inner.reverse :: level.before)
    rw [show under below outer (level.opener.node inner.reverse :: level.before) = _ from hadd] at hfinish
    exact hfinish

/-- **Where no level is open, the nodes of what follows stand by themselves.** -/
theorem Node.ofLexemes_append (h : (ls.foldl Nesting.push .start).levels = []) (ms : List Lexeme) :
    ofLexemes (ls ++ ms) = ofLexemes ls ++ ofLexemes ms := by
  generalize hn : ls.foldl Nesting.push .start = n at h
  obtain ⟨levels, inner⟩ := n
  obtain rfl : levels = [] := h
  have hstart : (⟨[], inner⟩ : Nesting) = Nesting.under inner Nesting.start.levels Nesting.start.inner := rfl
  rw [ofLexemes, List.foldl_append, hn, hstart, Nesting.under_foldl, Nesting.finish_under, ofLexemes, hn]
  rfl

/-! ### Rules -/

/-- A separator or a mark around a sheet is left out between rules. -/
theorem rules_skip_mark {n : Node} (hn : (n.isSpace || isSheetMark n) = true) (ns : List Node) :
    rules (n :: ns) = rules ns := by
  rw [rules.eq_def]
  simp only
  rw [if_pos hn]

/-- **The rules of whole rules and of what follows** are those of both. -/
theorem Complete.rules_append (h : Complete ns) (ms : List Node) :
    Css.rules (ns ++ ms) = Css.rules ns ++ Css.rules ms := by
  induction h with
  | nil => rw [Css.rules]; rfl
  | skip hn _ ih => rw [List.cons_append, rules_skip_mark hn, rules_skip_mark hn, ih]
  | atRule block hhead _ ih =>
    rw [List.cons_append, List.append_assoc, List.cons_append, rules_atRule hhead, rules_atRule hhead, ih,
      List.cons_append]
  | style content hselector _ ih =>
    rw [List.append_assoc, List.cons_append, rules_style hselector, rules_style hselector, ih, List.cons_append]

/-- **The last node of whole rules** ends one, or stands between them. -/
theorem Complete.getLast? (h : Complete ns) {n : Node} (hn : ns.getLast? = some n) :
    (n.isSpace || isSheetMark n) = true ∨ n = .mark ';' ∨ ∃ content, n = .block .curly content := by
  have hrest {front ns : List Node} {m : Node} (hm : m = .mark ';' ∨ ∃ content, m = .block .curly content)
      (hn : (front ++ m :: ns).getLast? = some n) : ns.getLast? = some n ∨
        (n = .mark ';' ∨ ∃ content, n = .block .curly content) := by
    cases ns with
    | nil =>
      rw [List.getLast?_concat] at hn
      exact .inr (Option.some.inj hn ▸ hm)
    | cons m' ns =>
      rw [List.getLast?_append, List.getLast?_cons_cons] at hn
      left
      rwa [List.getLast?_eq_some_getLast (List.cons_ne_nil m' ns)] at hn ⊢
  induction h with
  | nil => exact absurd hn (by simp)
  | @skip m ns hm _ ih =>
    cases ns with
    | nil => exact .inl (Option.some.inj hn ▸ hm)
    | cons m' ns => exact ih (by rwa [List.getLast?_cons_cons] at hn)
  | atRule block _ _ ih =>
    rw [← List.cons_append] at hn
    refine (hrest ?_ hn).elim ih .inr
    cases block with
    | none => exact .inl rfl
    | some content => exact .inr ⟨content, rfl⟩
  | style content _ _ ih => exact (hrest (.inr ⟨content, rfl⟩) hn).elim ih .inr

/-- Separators at the end may be left out. -/
theorem Complete.of_concat {n : Node} (hn : n.isSpace = true) (h : Complete (ns ++ [n])) : Complete ns := by
  have hcut {ns front ms : List Node} {m : Node} (hm : m.isSpace = false) (h : ns ++ [n] = front ++ m :: ms) :
      ∃ ms', ms = ms' ++ [n] ∧ ns = front ++ m :: ms' := by
    rcases List.eq_nil_or_concat' ms with rfl | ⟨ms', x, rfl⟩
    · obtain ⟨-, he⟩ := List.append_inj' h rfl
      rw [(List.cons.inj he).1, hm] at hn
      exact Bool.noConfusion hn
    · rw [← List.cons_append, ← List.append_assoc] at h
      obtain ⟨rfl, he⟩ := List.append_inj' h rfl
      exact ⟨ms', by rw [(List.cons.inj he).1], rfl⟩
  generalize hms : ns ++ [n] = ms at h
  induction h generalizing ns with
  | nil => exact absurd hms (by simp)
  | @skip m ms hm rest ih =>
    cases ns with
    | nil => exact .nil
    | cons m' ns =>
      obtain ⟨rfl, htail⟩ := List.cons.inj hms
      exact .skip hm (ih htail)
  | @atRule name head ms block hhead rest ih =>
    have hend : (atRuleEnd block).isSpace = false := by cases block <;> rfl
    rw [← List.cons_append] at hms
    obtain ⟨ms', rfl, rfl⟩ := hcut hend hms
    exact .atRule block hhead (ih rfl)
  | @style selector ms content hselector rest ih =>
    obtain ⟨ms', rfl, rfl⟩ := hcut rfl hms
    exact .style content hselector (ih rfl)

/-- Whole rules stay whole without the separators behind them. -/
theorem Complete.of_spaces (hms : AllSpace ms) (h : Complete (ns ++ ms)) : Complete ns := by
  induction ms using List.reverseRecOn with
  | nil => rwa [List.append_nil] at h
  | append_singleton ms n ih =>
    rw [← List.append_assoc] at h
    exact ih (fun m hm => hms m (List.mem_append_left _ hm)) (h.of_concat (hms n (by simp)))

/-! ### The last lexeme -/

/-- A node that is a character is the token of this character. -/
theorem Node.eq_literal {n : Node} {s : String} (h : n.isLiteral s = true) : n = .token (.literal s.toList) := by
  unfold Node.isLiteral at h
  split at h
  · rw [beq_iff_eq.1 h]
  · exact Bool.noConfusion h

/-- The lexemes that end a rule, and the marks around a sheet. -/
def ruleEnds : List Lexeme :=
  .closes .curly :: [";", "<!--", "-->"].map fun s => .token (.literal s.toList)

/-- May the lexeme end a rule, or stand between two? -/
def Lexeme.mayEnd : Lexeme → Bool
  | .closes _ => true
  | .token (.literal _) => true
  | .token (.space _) => true
  | _ => false

/-- A lexeme that ends a rule, or a separator. -/
def Lexeme.IsLast (l : Lexeme) : Prop := l ∈ ruleEnds ∨ ∃ run, l = .token (.space run)

/-- A lexeme that ends a rule may end one. -/
theorem Lexeme.IsLast.mayEnd {l : Lexeme} (h : l.IsLast) : l.mayEnd = true := by
  rcases h with h | ⟨run, rfl⟩
  · simp only [ruleEnds, List.map_cons, List.map_nil, List.mem_cons, List.not_mem_nil, or_false] at h
    rcases h with rfl | rfl | rfl | rfl <;> rfl
  · rfl

/-- **A text of whole rules ends in a lexeme that ends a rule,** or in a separator. -/
theorem isLast_of_complete {l : Lexeme} (hlevels : ((ls ++ [l]).foldl Nesting.push .start).levels = [])
    (h : Complete (Node.ofLexemes (ls ++ [l]))) : l.IsLast := by
  rw [Node.ofLexemes] at h
  rw [List.foldl_append, List.foldl_cons, List.foldl_nil] at hlevels h
  generalize ls.foldl Nesting.push .start = n at hlevels h
  have hlast {node : Node} {m : Nesting} (hm : m.levels = []) (hc : Complete (m.add node).finish) :
      (node.isSpace || isSheetMark node) = true ∨ node = .mark ';' ∨ ∃ content, node = .block .curly content := by
    obtain ⟨levels, inner⟩ := m
    obtain rfl : levels = [] := hm
    exact hc.getLast? (by simp [Nesting.add, Nesting.finish, Nesting.close])
  cases l with
  | token t =>
    rcases hlast (m := n) hlevels h with hskip | hmark | ⟨content, hblock⟩
    · rw [Bool.or_eq_true, isSheetMark, Bool.or_eq_true] at hskip
      rcases hskip with hspace | hsheet | hsheet
      · obtain ⟨run, hrun⟩ := Node.eq_space hspace
        exact .inr ⟨run, by rw [Node.token.inj hrun]⟩
      · rw [Node.token.inj (Node.eq_literal hsheet)]
        exact .inl (by decide)
      · rw [Node.token.inj (Node.eq_literal hsheet)]
        exact .inl (by decide)
    · rw [Node.token.inj hmark]
      exact .inl (by decide)
    · exact absurd hblock (by simp)
  | opens b => exact absurd hlevels (List.cons_ne_nil _ _)
  | calls name => exact absurd hlevels (List.cons_ne_nil _ _)
  | closes b =>
    obtain ⟨_ | ⟨⟨o, before⟩, outer⟩, inner⟩ := n
    · -- a stray bracket ends no rule
      rcases hlast (m := ⟨[], inner⟩) rfl h with hskip | hmark | ⟨content, hblock⟩
      · exact Bool.noConfusion hskip
      · exact absurd (Node.token.inj hmark) (by simp)
      · exact absurd hblock (by simp)
    · by_cases hb : o.closedBy = b
      · simp only [Nesting.push, if_pos hb] at hlevels h
        obtain rfl : outer = [] := hlevels
        have hnode := hlast (m := ⟨[], before⟩) rfl h
        cases o with
        | bracket b' =>
          rcases hnode with hskip | hmark | ⟨content, hblock⟩
          · exact Bool.noConfusion hskip
          · exact absurd hmark (by simp [Opener.node, Node.mark])
          · obtain ⟨rfl, -⟩ := Node.block.inj hblock
            exact .inl (hb ▸ by decide)
        | call name =>
          rcases hnode with hskip | hmark | ⟨content, hblock⟩
          · exact Bool.noConfusion hskip
          · exact absurd hmark (by simp [Opener.node, Node.mark])
          · exact absurd hblock (by simp [Opener.node])
      · simp only [Nesting.push, if_neg hb] at hlevels
        exact absurd hlevels (List.cons_ne_nil _ _)

/-! ### Readers that end no rule -/

/-- No token of a string may end a rule. -/
theorem mayEnd_quoted {quote : Char} {before : Text} :
    ∀ tok ∈ (quoted quote before t).1, (Lexeme.token tok).mayEnd = false := by
  fun_induction quoted quote before t with
  | case1 => simp [Lexeme.mayEnd]
  | case2 => simp [Lexeme.mayEnd]
  | case3 => simp [Lexeme.mayEnd]
  | case4 before r _ ih => exact ih
  | case5 before d r _ _ ih => exact ih
  | case6 => simp [Lexeme.mayEnd]
  | case7 before c t _ _ _ ih => exact ih

/-- No token of an address without quotes may end a rule. -/
theorem mayEnd_bareUrl {before : Text} : ∀ tok ∈ (bareUrl before t).1, (Lexeme.token tok).mayEnd = false := by
  have hclose (value u : Text) : ∀ tok ∈ (closeUrl value u).1, (Lexeme.token tok).mayEnd = false := by
    unfold closeUrl
    split
    · simp [Lexeme.mayEnd]
    · split <;> simp [Lexeme.mayEnd]
  fun_induction bareUrl before t with
  | case1 => simp [Lexeme.mayEnd]
  | case2 => simp [Lexeme.mayEnd]
  | case3 => exact hclose _ _
  | case4 _ _ _ _ _ _ ih => exact ih
  | case5 => simp [Lexeme.mayEnd]
  | case6 _ _ _ _ _ _ _ ih => exact ih

/-- No token of an address may end a rule. -/
theorem mayEnd_url? {read : List Token × Text} (h : url? t = some read) :
    ∀ tok ∈ read.1, (Lexeme.token tok).mayEnd = false := by
  unfold url? at h
  split at h
  · obtain rfl := Option.some.inj h
    simp [Lexeme.mayEnd]
  · split at h
    · exact absurd h (by simp)
    · obtain rfl := Option.some.inj h
      exact mayEnd_bareUrl

/-- Nothing that begins with a name may end a rule. -/
theorem ReadsIdent.mayEnd {read : List Lexeme × Text} (h : ReadsIdent t read) : ∀ l ∈ read.1, l.mayEnd = false := by
  cases h with
  | address hname hurl hread => exact List.forall_mem_map.2 (mayEnd_url? hread)
  | call hname hquoted => simp [Lexeme.mayEnd]
  | ident hname hr => simp [Lexeme.mayEnd]

/-- Nothing that begins with a numeral may end a rule. -/
theorem ReadsNumber.mayEnd {ds : Text} {read : List Lexeme × Text} (h : ReadsNumber ds t read) :
    ∀ l ∈ read.1, l.mayEnd = false := by
  cases h <;> simp [Lexeme.mayEnd]

/-- **A mark that ends a rule is read as such,** whatever follows. -/
theorem ReadsMark.of_isLast {c : Char} {l : Lexeme} {read : List Lexeme × Text} (h : ReadsMark c t read)
    (hmem : l ∈ read.1) (hl : l.IsLast) : ∃ s r, c :: t = s ++ r ∧ read = ([l], r) ∧ ∀ y, Spells l s y := by
  have hend := hl.mayEnd
  cases h with
  | opens b =>
    rw [List.mem_singleton.1 hmem] at hend
    exact Bool.noConfusion hend
  | closes b =>
    obtain rfl := List.mem_singleton.1 hmem
    exact ⟨[b.closing], t, rfl, rfl, fun y => .closes b⟩
  | atKeyword hs =>
    rw [List.mem_singleton.1 hmem] at hend
    exact Bool.noConfusion hend
  | hash hs =>
    rw [List.mem_singleton.1 hmem] at hend
    exact Bool.noConfusion hend
  | quoted hq =>
    obtain ⟨tok, htok, rfl⟩ := List.mem_map.1 hmem
    rw [mayEnd_quoted tok htok] at hend
    exact Bool.noConfusion hend
  | comment u => exact absurd hmem List.not_mem_nil
  | sheetMark u =>
    obtain rfl := List.mem_singleton.1 hmem
    exact ⟨"<!--".toList, u, rfl, rfl, fun y => .combination (by decide)⟩
  | bar u =>
    obtain rfl := List.mem_singleton.1 hmem
    exact absurd hl (by simp [Lexeme.IsLast, ruleEnds])
  | equals hj =>
    obtain rfl := List.mem_singleton.1 hmem
    exact absurd hl (by simp [Lexeme.IsLast, ruleEnds])
  | alone ha =>
    obtain rfl := List.mem_singleton.1 hmem
    have hc : c = ';' := by simpa [Lexeme.IsLast, ruleEnds] using hl
    exact ⟨[c], t, rfl, rfl, spells_mark (.inr (.inl hc))⟩

/-- **What ends a rule is read as such,** whatever follows. -/
theorem nextLexemes_of_isLast {c : Char} {l : Lexeme} (hc : isSpace c = false) (h : l ∈ (nextLexemes c t).1)
    (hl : l.IsLast) : ∃ s r, c :: t = s ++ r ∧ nextLexemes c t = ([l], r) ∧ ∀ y, Spells l s y := by
  have hend := hl.mayEnd
  have hreads := reads c t
  generalize nextLexemes c t = read at h hreads ⊢
  cases hreads with
  | space hspace => exact absurd hspace (by simp [hc])
  | @range _ u hrange =>
    obtain ⟨first, last, htok, -⟩ := unicodeRange_spec u
    rw [List.mem_singleton.1 h, htok] at hend
    exact Bool.noConfusion hend
  | arrow u =>
    obtain rfl := List.mem_singleton.1 h
    exact ⟨"-->".toList, u, rfl, rfl, fun y => .combination (by decide)⟩
  | ident hplain hi hread =>
    rw [hread.mayEnd l h] at hend
    exact Bool.noConfusion hend
  | number hplain hi hn hread =>
    rw [hread.mayEnd l h] at hend
    exact Bool.noConfusion hend
  | mark hplain hi hn hread => exact hread.of_isLast h hl

/-- A string is read as a token at least. -/
theorem quoted_ne_nil (quote : Char) (before t : Text) : (quoted quote before t).1 ≠ [] := by
  fun_induction quoted quote before t with
  | case4 _ _ _ ih => exact ih
  | case5 _ _ _ _ _ ih => exact ih
  | case7 _ _ _ _ _ _ ih => exact ih
  | _ => simp

/-- An address without quotes is read as a token at least. -/
theorem bareUrl_ne_nil (before t : Text) : (bareUrl before t).1 ≠ [] := by
  fun_induction bareUrl before t with
  | case3 =>
    unfold closeUrl
    split
    · simp
    · split <;> simp
  | case4 _ _ _ _ _ _ ih => exact ih
  | case6 _ _ _ _ _ _ _ ih => exact ih
  | _ => simp

/-- What begins with a name is read as a lexeme at least. -/
theorem ReadsIdent.ne_nil {read : List Lexeme × Text} (h : ReadsIdent t read) : read.1 ≠ [] := by
  cases h with
  | @address n inner _ tokens hname hurl hread =>
    refine mt List.map_eq_nil_iff.1 ?_
    rintro rfl
    unfold url? at hread
    split at hread
    · exact absurd hread (by simp)
    · split at hread
      · exact absurd hread (by simp)
      · exact bareUrl_ne_nil _ _ (congrArg Prod.fst (Option.some.inj hread))
  | call hname hquoted => exact List.cons_ne_nil _ _
  | ident hname hr => exact List.cons_ne_nil _ _

/-- **Only a comment leaves no lexeme.** -/
theorem nextLexemes_eq_nil {c : Char} (h : (nextLexemes c t).1 = []) : c = '/' ∧ ∃ r, t = '*' :: r := by
  have hreads := reads c t
  generalize nextLexemes c t = read at h hreads
  cases hreads with
  | ident hplain hi hread => exact absurd h hread.ne_nil
  | number hplain hi hn hread => cases hread <;> exact absurd h (List.cons_ne_nil _ _)
  | mark hplain hi hn hread =>
    cases hread with
    | comment u => exact ⟨rfl, u, rfl⟩
    | quoted hq => exact absurd (List.map_eq_nil_iff.1 h) (quoted_ne_nil c [] t)
    | _ => exact absurd h (List.cons_ne_nil _ _)
  | _ => exact absurd h (List.cons_ne_nil _ _)

/-! ### The lexemes of both -/

/-- The last piece of a text, a closed comment or what ends a rule, is read alike in front of anything. -/
theorem lexemes_last {c : Char} (hc : isSpace c = false) (hrest : (nextLexemes c t).2 = [])
    (hclosed : c = '/' → t.head? = some '*' → Text.occursIn "*/".toList (t.drop 1) = true)
    (hlast : ∀ l, (nextLexemes c t).1.getLast? = some l → l.IsLast) (y : Text) :
    lexemes (c :: t ++ y) = (nextLexemes c t).1 ++ lexemes y := by
  rcases List.eq_nil_or_concat' (nextLexemes c t).1 with hnil | ⟨front, l, hl⟩
  · obtain ⟨rfl, r, rfl⟩ := nextLexemes_eq_nil hnil
    obtain ⟨before, after, hr⟩ := Text.occursIn_iff.1 (hclosed rfl rfl)
    have hend : "*/".toList <:+: r := ⟨before, after, hr.symm⟩
    have hskip : skipComment r = [] := hrest
    have hread := lexemes_comment (r ++ y)
    rw [skipComment_closed hend, hskip] at hread
    rw [hnil]
    exact hread
  · have hmem : l ∈ (nextLexemes c t).1 := by
      rw [hl]
      exact List.mem_append_right _ (List.mem_singleton_self l)
    obtain ⟨s, r, hs, hread, hspells⟩ := nextLexemes_of_isLast hc hmem (hlast l (by rw [hl, List.getLast?_concat]))
    obtain rfl : r = [] := by rw [hread] at hrest; exact hrest
    rw [List.append_nil] at hs
    rw [hs, hread, (hspells y).lexemes_append, List.singleton_append]

/-- **A text that ends with a rule, a comment or separators is read in front of another one as it is read alone,**
but for the separators at its end. -/
theorem exists_lexemes_seam (h : Parted t y) (hcomment : endsInComment t = false)
    (hlast : ∀ l, (lexemes t).getLast? = some l → l.IsLast) : ∃ ls w, (∀ c ∈ w, isSpace c = true) ∧
      lexemes t = ls ++ lexemes w ∧ lexemes (t ++ y) = ls ++ lexemes (w ++ y) := by
  induction hlen : t.length using Nat.strongRecOn generalizing t with
  | _ n ih =>
    subst hlen
    cases t with
    | nil => exact ⟨[], [], by simp, rfl, rfl⟩
    | cons c t =>
      rw [lexemes_cons] at hlast
      rw [endsInComment, Bool.or_eq_false_iff] at hcomment
      obtain ⟨hhere, hlater⟩ := hcomment
      by_cases hrest : (nextLexemes c t).2 = []
      · rw [hrest, lexemes_nil, List.append_nil] at hlast
        by_cases hspace : isSpace c = true
        · -- the text is a run of separators
          rw [nextLexemes, if_pos hspace] at hrest
          exact ⟨[], c :: t, List.forall_mem_cons.2 ⟨hspace, List.dropWhile_eq_nil_iff.1 hrest⟩, rfl, rfl⟩
        · have hclosed : c = '/' → t.head? = some '*' → Text.occursIn "*/".toList (t.drop 1) = true := by
            rintro rfl hstar
            simpa [hstar] using hhere
          refine ⟨(nextLexemes c t).1, [], by simp, ?_, lexemes_last (by simpa using hspace) hrest hclosed hlast y⟩
          rw [lexemes_cons, hrest]
      · have hlength := nextLexemes_length c t
        have hnext := nextLexemes_of_parted h hrest
        obtain ⟨ls, w, hw, hread, hboth⟩ := ih (nextLexemes c t).2.length (by simp; omega)
          (h.of_suffix (nextLexemes_suffix c t) hrest) hlater
          (fun l hl => hlast l (by rw [List.getLast?_append, hl]; rfl)) rfl
        refine ⟨(nextLexemes c t).1 ++ ls, w, hw, ?_, ?_⟩
        · rw [lexemes_cons, hread, List.append_assoc]
        · rw [List.cons_append, lexemes_cons, hnext, hboth, List.append_assoc]

/-! ### The rules of both -/

/-- The separators at the beginning of a text are one node, if there are any. -/
theorem exists_lexemes_dropWhile (t : Text) :
    ∃ ns, AllSpace ns ∧ lexemes t = Node.allLexemes ns ++ lexemes (t.dropWhile isSpace) := by
  cases t with
  | nil => exact ⟨[], by simp [AllSpace], rfl⟩
  | cons c t =>
    by_cases hc : isSpace c = true
    · refine ⟨[.token (.space (c :: t.takeWhile isSpace))], by simp [AllSpace, Node.isSpace], ?_⟩
      rw [lexemes_space hc, List.dropWhile_cons_of_pos hc, Node.allLexemes_cons, Node.lexemes, Node.allLexemes_nil]
      rfl
    · exact ⟨[], by simp [AllSpace], by rw [List.dropWhile_cons_of_neg hc, Node.allLexemes_nil]; rfl⟩

/-- Separators before rules are left out. -/
theorem rules_spaces (h : AllSpace ns) (ms : List Node) : rules (ns ++ ms) = rules ms := by
  induction ns with
  | nil => rfl
  | cons n ns ih =>
    obtain ⟨hn, hns⟩ := List.forall_mem_cons.1 h
    rw [List.cons_append, rules_skip hn, ih hns]

/-- Lexemes of nodes leave no bracket open. -/
theorem levels_spaces (ns : List Node) : ((Node.allLexemes ns).foldl Nesting.push .start).levels = [] := by
  rw [Nesting.foldl_push_allLexemes]
  rfl

/-- **Separators in front of a text change neither its rules nor its numerals.** -/
theorem reading_spaces {w : Text} (hw : ∀ c ∈ w, isSpace c = true) (t : Text) :
    rules (Node.ofLexemes (lexemes (w ++ t))) = rules (Node.ofLexemes (lexemes t)) ∧
      overlongs (lexemes (w ++ t)) = overlongs (lexemes t) := by
  obtain ⟨ns, hns, hread⟩ := exists_lexemes_dropWhile (w ++ t)
  obtain ⟨ms, hms, hread'⟩ := exists_lexemes_dropWhile t
  rw [List.dropWhile_append_of_pos hw] at hread
  rw [hread, hread']
  constructor
  · rw [Node.ofLexemes_append (levels_spaces ns), Node.ofLexemes_append (levels_spaces ms), Node.ofLexemes_allLexemes,
      Node.ofLexemes_allLexemes, rules_spaces hns, rules_spaces hms]
  · rw [overlongs_append, overlongs_append, overlongs_spaces hns, overlongs_spaces hms]

/-- The last lexeme of a style sheet that ends at top level ends a rule. -/
theorem EndsAtTop.isLast (h : EndsAtTop a) : ∀ l, (lexemes (normalise a)).getLast? = some l → l.IsLast := by
  intro l hl
  obtain ⟨front, hfront⟩ := List.getLast?_eq_some_iff.1 hl
  have hlevels := h.levels
  have hrules := h.rules
  rw [Node.ofText, hfront] at hrules
  rw [hfront] at hlevels
  exact isLast_of_complete hlevels hrules

/-- **The rules and the numerals of two style sheets in a row** are those of both. -/
theorem EndsAtTop.reading_append (h : EndsAtTop a) (b : Text) :
    Css.rules (Node.ofText (a ++ '\n' :: b)) = Css.rules (Node.ofText a) ++ Css.rules (Node.ofText b) ∧
      overlongs (lexemes (normalise (a ++ '\n' :: b))) =
        overlongs (lexemes (normalise a)) ++ overlongs (lexemes (normalise b)) := by
  obtain ⟨w, hsheet, hw, hpart⟩ := exists_normalise_seam a b
  obtain ⟨ls, v, hv, hread, hboth⟩ := exists_lexemes_seam hpart h.comment h.isLast
  have hvw : ∀ c ∈ v ++ w, isSpace c = true := fun c hc => (List.mem_append.1 hc).elim (hv c) (hw c)
  obtain ⟨hrules, hnumerals⟩ := reading_spaces hvw (normalise b)
  obtain ⟨ns, hns, hspaces⟩ := exists_lexemes_dropWhile v
  rw [List.dropWhile_eq_nil_iff.2 hv, lexemes_nil, List.append_nil] at hspaces
  -- the levels and the rules are closed in front of the separators already
  have hlevels := h.levels
  have hcomplete := h.rules
  rw [Node.ofText] at hcomplete
  rw [hread, hspaces] at hlevels hcomplete
  rw [List.foldl_append, Nesting.foldl_push_allLexemes] at hlevels
  rw [Node.ofLexemes_append hlevels, Node.ofLexemes_allLexemes] at hcomplete
  have hfront := hcomplete.of_spaces hns
  have halone : Css.rules (Node.ofText a) = Css.rules (Node.ofLexemes ls) := by
    rw [Node.ofText, hread, hspaces, Node.ofLexemes_append hlevels, Node.ofLexemes_allLexemes, hfront.rules_append,
      ← List.append_nil ns, rules_spaces hns, Css.rules, List.append_nil]
  rw [hsheet, hboth, ← List.append_assoc v]
  constructor
  · rw [halone, Node.ofText, hsheet, hboth, ← List.append_assoc v, Node.ofLexemes_append hlevels, hfront.rules_append,
      hrules, Node.ofText]
  · rw [hread, overlongs_append, overlongs_append, hnumerals, hspaces, overlongs_spaces hns, List.append_nil]

/-- **Pruning two style sheets in a row is pruning each,** if the first one ends at top level. -/
theorem prune_append (h : EndsAtTop a) (b : Text) :
    prune (a ++ '\n' :: b) = (prune a).bind fun s => (prune b).map (s ++ ·) := by
  obtain ⟨hrules, hnumerals⟩ := h.reading_append b
  have hpruned : pruned (a ++ '\n' :: b) = pruned a ++ pruned b := by
    rw [pruned_eq, pruned_eq, pruned_eq, hrules, List.filterMap_append, List.flatMap_append]
  have hfirst (t : Text) : (lexemes (normalise t)).findSome? Lexeme.overlong? =
      (overlongs (lexemes (normalise t))).head? := List.head?_filterMap.symm
  rw [prune, prune, prune, hpruned, hfirst, hfirst, hfirst, hnumerals, List.head?_append]
  cases (overlongs (lexemes (normalise a))).head? with
  | some numeral => rfl
  | none =>
    cases (overlongs (lexemes (normalise b))).head? with
    | some numeral => rfl
    | none => rfl

/-- The second text may be anything: here it begins with a bracket that closes nothing and ends in a string. -/
theorem prune_append_garbage :
    let first := "<!--a\x7bcolor:red\x7d@m;/*c*/\r".toList
    let second := "\x7d b\x7bborder:1px\x7d\"".toList
    EndsAtTop first ∧ prune (first ++ '\n' :: second) = (prune first).bind fun s => (prune second).map (s ++ ·) := by
  intro first second
  have hlexemes : lexemes (normalise first) = [.token (.literal "<!--".toList), .token (.ident ['a']), .opens .curly,
      .token (.ident "color".toList), .token (.literal [':']), .token (.ident "red".toList), .closes .curly,
      .token (.atKeyword ['m']), .token (.literal [';']), .token (.space ['\n'])] := by
    decide +kernel
  have hnodes : Node.ofText first = .token (.literal "<!--".toList) :: ([.token (.ident ['a'])] ++
      .block .curly [.token (.ident "color".toList), .token (.literal [':']), .token (.ident "red".toList)] ::
      .token (.atKeyword ['m']) :: ([] ++ atRuleEnd none :: [.token (.space ['\n'])])) := by
    rw [Node.ofText, hlexemes]
    rfl
  have hends : EndsAtTop first := by
    refine ⟨by decide +kernel, by rw [hlexemes]; rfl, ?_⟩
    rw [hnodes]
    exact .skip (by decide) (.style _ ⟨by decide, by decide, by decide, by simp⟩
      (.atRule none (by simp) (.skip rfl .nil)))
  exact ⟨hends, prune_append hends second⟩

/-- What is left open in the first text would take in the second one. -/
example : (prune ("a\x7bcolor:red".toList ++ '\n' :: "b\x7bcolor:red\x7d".toList)).toOption ≠
    ((prune "a\x7bcolor:red".toList).bind fun s => (prune "b\x7bcolor:red\x7d".toList).map (s ++ ·)).toOption := by
  decide +kernel

end Css
end ThemeSheet
