/-
# The style sheet of markers

The style sheet that is compiled to find colors out is a color file, the definitions
of the theme variables with their markers, and one line for each rule.  Its
definitions are those of the color file and those of the markers, and what remains
ends with the rules.
-/

import ThemeSheet.Proofs.Less.Definition
import ThemeSheet.Proofs.Less.Palette
import ThemeSheet.Proofs.Text.Split

namespace ThemeSheet
namespace Marker

open Text Variable

/-- The definitions of variables, each on a line of its own. -/
def definitionLines (entries : List (Text × Text)) : Text :=
  entries.flatMap fun e => e.1 ++ ": ".toList ++ e.2 ++ ";\n".toList

/-- The rules that give the classes of names values. -/
def ruleLines (rules : List (Text × Text)) : Text := rules.flatMap fun e => markerRule e.1 e.2 ++ ['\n']

/-- The values that are asked for: the marker of every variable, and a call for each of its shades. -/
def asked (entries : List (Text × Text)) : List (Text × Text) :=
  entries.flatMap fun e =>
    e :: shadeNumbers.map fun n => (shadeName e.1 n, paletteCall (bareName e.1) (decimalDigits n))

/-- The rules of a variable give its marker and the calls for its nine shades. -/
theorem markerRules_eq {name color : Text} (h : IsVariable name) (hp : name ≠ primaryShades) :
    markerRules true name color = .ok (markerRule name color ::
      shadeNumbers.map fun n =>
        markerRule (shadeName name n) (paletteCall (bareName name) (decimalDigits n))) := by
  have hshades : (shadeNames name).mapM (fun shade => do
      pure (markerRule shade (← shadeCall shade))) =
        (.ok (shadeNumbers.map fun n => markerRule (shadeName name n)
          (paletteCall (bareName name) (decimalDigits n))) : Except Fault (List Text)) := by
    rw [shadeNames_eq, Fallible.mapM_eq_ok, List.forall₂_map_left_iff, List.forall₂_map_right_iff]
    exact List.forall₂_same.2 fun n hn => Fallible.bind_eq_ok.2 ⟨_, shadeCall_shadeName h hp hn, rfl⟩
  rw [markerRules, if_pos rfl]
  exact Fallible.bind_eq_ok.2 ⟨_, hshades, rfl⟩

/-- **The style sheet of markers** is the color file, the definitions and the rules, each on its
line. -/
theorem stylesheet_eq {m : MarkerAssignment} (file : Text) (h : IsTheme m.colors.keys)
    (hne : m.colors.entries ≠ []) :
    stylesheet file m true =
      .ok (file ++ '\n' ::
        (definitionLines m.colors.entries ++ '\n' :: ruleLines (asked m.colors.entries))) := by
  have hrules : m.colors.entries.mapM (fun e => markerRules true e.1 e.2) =
      .ok (m.colors.entries.map fun e => markerRule e.1 e.2 :: shadeNumbers.map fun n =>
        markerRule (shadeName e.1 n) (paletteCall (bareName e.1) (decimalDigits n))) :=
    Fallible.mapM_of_forall fun e he =>
      have hmem := List.mem_map_of_mem (f := Prod.fst) he
      markerRules_eq (h.isVariable _ hmem) (h.ne_primaryShades hmem)
  have hflat : (m.colors.entries.map fun e => markerRule e.1 e.2 :: shadeNumbers.map fun n =>
      markerRule (shadeName e.1 n) (paletteCall (bareName e.1) (decimalDigits n))).flatten =
      (asked m.colors.entries).map fun e => markerRule e.1 e.2 := by
    rw [asked, List.map_flatMap, List.flatMap_def]
    simp [Function.comp_def]
  have hasked : (asked m.colors.entries).map (fun e => markerRule e.1 e.2) ≠ [] := by
    obtain ⟨e, entries, he⟩ := List.exists_cons_of_ne_nil hne
    rw [he, asked, List.flatMap_cons]
    simp
  have hjoin : join ['\n'] ((asked m.colors.entries).map fun e => markerRule e.1 e.2) ++ ['\n'] =
      ruleLines (asked m.colors.entries) := by
    rw [join_end _ hasked, List.flatMap_map]
    rfl
  refine Fallible.bind_eq_ok.2 ⟨_, hrules, congrArg Except.ok ?_⟩
  rw [hflat, ← hjoin, definitionLines]
  simp

/-! ### Characters of the style sheet -/

/-- A value that a rule asks for: a color, or the call for a shade of a variable. -/
def IsAsked (v : Text) : Prop :=
  Color.IsValue v ∨ ∃ name n, v = paletteCall name (decimalDigits n) ∧ name ≠ [] ∧
    (∀ c ∈ name, isNameChar c = true) ∧ n ∈ shadeNumbers

/-- The rules of the markers ask variables for colors or for shades of variables. -/
theorem asked_spec {entries : List (Text × Text)}
    (h : ∀ e ∈ entries, IsVariable e.1 ∧ Color.IsValue e.2) :
    ∀ e ∈ asked entries, IsVariable e.1 ∧ IsAsked e.2 := by
  intro e he
  obtain ⟨p, hp, he⟩ := List.mem_flatMap.1 he
  obtain ⟨hv, hc⟩ := h p hp
  rcases List.mem_cons.1 he with rfl | he
  · exact ⟨hv, .inl hc⟩
  · obtain ⟨n, hn, rfl⟩ := List.mem_map.1 he
    exact ⟨hv.shadeName hn, .inr ⟨_, n, rfl, hv.bareName_spec.1, hv.bareName_spec.2, hn⟩⟩

/-- What a rule asks for stands on one line. -/
theorem IsAsked.not_lineEnd {v : Text} (h : IsAsked v) : '\n' ∉ v := by
  rcases h with h | ⟨name, n, rfl, -, hname, hn⟩
  · exact h.notMem (by decide)
  · have hnumber := notMem_of_isNameChar (d := '\n')
      (fun c hc => ((shadeNumbers_digits n hn).2.1 c hc).2) (by decide)
    rw [Less.Evaluator.paletteCall_eq]
    exact List.not_mem_append (List.not_mem_append (List.not_mem_append
      (List.not_mem_append (by decide) (notMem_of_isNameChar hname (by decide)))
      (by decide)) hnumber) (by decide)

/-- A character that definitions of markers and rules are made of. -/
def isSheetChar (c : Char) : Bool :=
  isNameChar c || ['@', ':', ';', ' ', '\n', '.', '\x7b', '\x7d', '#', '(', ')', '~', '`', '"',
    ','].contains c

/-- The characters of names are characters of the sheet. -/
theorem isSheetChar_of_isNameChar {w : Text} (hw : ∀ c ∈ w, isNameChar c = true) :
    ∀ c ∈ w, isSheetChar c = true :=
  fun c hc => by rw [isSheetChar, hw c hc, Bool.true_or]

/-- Two texts of such characters are one behind the other. -/
theorem isSheetChar_append {s t : Text} (hs : ∀ c ∈ s, isSheetChar c = true)
    (ht : ∀ c ∈ t, isSheetChar c = true) : ∀ c ∈ s ++ t, isSheetChar c = true :=
  fun c hc => (List.mem_append.1 hc).elim (hs c) (ht c)

/-- Texts of such characters are so together. -/
theorem isSheetChar_flatMap {α : Type} {l : List α} {f : α → Text}
    (h : ∀ a ∈ l, ∀ c ∈ f a, isSheetChar c = true) : ∀ c ∈ l.flatMap f, isSheetChar c = true := by
  intro c hc
  obtain ⟨a, ha, hc⟩ := List.mem_flatMap.1 hc
  exact h a ha c hc

/-- A hexadecimal digit is a name character. -/
theorem isNameChar_of_isHexDigit {c : Char} (h : isHexDigit c = true) : isNameChar c = true := by
  have hdigits : ∀ c ∈ anyHexDigits, isNameChar c = true := by decide +kernel
  exact hdigits c (isHexDigit_iff.1 h)

/-- A color is made of such characters. -/
theorem isSheetChar_of_isValue {v : Text} (h : Color.IsValue v) : ∀ c ∈ v, isSheetChar c = true := by
  obtain ⟨w, rfl, hw⟩ := h
  refine isSheetChar_append (s := ['#']) (by decide) (isSheetChar_of_isNameChar fun c hc => ?_)
  rcases hw c hc with hc | rfl
  · exact isNameChar_of_isHexDigit hc.1
  · decide

/-- A variable is made of such characters. -/
theorem isSheetChar_of_isVariable {name : Text} (h : IsVariable name) :
    ∀ c ∈ name, isSheetChar c = true := by
  obtain ⟨w, rfl, -, hw⟩ := h
  exact isSheetChar_append (s := ['@']) (by decide) (isSheetChar_of_isNameChar hw)

/-- What a rule asks for is made of such characters. -/
theorem isSheetChar_of_isAsked {v : Text} (h : IsAsked v) : ∀ c ∈ v, isSheetChar c = true := by
  rcases h with h | ⟨name, n, rfl, -, hname, hn⟩
  · exact isSheetChar_of_isValue h
  · have hnumber := isSheetChar_of_isNameChar fun c hc => ((shadeNumbers_digits n hn).2.1 c hc).2
    rw [Less.Evaluator.paletteCall_eq]
    exact isSheetChar_append (isSheetChar_append (isSheetChar_append
      (isSheetChar_append (by decide) (isSheetChar_of_isNameChar hname))
      (by decide)) hnumber) (by decide)

/-- The rule of a name with the value it is given. -/
theorem markerRule_eq (name v : Text) : markerRule name v =
    ['.'] ++ bareName name ++ [' ', '\x7b', ' ', 'c', 'o', 'l', 'o', 'r', ':', ' '] ++ v ++
      [';', ' ', '\x7d'] := rfl

/-- The definitions of the markers are made of such characters. -/
theorem isSheetChar_definitionLines {entries : List (Text × Text)}
    (h : ∀ e ∈ entries, IsVariable e.1 ∧ Color.IsValue e.2) :
    ∀ c ∈ definitionLines entries, isSheetChar c = true := by
  refine isSheetChar_flatMap fun e he => ?_
  exact isSheetChar_append (isSheetChar_append
    (isSheetChar_append (isSheetChar_of_isVariable (h e he).1) (by decide))
    (isSheetChar_of_isValue (h e he).2)) (by decide)

/-- The rules of the markers are made of such characters. -/
theorem isSheetChar_ruleLines {rules : List (Text × Text)}
    (h : ∀ e ∈ rules, IsVariable e.1 ∧ IsAsked e.2) :
    ∀ c ∈ ruleLines rules, isSheetChar c = true := by
  refine isSheetChar_flatMap fun e he => ?_
  rw [markerRule_eq]
  have hselector := isSheetChar_of_isNameChar (h e he).1.bareName_spec.2
  exact isSheetChar_append (isSheetChar_append (isSheetChar_append
    (isSheetChar_append (isSheetChar_append (by decide) hselector) (by decide))
    (isSheetChar_of_isAsked (h e he).2)) (by decide)) (by decide)

/-! ### No import statement ends in the style sheet -/

open Less.Evaluator

/-- Name characters are no quotes. -/
theorem noQuote_of_isNameChar {w : Text} (hw : ∀ c ∈ w, isNameChar c = true) :
    ∀ c ∈ w, isQuote c = false := by
  intro c hc
  by_contra hq
  rcases isQuote_iff.1 ((Bool.not_eq_false _).mp hq) with rfl | rfl
  · exact notMem_of_isNameChar hw (by decide) hc
  · exact notMem_of_isNameChar hw (by decide) hc

/-- A color holds no quote. -/
theorem noQuote_of_isValue {v : Text} (h : Color.IsValue v) : ∀ c ∈ v, isQuote c = false := by
  intro c hc
  by_contra hq
  rcases isQuote_iff.1 ((Bool.not_eq_false _).mp hq) with rfl | rfl
  · exact h.notMem (by decide) hc
  · exact h.notMem (by decide) hc

/-- In the definitions of the markers, no semicolon follows a quote. -/
theorem noStatementEnd_definitionLines {entries : List (Text × Text)}
    (h : ∀ e ∈ entries, IsVariable e.1 ∧ Color.IsValue e.2) :
    NoStatementEnd (definitionLines entries) := by
  induction entries with
  | nil => exact .of_no_semicolon (by simp [definitionLines])
  | cons e entries ih =>
    obtain ⟨⟨w, hw, -, hchars⟩, hv⟩ := h e (List.mem_cons_self ..)
    have hline : ∀ c ∈ e.1 ++ ": ".toList ++ e.2 ++ ";\n".toList, isQuote c = false := by
      intro c hc
      simp only [List.mem_append, hw, List.mem_cons] at hc
      rcases hc with (((rfl | hc) | hc) | hc) | hc
      · decide
      · exact noQuote_of_isNameChar hchars c hc
      · exact (by decide : ∀ c ∈ ": ".toList, isQuote c = false) c hc
      · exact noQuote_of_isValue hv c hc
      · exact (by decide : ∀ c ∈ ";\n".toList, isQuote c = false) c hc
    exact (NoStatementEnd.of_no_quote (by simp [hw]) hline).append
      (ih fun e he => h e (List.mem_cons_of_mem _ he))

/-- In the rule of a marker, no semicolon follows a quote. -/
theorem noStatementEnd_markerRule {name v : Text} (hn : IsVariable name) (hv : IsAsked v) :
    NoStatementEnd (markerRule name v ++ ['\n']) := by
  obtain ⟨-, hchars⟩ := hn.bareName_spec
  have hselector : NoStatementEnd
      (['.'] ++ bareName name ++ [' ', '\x7b', ' ', 'c', 'o', 'l', 'o', 'r', ':', ' ']) :=
    .of_no_semicolon <| List.not_mem_append
      (List.not_mem_append (by decide) (notMem_of_isNameChar hchars (by decide))) (by decide)
  have hend : ∀ c ∈ [';', ' ', '\x7d', '\n'], isQuote c = false := by decide
  rcases hv with hv | ⟨base, n, rfl, -, hbase, hk⟩
  · have hvalue : NoStatementEnd (v ++ [';', ' ', '\x7d', '\n']) := by
      refine .of_no_quote ?_ fun c hc => (List.mem_append.1 hc).elim (noQuote_of_isValue hv c) (hend c)
      obtain ⟨w, rfl, -⟩ := hv
      simp
    have := hselector.append hvalue
    rwa [markerRule_eq, List.append_assoc, List.append_assoc]
  · have hnumber := notMem_of_isNameChar (d := ';')
      (fun c hc => ((shadeNumbers_digits n hk).2.1 c hc).2) (by decide)
    have hcall : NoStatementEnd (paletteOpening ++ base ++ paletteMiddle ++ decimalDigits n) :=
      .of_no_semicolon <| List.not_mem_append (List.not_mem_append
        (List.not_mem_append (by decide) (notMem_of_isNameChar hbase (by decide))) (by decide)) hnumber
    have hclose : NoStatementEnd (paletteEnd ++ [';', ' ', '\x7d', '\n']) :=
      .of_no_quote (by decide) (by decide)
    have := (hselector.append hcall).append hclose
    rw [markerRule_eq, paletteCall_eq]
    simpa using this

/-- In the rules of the markers, no semicolon follows a quote. -/
theorem noStatementEnd_ruleLines {rules : List (Text × Text)}
    (h : ∀ e ∈ rules, IsVariable e.1 ∧ IsAsked e.2) : NoStatementEnd (ruleLines rules) := by
  induction rules with
  | nil => exact .of_no_semicolon (by simp [ruleLines])
  | cons e rules ih =>
    obtain ⟨hn, hv⟩ := h e (List.mem_cons_self ..)
    exact (noStatementEnd_markerRule hn hv).append (ih fun e he => h e (List.mem_cons_of_mem _ he))

/-! ### The definitions of the style sheet -/

/-- A definition of a marker is read as it is written. -/
theorem definition?_line {name v t rest : Text} {b : Bool} (hn : IsVariable name) (hv : Color.IsValue v)
    (he : endOfDefinition? (';' :: t) = some (b, rest)) :
    definition? (name ++ ": ".toList ++ v ++ ';' :: t) = some ((name, v), b, rest) := by
  obtain ⟨w, rfl, hne, hw⟩ := hn
  have hvalue : ∀ u : Text, (∀ c ∈ u, c ≠ ';' ∧ c ≠ '\n') →
      definedValue? (u ++ ';' :: t) = some (u, b, rest) := by
    intro u hu
    induction u with
    | nil => rw [List.nil_append, definedValue?, he]
    | cons c u ih =>
      obtain ⟨hc, hc'⟩ := hu c (List.mem_cons_self ..)
      rw [List.cons_append, definedValue?, endOfDefinition?.eq_2 _ (by simpa using hc), if_neg hc',
        ih fun d hd => hu d (List.mem_cons_of_mem _ hd)]
      rfl
  have hv' := hvalue v fun c hc =>
    ⟨fun h => hv.notMem (by decide) (h ▸ hc), fun h => hv.notMem (by decide) (h ▸ hc)⟩
  have hblanks : isBlank ':' = false ∧ isBlank '@' = false ∧ isBlank ' ' = true ∧
      isNameChar ':' = false := by decide
  have htake : (w ++ ':' :: ' ' :: (v ++ ';' :: t)).takeWhile isNameChar = w := by
    rw [List.takeWhile_append_of_pos hw]
    simp [hblanks]
  have hdrop : (w ++ ':' :: ' ' :: (v ++ ';' :: t)).dropWhile isNameChar =
      ':' :: ' ' :: (v ++ ';' :: t) := by
    rw [List.dropWhile_append_of_pos hw]
    simp [hblanks]
  have hstart : (v ++ ';' :: t).dropWhile isBlank = v ++ ';' :: t := by
    obtain ⟨x, rfl, -⟩ := hv
    simp [show isBlank '#' = false by decide]
  have hline : '@' :: w ++ ": ".toList ++ v ++ ';' :: t =
      '@' :: (w ++ ':' :: ' ' :: (v ++ ';' :: t)) := by simp
  rw [hline, definition?]
  simp [htake, hdrop, hblanks, hstart, hne, hv']

/-- A definition leaves the last line end behind it. -/
theorem endOfDefinition?_line {before : Text} {d : Char} (hb : ∀ c ∈ before, isBlank c = true)
    (hd : isBlank d = false) (t : Text) :
    endOfDefinition? (';' :: (before ++ '\n' :: d :: t)) =
      some (decide (before.getLast? = some '\n'), '\n' :: d :: t) := by
  have hall : ∀ c ∈ before ++ ['\n'], isBlank c = true := by
    intro c hc
    rcases List.mem_append.1 hc with hc | hc
    · exact hb c hc
    · rw [List.mem_singleton.1 hc]; decide
  rw [show before ++ '\n' :: d :: t = (before ++ ['\n']) ++ d :: t by simp, endOfDefinition?]
  simp only [takeWhile_blanks hall hd, dropWhile_blanks hall hd, lastCut?_last, Option.map_some]
  rfl

/-- **The definitions of markers are read one after another,** and the rules behind them remain. -/
theorem splitDefinitions_definitionLines {entries : List (Text × Text)}
    (h : ∀ e ∈ entries, IsVariable e.1 ∧ Color.IsValue e.2) {r : Text}
    (hr : splitDefinitions true ('.' :: r) = ([], '.' :: r)) :
    ∃ body, splitDefinitions true (definitionLines entries ++ '\n' :: '.' :: r) =
      (entries, body ++ '.' :: r) := by
  have hdot : isBlank '.' = false := by decide
  have hend : splitDefinitions true ('\n' :: '.' :: r) = ([], '\n' :: '.' :: r) := by
    have hnone : definition? ('\n' :: '.' :: r) = none := by
      simp [definition?, show isBlank '\n' = true by decide, hdot]
    rw [splitDefinitions_of_none (by rw [if_pos rfl, hnone])]
    simp [hr]
  induction entries with
  | nil => exact ⟨['\n'], hend⟩
  | cons e entries ih =>
    obtain ⟨hn, hv⟩ := h e (List.mem_cons_self ..)
    have hline : definitionLines (e :: entries) ++ '\n' :: '.' :: r =
        e.1 ++ ": ".toList ++ e.2 ++ ';' ::
          ('\n' :: (definitionLines entries ++ '\n' :: '.' :: r)) := by
      simp [definitionLines]
    obtain ⟨c, s, hcs⟩ : ∃ c s, definitionLines (e :: entries) ++ '\n' :: '.' :: r = c :: s := by
      obtain ⟨w, hw, -⟩ := hn
      exact ⟨'@', _, by rw [hline, hw]; rfl⟩
    cases entries with
    | nil =>
      have hlast := definition?_line hn hv
        (endOfDefinition?_line (show ∀ c ∈ ['\n'], isBlank c = true by decide) hdot r)
      rw [show ['\n'] ++ '\n' :: '.' :: r = '\n' :: (definitionLines [] ++ '\n' :: '.' :: r)
        from rfl, ← hline, hcs] at hlast
      refine ⟨['\n'], ?_⟩
      rw [hcs, splitDefinitions_of_some hlast]
      simp [hend]
    | cons e' entries =>
      obtain ⟨body, hbody⟩ := ih fun e he => h e (List.mem_cons_of_mem _ he)
      obtain ⟨y, hy⟩ : ∃ y, definitionLines (e' :: entries) ++ '\n' :: '.' :: r = '@' :: y := by
        obtain ⟨⟨w, hw, -⟩, -⟩ := h e' (by simp)
        exact ⟨_, by rw [definitionLines, List.flatMap_cons, hw]; rfl⟩
      have hfirst := definition?_line hn hv
        (endOfDefinition?_line (show ∀ c ∈ [], isBlank c = true by simp)
          (show isBlank '@' = false by decide) y)
      rw [List.nil_append, ← hy, ← hline, hcs] at hfirst
      refine ⟨'\n' :: body, ?_⟩
      rw [hcs, splitDefinitions_of_some hfirst, splitDefinitions_of_none (by simp)]
      simp [hbody]

/-- A line that begins with a class is no definition. -/
theorem splitDefinitions_line {line t : Text} (h : '\n' ∉ line) :
    splitDefinitions true ('.' :: line ++ '\n' :: t) =
      ((splitDefinitions true t).1, '.' :: line ++ '\n' :: (splitDefinitions true t).2) := by
  have hrest : splitDefinitions false (line ++ '\n' :: t) =
      ((splitDefinitions true t).1, line ++ '\n' :: (splitDefinitions true t).2) := by
    induction line with
    | nil => rw [List.nil_append, splitDefinitions_of_none (by simp)]; simp
    | cons c line ih =>
      have hc : ¬ c = '\n' := fun he => h (he ▸ List.mem_cons_self ..)
      rw [List.cons_append, splitDefinitions_of_none (by simp), decide_eq_false hc,
        ih fun hm => h (List.mem_cons_of_mem _ hm)]
      rfl
  have hnone : definition? ('.' :: (line ++ '\n' :: t)) = none := by
    simp [definition?, show isBlank '.' = false by decide]
  rw [List.cons_append, splitDefinitions_of_none (by rw [if_pos rfl, hnone]),
    decide_eq_false (show ¬ ('.' : Char) = '\n' by decide), hrest]
  rfl

/-- The rules of the markers hold no definition. -/
theorem splitDefinitions_ruleLines {rules : List (Text × Text)}
    (h : ∀ e ∈ rules, IsVariable e.1 ∧ IsAsked e.2) :
    splitDefinitions true (ruleLines rules) = ([], ruleLines rules) := by
  induction rules with
  | nil => simp [ruleLines, splitDefinitions]
  | cons e rules ih =>
    obtain ⟨hn, hv⟩ := h e (List.mem_cons_self ..)
    have hline : '\n' ∉ (markerRule e.1 e.2).tail :=
      List.not_mem_append (List.not_mem_append (List.not_mem_append
        (notMem_of_isNameChar hn.bareName_spec.2 (by decide)) (by decide)) hv.not_lineEnd) (by decide)
    have hcons : ruleLines (e :: rules) =
        '.' :: (markerRule e.1 e.2).tail ++ '\n' :: ruleLines rules := by
      simp [ruleLines, markerRule]
    rw [hcons, splitDefinitions_line hline, ih fun e he => h e (List.mem_cons_of_mem _ he)]

end Marker
end ThemeSheet
