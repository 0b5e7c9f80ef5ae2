/-
# Finding out what variables compile to

The compiled rules of the markers are read back one by one.  Rules of the color file
may have classes of the same names, but they stand in front, and the last rule of a
name counts: so every variable is found with its marker and every shade with the
shade of the marker, whatever the color file defines.
-/

import ThemeSheet.Proofs.Marker.Assignment
import ThemeSheet.Proofs.Marker.Compilation
import ThemeSheet.Proofs.Marker.Reading

namespace ThemeSheet
namespace Marker

open Text Variable Less.Evaluator

/-! ### Reading compiled rules -/

/-- A name character is a character of the class. -/
theorem isClassChar_of_isNameChar {c : Char} (h : isNameChar c = true) : isClassChar c = true := by
  rw [isClassChar, h, Bool.true_or]

/-- What stands between class and color, character by character. -/
theorem ruleOpening_eq : ruleOpening =
    ' ' :: '\x7b' :: '\n' :: [' ', ' ', 'c', 'o', 'l', 'o', 'r', ':', ' '] := rfl

/-- **A compiled rule is read as it is written.** -/
theorem compiledRule?_line {name v : Text} (hn : IsVariable name) (hv : Color.IsValue v)
    (t : Text) :
    compiledRule? (selector name ++ compiledBlock v ++ t) =
      some ((bareName name, v), ['\n', '\x7d'] ++ t) := by
  obtain ⟨hne, hname⟩ := hn.bareName_spec
  have hclass : ∀ c ∈ bareName name, isClassChar c = true :=
    fun c hc => isClassChar_of_isNameChar (hname c hc)
  have hblank : isClassChar ' ' = false := by decide
  have hline : selector name ++ compiledBlock v ++ t =
      '.' :: (bareName name ++ (ruleOpening ++ (v ++ ';' :: '\n' :: ('\x7d' :: t)))) := by
    rw [ruleOpening_eq, selector, compiledBlock]
    simp only [List.cons_append, List.append_assoc, List.nil_append]
  have hstop (u : Text) : ruleOpening ++ u =
      ' ' :: ('\x7b' :: '\n' :: [' ', ' ', 'c', 'o', 'l', 'o', 'r', ':', ' '] ++ u) :=
    rfl
  have htake (u : Text) : (bareName name ++ (ruleOpening ++ u)).takeWhile isClassChar =
      bareName name := by
    rw [List.takeWhile_append_of_pos hclass, hstop, List.takeWhile_cons_of_neg (by simp [hblank]),
      List.append_nil]
  have hdrop (u : Text) : (bareName name ++ (ruleOpening ++ u)).dropWhile isClassChar =
      ruleOpening ++ u := by
    rw [List.dropWhile_append_of_pos hclass, hstop, List.dropWhile_cons_of_neg (by simp [hblank])]
  have hcut := lastInLine?_last (show ';' ≠ '\n' by decide)
    (hv.notMem (c := '\n') (by decide)) ('\x7d' :: t)
  rw [hline, compiledRule?]
  rw [htake, hdrop, dropPrefix?_eq_some.2 rfl]
  show (lastInLine? ';' _).bind _ = _
  rw [hcut]
  exact if_neg (by simp [hne])

/-- A rule begins with a point only. -/
theorem compiledRule?_of_ne {c : Char} (h : c ≠ '.') (t : Text) : compiledRule? (c :: t) = none := by
  unfold compiledRule?
  split
  · next he => exact absurd (List.cons.inj he).1 h
  · rfl

/-- **The compiled rules are read one after another.** -/
theorem allMatches_compiledLines {results : List (Text × Text)}
    (h : ∀ e ∈ results, IsVariable e.1 ∧ Color.IsValue e.2) :
    allMatches compiledRule? (compiledLines results) = results.map fun e => (bareName e.1, e.2) := by
  have hskip {c : Char} (hc : c ≠ '.') (t : Text) : allMatches compiledRule? (c :: t) =
      allMatches compiledRule? t := by
    rw [allMatches, compiledRule?_of_ne hc]
  induction results with
  | nil => simp [compiledLines, allMatches]
  | cons e results ih =>
    obtain ⟨hn, hv⟩ := h e (List.mem_cons_self ..)
    have hread := compiledRule?_line hn hv ('\n' :: compiledLines results)
    have hline : compiledLines (e :: results) =
        selector e.1 ++ compiledBlock e.2 ++ '\n' :: compiledLines results := by
      simp [compiledLines]
    rw [hline, List.map_cons]
    obtain ⟨c, s, hcs⟩ : ∃ c s,
        selector e.1 ++ compiledBlock e.2 ++ '\n' :: compiledLines results = c :: s :=
      ⟨'.', _, rfl⟩
    have hlen := congrArg List.length hcs
    rw [hcs] at hread ⊢
    rw [allMatches, hread]
    dsimp only
    rw [if_pos (by simp [selector, compiledBlock] at hlen ⊢; omega)]
    rw [List.cons_append, hskip (by decide), List.cons_append, hskip (by decide), List.nil_append,
      hskip (by decide), ih fun e he => h e (List.mem_cons_of_mem _ he)]

/-- **No rule that begins in front of a class ends behind it.** -/
theorem staysBefore_compiledRule {line z : Text} (hl : ';' ∉ line) :
    StaysBefore compiledRule? ('.' :: line ++ '\n' :: z) := by
  refine staysBefore_of (q := fun p => ∃ name color, p = '.' :: name ++ ruleOpening ++ color ++ [';'] ∧
    (∀ c ∈ name, isClassChar c = true) ∧ '\n' ∉ color) ?_ ?_
  · rintro t ⟨name, color⟩ r h
    obtain ⟨ht, hname, hcolor⟩ := compiledRule?_eq_some h
    exact ⟨_, by rw [ht]; simp, name, color, rfl, hname, hcolor⟩
  · rintro u w r hu hw hz ⟨name, color, hp, hname, hcolor⟩
    obtain ⟨c, u, rfl⟩ := List.exists_cons_of_ne_nil hu
    -- the semicolon stands behind the first line of the second text
    obtain ⟨w', rfl⟩ : ∃ w', w = '.' :: line ++ '\n' :: w' := by
      have hsemi : ';' ∈ w := by
        rcases w.eq_nil_or_concat with rfl | ⟨w, e, rfl⟩
        · exact absurd rfl hw
        · rw [List.concat_eq_append, ← List.append_assoc] at hp
          obtain rfl : e = ';' := by simpa using (List.append_inj' hp rfl).2
          simp
      rcases List.append_eq_append_iff.1 hz with ⟨x, hx, hr⟩ | ⟨x, hx, -⟩
      · cases x with
        | nil =>
          rw [List.append_nil] at hx
          rw [hx] at hsemi
          exact absurd ((List.mem_cons.1 hsemi).resolve_left (by decide)) hl
        | cons y x =>
          obtain ⟨rfl, -⟩ := List.cons.inj hr
          exact ⟨x, hx⟩
      · have : ';' ∈ '.' :: line := by rw [hx]; exact List.mem_append_left _ hsemi
        exact absurd ((List.mem_cons.1 this).resolve_left (by decide)) hl
    have hclass : isClassChar '\n' = false := by decide
    have hsplit : (u ++ '.' :: line) ++ '\n' :: w' =
        (name ++ [' ', '\x7b']) ++ '\n' ::
          ([' ', ' ', 'c', 'o', 'l', 'o', 'r', ':', ' '] ++ color ++ [';']) := by
      have := (List.cons.inj hp).2
      rw [ruleOpening_eq] at this
      simpa only [List.append_eq, List.append_assoc, List.cons_append, List.nil_append] using this
    -- both readings cut the text at its only line feed
    obtain ⟨hfirst, -⟩ := (List.append_cons_inj_of_notMem
      (List.not_mem_append (fun hm => absurd (hname _ hm) (by decide)) (by decide))
      (List.not_mem_append (List.not_mem_append (by decide) hcolor) (by decide))).1 hsplit.symm
    have hdot : '.' ∈ name ++ [' ', '\x7b'] := by rw [hfirst]; simp
    rcases List.mem_append.1 hdot with hdot | hdot
    · exact absurd (hname _ hdot) (by decide)
    · exact absurd hdot (by decide)

/-! ### What is discovered -/

/-- Compiled rules hold no slashes. -/
theorem notMem_compiledLines {results : List (Text × Text)}
    (h : ∀ e ∈ results, IsVariable e.1 ∧ Color.IsValue e.2) : '/' ∉ compiledLines results := by
  intro hm
  obtain ⟨e, he, hm⟩ := List.mem_flatMap.1 hm
  obtain ⟨hn, hv⟩ := h e he
  have hselector : '/' ∉ selector e.1 :=
    List.not_mem_cons_of_ne_of_not_mem (by decide) (notMem_of_isNameChar hn.bareName_spec.2 (by decide))
  have hblock : '/' ∉ compiledBlock e.2 :=
    List.not_mem_append (List.not_mem_append (by decide) (hv.notMem (by decide))) (by decide)
  exact List.not_mem_append (List.not_mem_append hselector hblock) (by decide) hm

/-- A color is kept as it is read. -/
theorem isCompiledColor_of_isValue {v : Text} (h : Color.IsValue v) :
    strip v = v ∧ isCompiledColor v = true := by
  obtain ⟨w, rfl, -⟩ := id h
  constructor
  · simpa using strip_append (a := []) (b := []) (by simp) (fun c hc => h.not_blank hc)
      (by simp) (by simp)
  · simp [isCompiledColor, beginsWith, dropPrefix?]

/-- What a rule that is read back tells of the variables that are wanted. -/
def kept (names : List Text) (rule : Text × Text) : Option (Text × Text) :=
  if isCompiledColor (strip rule.2) && (wanted names).contains ('@' :: rule.1) then
    some ('@' :: rule.1, strip rule.2)
  else none

/-- What is discovered is what the rules that are read back tell of the variables. -/
theorem discover_eq (css : Text) (names : List Text) : discover css (some names) =
    .ofList ((allMatches compiledRule? (Css.dropComments css)).filterMap (kept names)) := rfl

/-- What is kept belongs to one of the variables or its shades. -/
theorem kept_eq_some {names : List Text} {rule e : Text × Text} (h : kept names rule = some e) :
    e.1 ∈ names.flatMap family := by
  obtain ⟨hcond, rfl⟩ := (Option.ite_none_right_eq_some.1 h).imp_right Option.some.inj
  exact mem_wanted_iff.1 (List.contains_iff_mem.1 (Bool.and_eq_true_iff.1 hcond).2)

/-- The rule of a variable that is wanted is kept. -/
theorem kept_bareName {names : List Text} {e : Text × Text} (hn : IsVariable e.1)
    (hv : Color.IsValue e.2) (h : e.1 ∈ names.flatMap family) :
    kept names (bareName e.1, e.2) = some e := by
  obtain ⟨hstrip, hcolor⟩ := isCompiledColor_of_isValue hv
  have hallowed : (wanted names).contains e.1 = true := List.contains_iff_mem.2 (mem_wanted_iff.2 h)
  rw [kept, ← hn.eq_cons_bareName, hallowed, hstrip, hcolor]
  rfl

/-- **The compiled rules at the end of a style sheet are all that is discovered,** if they are those
of the wanted names. -/
theorem discover_compiledLines {names : List Text} {results : List (Text × Text)}
    (h : ∀ e ∈ results, IsVariable e.1 ∧ Color.IsValue e.2) (hd : (names.flatMap family).Nodup)
    (hn : results.map Prod.fst = names.flatMap family) (hne : results ≠ []) (before : Text) :
    (discover (before ++ compiledLines results) (some names)).entries.Perm results := by
  obtain ⟨e, rest, rfl⟩ := List.exists_cons_of_ne_nil hne
  obtain ⟨t', ht'⟩ := Css.dropComments_append (notMem_compiledLines h) before
  have hfirst : ';' ∉ bareName e.1 ++ [' ', '\x7b'] := List.not_mem_append
    (notMem_of_isNameChar (h e (List.mem_cons_self ..)).1.bareName_spec.2 (by decide)) (by decide)
  have hline : compiledLines (e :: rest) = '.' :: (bareName e.1 ++ [' ', '\x7b']) ++ '\n' ::
      ([' ', ' ', 'c', 'o', 'l', 'o', 'r', ':', ' '] ++ e.2 ++ [';', '\n', '\x7d', '\n'] ++
        compiledLines rest) := by
    simp [compiledLines, selector, compiledBlock]
  obtain ⟨found, hfound⟩ := allMatches_append (hline ▸ staysBefore_compiledRule hfirst) t'
  have hkept : ((e :: rest).map fun e => (bareName e.1, e.2)).filterMap (kept names) = e :: rest := by
    rw [List.filterMap_map]
    refine (List.filterMap_congr fun p hp => ?_).trans (List.filterMap_some ..)
    exact kept_bareName (h p hp).1 (h p hp).2 (hn ▸ List.mem_map_of_mem hp)
  rw [discover_eq, ht', hfound, allMatches_compiledLines h, List.filterMap_append, hkept]
  refine Table.ofList_append_perm (hn ▸ hd) fun p hp => ?_
  obtain ⟨rule, -, hp⟩ := List.mem_filterMap.1 hp
  exact hn ▸ kept_eq_some hp

/-- Where no name is wanted, none is discovered. -/
theorem discover_nil (css : Text) : (discover css (some [])).entries = [] := by
  have hnone (rules : List (Text × Text)) : rules.filterMap (kept []) = [] :=
    List.filterMap_eq_nil_iff.2 fun rule _ => by simp [kept, wanted]
  rw [discover_eq, hnone]
  rfl

end Marker
end ThemeSheet
