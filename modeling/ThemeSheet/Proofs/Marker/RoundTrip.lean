/-
# The markers come back

A style sheet of markers is printed, evaluated and read back.  Whatever definitions
and rules stand in the color file, the definitions of the markers are the last ones
of their names and so are the rules: every variable comes back with its marker and
every shade with the shade of the marker, and nothing else comes back.
-/

import ThemeSheet.Proofs.Marker.Assignment
import ThemeSheet.Proofs.Marker.Discovery
import ThemeSheet.Proofs.Recorded

namespace ThemeSheet
namespace Marker

open Text Variable Less Less.Evaluator MarkerAssignment

/-- **A color file:** it imports nothing, holds no comments, and does not end with a colon, as a
definition without a value would. Definitions end with semicolons and rules with curly brackets. -/
structure IsColorFile (t : Text) : Prop where
  no_import : NoImport t
  no_comment : occursIn "/*".toList t = false
  no_line_comment : hasLineComment true t = false
  closed : endsOpen t = false

/-! ### Evaluating the style sheet -/

/-- What a style sheet is evaluated to, step by step. -/
theorem compileInlined_eq_ok {source t body css : Text} {pairs : List (Text × Text)}
    (hs : splitDefinitions true (dropLineComments true (Css.dropComments t)) = (pairs, body))
    (h : compileInlined source t = .ok css) :
    ∃ plain compiled, replacePaletteCalls (.ofList pairs) source body = .ok plain ∧
      (flatRules plain).mapM (compiledRule (.ofList pairs) source) = .ok compiled ∧
      css = join ['\n'] compiled ++ ['\n'] := by
  rw [compileInlined] at h
  split at h
  · simp at h
  · rw [hs] at h
    obtain ⟨plain, hplain, h⟩ := Fallible.bind_eq_ok.1 h
    obtain ⟨compiled, hcompiled, h⟩ := Fallible.bind_eq_ok.1 h
    exact ⟨plain, compiled, hplain, hcompiled, (Except.ok.inj h).symm⟩

/-- What the value of a rule becomes is a color. -/
theorem isValue_of_gives {defined : Table Text} {source v color : Text}
    (h : Gives defined source v color) : Color.IsValue color := by
  rcases h with ⟨hv, rfl⟩ | ⟨name, n, -, -, -, hcolor⟩
  · exact hv
  · obtain ⟨value, -, hcolor⟩ := Fallible.bind_eq_ok.1 hcolor
    obtain ⟨number, -, hcolor⟩ := Fallible.bind_eq_ok.1 hcolor
    split at hcolor
    · exact isValue_of_shade hcolor
    · simp at hcolor

/-- Where there are markers, something is asked for. -/
theorem asked_ne_nil {entries : List (Text × Text)} (h : entries ≠ []) : asked entries ≠ [] := by
  obtain ⟨e, entries, rfl⟩ := List.exists_cons_of_ne_nil h
  simp [asked]

variable {file source css : Text} {entries : List (Text × Text)}

/-- What stands behind the color file. -/
def markerPart (entries : List (Text × Text)) : Text :=
  definitionLines entries ++ '\n' :: ruleLines (asked entries)

/-- What stands behind the color file is made of the characters of definitions and rules. -/
theorem isSheetChar_markerPart (h : ∀ e ∈ entries, IsVariable e.1 ∧ Color.IsValue e.2) :
    ∀ c ∈ '\n' :: markerPart entries, isSheetChar c = true :=
  isSheetChar_append (s := ['\n']) (by decide) <| isSheetChar_append (isSheetChar_definitionLines h) <|
    isSheetChar_append (s := ['\n']) (by decide) (isSheetChar_ruleLines (asked_spec h))

/-- **The definitions of the markers are the last ones,** and their rules stand at the end. -/
theorem splitDefinitions_stylesheet (hf : IsColorFile file)
    (h : ∀ e ∈ entries, IsVariable e.1 ∧ Color.IsValue e.2) (hne : entries ≠ []) :
    ∃ pairs body,
      splitDefinitions true
          (dropLineComments true (Css.dropComments (file ++ '\n' :: markerPart entries))) =
        (pairs ++ entries, body ++ ruleLines (asked entries)) := by
  have hchars {c : Char} (hc : isSheetChar c = false) : c ∉ '\n' :: markerPart entries :=
    fun hm => Bool.noConfusion ((isSheetChar_markerPart h c hm).symm.trans hc)
  rw [Css.dropComments_of_not_occursIn (Css.occursIn_comment_append hf.no_comment (hchars (by decide))),
    dropLineComments_of_none (hasLineComment_append hf.no_line_comment (hchars (by decide)))]
  obtain ⟨r, hr⟩ : ∃ r, ruleLines (asked entries) = '.' :: r := by
    obtain ⟨e, rest, he⟩ := List.exists_cons_of_ne_nil (asked_ne_nil hne)
    exact ⟨_, by rw [he]; rfl⟩
  obtain ⟨z, hz⟩ : ∃ z, markerPart entries = '@' :: z := by
    obtain ⟨e, rest, rfl⟩ := List.exists_cons_of_ne_nil hne
    obtain ⟨⟨w, hw, -⟩, -⟩ := h e (List.mem_cons_self ..)
    exact ⟨_, by rw [markerPart, definitionLines, List.flatMap_cons, hw]; rfl⟩
  have hrules := splitDefinitions_ruleLines (asked_spec h)
  rw [hr] at hrules
  obtain ⟨own, hown⟩ := splitDefinitions_definitionLines h hrules
  obtain ⟨pairs, body, hs⟩ := splitDefinitions_append hf.closed z true
  refine ⟨pairs, body ++ own, ?_⟩
  rw [hz, hs, ← hz, markerPart, hr, hown, List.append_assoc]

/-- **The evaluated style sheet ends with the colors of the markers and their shades.** -/
theorem compileInlined_stylesheet (hf : IsColorFile file)
    (h : ∀ e ∈ entries, IsVariable e.1 ∧ Color.IsValue e.2) (hd : (entries.map Prod.fst).Nodup)
    (hne : entries ≠ [])
    (hcss : compileInlined source (file ++ '\n' :: markerPart entries) = .ok css) :
    ∃ defined before results, css = before ++ compiledLines results ∧
      (∀ e ∈ entries, defined.get? e.1 = some e.2) ∧
      List.Forall₂ (fun e e' => e'.1 = e.1 ∧ Gives defined source e.2 e'.2) (asked entries) results ∧
      ∀ e ∈ results, IsVariable e.1 ∧ Color.IsValue e.2 := by
  obtain ⟨pairs, body, hs⟩ := splitDefinitions_stylesheet hf h hne
  obtain ⟨plain, compiled, hplain, hcompiled, rfl⟩ := compileInlined_eq_ok hs hcss
  obtain ⟨r, hr⟩ : ∃ r, ruleLines (asked entries) = '.' :: r := by
    obtain ⟨e, rest, he⟩ := List.exists_cons_of_ne_nil (asked_ne_nil hne)
    exact ⟨_, by rw [he]; rfl⟩
  rw [hr] at hplain
  obtain ⟨front, own, hown, rfl⟩ := replaceFallibly_append (staysBefore_paletteCall _ _ r) hplain
  rw [← hr] at hown
  obtain ⟨results, rfl, hall⟩ := replacePaletteCalls_ruleLines (asked_spec h) hown
  have hresults : ∀ e ∈ results, IsVariable e.1 ∧ Color.IsValue e.2 := by
    intro e' he'
    obtain ⟨e, he, hname, hgives⟩ := Fallible.exists_of_mem_right hall he'
    exact ⟨hname ▸ (asked_spec h e he).1, isValue_of_gives hgives⟩
  have hsome : results ≠ [] := fun hnil => asked_ne_nil hne (List.forall₂_nil_right_iff.1 (hnil ▸ hall))
  obtain ⟨before, hbefore⟩ := compiledLines_of_ok hsome hresults hcompiled rfl
  exact ⟨_, before, results, hbefore, fun e he => Table.get?_ofList_append hd he, hall, hresults⟩

/-! ### Reading the colors back -/

/-- The rules are those of the variables and of their shades, in their order. -/
theorem keys_asked (entries : List (Text × Text)) :
    (asked entries).map Prod.fst = (entries.map Prod.fst).flatMap family := by
  rw [asked, List.map_flatMap, List.flatMap_map]
  refine List.flatMap_congr fun e _ => ?_
  rw [List.map_cons, List.map_map, family, shadeNames_eq]
  rfl

/-- Rules and their results have the same names. -/
theorem map_fst_of_forall₂ {r : Text → Text → Prop} {rules results : List (Text × Text)}
    (h : List.Forall₂ (fun e e' => e'.1 = e.1 ∧ r e.2 e'.2) rules results) :
    results.map Prod.fst = rules.map Prod.fst := by
  have hsame := List.forall₂_map_left_iff.2
    (List.forall₂_map_right_iff.2 (h.flip.imp fun _ _ he => he.1))
  rwa [List.forall₂_eq_eq_eq] at hsame

/-- A call is given for one variable and one number. -/
theorem paletteCall_inj {a b k n : Text} (ha : a ≠ [] ∧ ∀ c ∈ a, isNameChar c = true)
    (hb : b ≠ [] ∧ ∀ c ∈ b, isNameChar c = true) (hk : k ≠ [] ∧ ∀ c ∈ k, Unicode.isDigit c = true)
    (hn : n ≠ [] ∧ ∀ c ∈ n, Unicode.isDigit c = true) (h : paletteCall a k = paletteCall b n) :
    a = b ∧ k = n := by
  have hreadA := paletteCall?_paletteCall ha.1 ha.2 hk.1 hk.2 []
  have hreadB := paletteCall?_paletteCall hb.1 hb.2 hn.1 hn.2 []
  rw [h, hreadB] at hreadA
  obtain ⟨rfl, rfl⟩ := Prod.mk.inj (Prod.mk.inj (Option.some.inj hreadA)).1
  exact ⟨rfl, rfl⟩

variable {defined : Table Text} {results : List (Text × Text)}

/-- The call for a shade is no color. -/
theorem paletteCall_not_isValue {name number : Text} : ¬ Color.IsValue (paletteCall name number) :=
  fun h => h.notMem (c := '(') (by decide) (by rw [paletteCall_eq]; simp [paletteOpening])

/-- **A marker is given for a marker.** -/
theorem gives_of_isValue {v color : Text} (hv : Color.IsValue v)
    (h : Gives defined source v color) : color = v := by
  rcases h with ⟨-, rfl⟩ | ⟨name, n, rfl, -⟩
  · rfl
  · exact absurd hv paletteCall_not_isValue

/-- **The shade of the marker is given for a call.** -/
theorem gives_shade {name v color : Text} {n : Nat}
    (hname : name ≠ [] ∧ ∀ c ∈ name, isNameChar c = true) (hn : n ∈ shadeNumbers)
    (hd : defined.get? ('@' :: name) = some v) (hv : Color.IsValue v)
    (h : Gives defined source (paletteCall name (decimalDigits n)) color) :
    ∃ rgb, channels? v = some rgb ∧ shade rgb n = .ok color := by
  have hdigits {k : Nat} (hk : k ∈ shadeNumbers) :
      decimalDigits k ≠ [] ∧ ∀ c ∈ decimalDigits k, Unicode.isDigit c = true :=
    ⟨(shadeNumbers_digits k hk).1, fun c hc => ((shadeNumbers_digits k hk).2.1 c hc).1⟩
  rcases h with ⟨hcall, -⟩ | ⟨name', k, hcall, hname', hk, hcolor⟩
  · exact absurd hcall paletteCall_not_isValue
  · obtain ⟨rfl, hkn⟩ := paletteCall_inj hname hname' (hdigits hn) (hdigits hk) hcall
    exact paletteColor_eq_ok hname hd hv hn (hkn ▸ hcolor)

/-- **The results hold every marker, and the shade of the marker for each of its shades.** -/
theorem results_of_gives (h : ∀ e ∈ entries, IsVariable e.1 ∧ Color.IsValue e.2)
    (hdefined : ∀ e ∈ entries, defined.get? e.1 = some e.2)
    (hall : List.Forall₂ (fun e e' => e'.1 = e.1 ∧ Gives defined source e.2 e'.2)
      (asked entries) results) :
    ∀ e ∈ entries, e ∈ results ∧ ∀ n ∈ shadeNumbers, ∃ rgb text, channels? e.2 = some rgb ∧
      shade rgb n = .ok text ∧ (shadeName e.1 n, text) ∈ results := by
  intro e he
  obtain ⟨hv, hc⟩ := h e he
  constructor
  · obtain ⟨e', he', hname, hgives⟩ := Fallible.exists_of_mem_left hall
      (List.mem_flatMap.2 ⟨e, he, List.mem_cons_self ..⟩)
    rwa [show e = e' from Prod.ext hname.symm (gives_of_isValue hc hgives).symm]
  · intro n hn
    obtain ⟨⟨name, text⟩, he', rfl, hgives⟩ := Fallible.exists_of_mem_left hall
      (List.mem_flatMap.2 ⟨e, he, List.mem_cons_of_mem _ (List.mem_map_of_mem hn)⟩)
    obtain ⟨rgb, hrgb, htext⟩ :=
      gives_shade hv.bareName_spec hn (hv.eq_cons_bareName ▸ hdefined e he) hc hgives
    exact ⟨rgb, text, hrgb, htext, he'⟩

/-! ### The round trip -/

/-- Where the style sheet can be written and compiled, what is discovered in it is the result. -/
theorem compile_of_ok {compiler : Compiler} {m : MarkerAssignment} {sheet : Text}
    {names paths : List Text} (hs : stylesheet file m true = .ok sheet)
    (hc : compiler ⟨sheet, paths, none⟩ = .ok css) (j : Journal) :
    (Recorded.perform (compile compiler file m paths names) j).1 = .ok (discover css (some names)) := by
  rw [compile, Recorded.perform_bind, Recorded.perform_lift, hs]
  dsimp only
  rw [Recorded.perform_bind, Recorded.perform_ask, hc]
  rfl

/-- Where the color file imports nothing, the style sheet is evaluated as it is written. -/
theorem compiler_stylesheet {tree : FileTree} {paths : List Text} (hf : IsColorFile file)
    (h : ∀ e ∈ entries, IsVariable e.1 ∧ Color.IsValue e.2)
    (hcss : Evaluator.compiler tree ⟨file ++ '\n' :: markerPart entries, paths, none⟩ = .ok css) :
    compileInlined unnamedSource (file ++ '\n' :: markerPart entries) = .ok css := by
  have hline : NoStatementEnd ['\n'] := .of_no_semicolon (by decide)
  have hend : NoStatementEnd ('\n' :: markerPart entries) :=
    hline.append <| (noStatementEnd_definitionLines h).append <|
      hline.append (noStatementEnd_ruleLines (asked_spec h))
  obtain ⟨text, htext, hcss⟩ := Fallible.bind_eq_ok.1 hcss
  obtain rfl := Except.ok.inj
    ((inline_of_noImport (hf.no_import.append hend) tree _ (Evaluator.importDepth - 1) _).symm.trans htext)
  exact hcss

/-- **Every theme variable comes back with its marker, and every shade with the shade of the
marker,** and nothing else comes back, whatever the color file defines. -/
theorem compile_ofVariables {tree : FileTree} {names paths : List Text} {d rest : Color.Draws}
    {m : MarkerAssignment} (hn : IsTheme names) (hm : ofVariables names d = .ok (m, rest))
    (hf : IsColorFile file)
    (hok : ∀ sheet, stylesheet file m true = .ok sheet →
      ∃ css, Evaluator.compiler tree ⟨sheet, paths, none⟩ = .ok css)
    (j : Journal) :
    ∃ table,
      (Recorded.perform (compile (Evaluator.compiler tree) file m paths names) j).1 = .ok table ∧
      table.keys.Perm (names.flatMap family) ∧
      ∀ name ∈ names, ∃ color, m.colors.get? name = some color ∧ table.get? name = some color ∧
        ∀ n ∈ shadeNumbers, ∃ rgb text, channels? color = some rgb ∧ shade rgb n = .ok text ∧
          table.get? (shadeName name n) = some text := by
  obtain ⟨hkeys, hdrawn⟩ := ofVariables_eq_ok hm hn.nodup
  cases hentries : m.colors.entries with
  | nil =>
    -- nothing is wanted
    obtain rfl : names = [] := by rw [← hkeys, Table.keys, hentries]; rfl
    obtain ⟨sheet, hsheet⟩ : ∃ sheet, stylesheet file m true = .ok sheet :=
      ⟨_, by rw [stylesheet, hentries]; rfl⟩
    obtain ⟨css, hcss⟩ := hok sheet hsheet
    refine ⟨_, compile_of_ok hsheet hcss j, ?_, by simp⟩
    rw [Table.keys, discover_nil]
    exact .refl _
  | cons first others =>
    have hne : m.colors.entries ≠ [] := by simp [hentries]
    have hspec : ∀ e ∈ m.colors.entries, IsVariable e.1 ∧ Color.IsValue e.2 := fun e he =>
      ⟨hn.isVariable _ (hkeys ▸ List.mem_map_of_mem he), (hdrawn e he).isValue⟩
    have hsheet := stylesheet_eq file (hkeys.symm ▸ hn) hne
    obtain ⟨css, hcss⟩ := hok _ hsheet
    obtain ⟨defined, before, results, rfl, hdefined, hall, hresults⟩ :=
      compileInlined_stylesheet hf hspec m.colors.nodup hne (compiler_stylesheet hf hspec hcss)
    have hnames : results.map Prod.fst = names.flatMap family := by
      rw [← hkeys, Table.keys, ← keys_asked, map_fst_of_forall₂ hall]
    have hsome : results ≠ [] :=
      fun hnil => asked_ne_nil hne (List.forall₂_nil_right_iff.1 (hnil ▸ hall))
    have hperm := discover_compiledLines hresults hn.nodup_families hnames hsome before
    have hfound {k v : Text} (he : (k, v) ∈ results) :
        (discover (before ++ compiledLines results) (some names)).get? k = some v :=
      (Table.mem_entries_iff _).1 (hperm.mem_iff.2 he)
    refine ⟨_, compile_of_ok hsheet hcss j, hnames ▸ hperm.map _, fun name hname => ?_⟩
    obtain ⟨⟨k, color⟩, hcolor, rfl⟩ := List.mem_map.1 (hkeys.symm ▸ hname)
    obtain ⟨hmarker, hshades⟩ := results_of_gives hspec hdefined hall _ hcolor
    refine ⟨color, (Table.mem_entries_iff _).1 hcolor, hfound hmarker, fun n hk => ?_⟩
    obtain ⟨rgb, text, hrgb, htext, he⟩ := hshades n hk
    exact ⟨rgb, text, hrgb, htext, hfound he⟩

/-- A color file that defines a theme variable itself and has rules for the classes of the markers. -/
def overridden : Text := "@a: b;\n.a \x7b color: c; \x7d\n.a-1 \x7b color: @a; \x7d\n".toList

/-- A variable that the color file defines too comes back with its marker. -/
theorem compile_ofVariables_overridden :
    ∃ m rest table, ofVariables ["@a".toList] (.ofScript [42]) = .ok (m, rest) ∧
      (Recorded.perform (compile (Evaluator.compiler (.empty [])) overridden m [] ["@a".toList])
        .empty).1 = .ok table ∧
      table.keys.Perm (family "@a".toList) ∧ table.get? "@a".toList = some "#00002a".toList := by
  let m := MarkerAssignment.empty.assign "@a".toList "#00002a".toList
  have hm : ofVariables ["@a".toList] (.ofScript [42]) = .ok (m, ⟨[], 1, 1⟩) := rfl
  have hn : IsTheme ["@a".toList] :=
    ⟨by decide, fun name hname => ⟨['a'], by simpa using hname, by decide, by decide⟩,
      by decide, by decide⟩
  have hf : IsColorFile overridden :=
    ⟨by decide +kernel, by decide +kernel, by decide +kernel, by decide +kernel⟩
  have hrun : ((stylesheet overridden m true).toOption.all fun sheet =>
      (Evaluator.compiler (.empty []) ⟨sheet, [], none⟩).toOption.isSome) = true := by
    decide +kernel
  obtain ⟨table, htable, hkeys, hcolors⟩ := compile_ofVariables hn hm hf (fun sheet hsheet => by
    rw [hsheet] at hrun
    obtain ⟨css, hcss⟩ := Option.isSome_iff_exists.1 hrun
    refine ⟨css, ?_⟩
    cases hc : Evaluator.compiler (.empty []) ⟨sheet, [], none⟩ with
    | error e => rw [hc] at hcss; simp [Except.toOption] at hcss
    | ok css' => rw [hc] at hcss; exact congrArg Except.ok (Option.some.inj hcss)) .empty
  obtain ⟨color, hcolor, hfound, -⟩ := hcolors "@a".toList (List.mem_singleton.2 rfl)
  refine ⟨m, _, table, hm, htable, by simpa using hkeys, ?_⟩
  rw [hfound, ← hcolor]
  rfl

end Marker
end ThemeSheet
