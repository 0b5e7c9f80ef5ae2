/-
# Pruning twice

What pruning makes of a source is read again as its rules, and pruning it once more
changes nothing.
-/

import ThemeSheet.Proofs.Css.Rereading

namespace ThemeSheet
namespace Css

/-! ### Clean texts -/

/-- Two clean texts are clean one behind the other. -/
theorem IsClean.append {s t : Text} (hs : IsClean s) (ht : IsClean t) : IsClean (s ++ t) := fun c hc =>
  (List.mem_append.1 hc).elim (hs c) (ht c)

/-- Clean texts are clean together. -/
theorem IsClean.flatMap {α : Type} {l : List α} {f : α → Text} (h : ∀ a ∈ l, IsClean (f a)) :
    IsClean (l.flatMap f) := by
  intro c hc
  obtain ⟨a, ha, hc⟩ := List.mem_flatMap.1 hc
  exact h a ha c hc

/-- A text of printable characters and line feeds is clean. -/
theorem isClean_of_all {t : Text} (h : (t.all fun c => 32 ≤ c.toNat || c == '\n') = true) : IsClean t := by
  intro c hc
  have := List.all_eq_true.1 h c hc
  refine ⟨⟨?_, ?_⟩, ?_⟩ <;> rintro rfl <;> exact absurd this (by decide)

/-- The escape of a line end is clean. -/
theorem isClean_lineEndEscape (c : Char) {w : Text} (hw : IsClean w) :
    IsClean ((lineEndEscape? c).getD w) := by
  unfold lineEndEscape?
  split
  · exact isClean_of_all (t := "\\A ".toList) (by decide)
  · split
    · exact isClean_of_all (t := "\\D ".toList) (by decide)
    · split
      · exact isClean_of_all (t := "\\C ".toList) (by decide)
      · exact hw

/-- A clean character is clean in a string. -/
theorem IsClean.stringChar {c : Char} (h : IsClean [c]) : IsClean (Css.stringChar c) := by
  unfold Css.stringChar
  split
  · exact (isClean_of_all (t := ['\\']) (by decide)).append h
  · exact isClean_lineEndEscape c h

/-- A clean character is clean in an address. -/
theorem IsClean.urlChar {c : Char} (h : IsClean [c]) : IsClean (Css.urlChar c) := by
  unfold Css.urlChar
  split
  · exact (isClean_of_all (t := ['\\']) (by decide)).append h
  · split
    · exact isClean_of_all (by decide)
    · exact isClean_lineEndEscape c h

/-- The characters of a clean text are clean. -/
theorem IsClean.of_mem {t : Text} (h : IsClean t) {c : Char} (hc : c ∈ t) : IsClean [c] := by
  intro d hd
  rw [List.mem_singleton.1 hd]
  exact h c hc

/-- A written code point is clean. -/
theorem isClean_writtenCode (n : Nat) : IsClean (writtenCode n) := by
  intro c hc
  have hhex := (writtenCode_spec n).2.2 c hc
  refine ⟨⟨?_, ?_⟩, ?_⟩ <;> rintro rfl <;> exact absurd hhex (by decide)

/-- **The written form of a piece of a source is clean.** -/
theorem Spells.isClean {l : Lexeme} {s r : Text} (h : Spells l s r) (hs : IsSource s) :
    IsClean l.written := by
  have hclean := hs.isClean
  cases h with
  | ident hn => rwa [hn.written_ident]
  | atKeyword hn => rwa [hn.written_atKeyword]
  | @hash n _ hne hn => rwa [written_hash_eq hn]
  | number => exact hclean
  | percentage => exact hclean
  | @dimension ds u _ hds hu =>
    rw [Lexeme.written, Token.written_dimension]
    refine hs.left.isClean.append ?_
    cases hexp : isExponentLike u with
    | true =>
      rw [hu.writtenUnit_of_exponentLike hexp]
      exact (isClean_of_all (by decide)).append fun c hc => hs.right.isClean c (List.mem_of_mem_tail hc)
    | false =>
      rw [hu.writtenUnit_of_not_exponentLike hexp]
      exact hs.right.isClean
  | escapedUnit => exact absurd hs.noEscape (by simp)
  | bareUnit => exact absurd hs.noEscape (by simp)
  | unicodeRange _ hread =>
    obtain ⟨first, last, rfl⟩ := Spells.isRange hread
    refine IsClean.append (s := 'U' :: '+' :: writtenCode first) ?_ ?_
    · exact (isClean_of_all (t := ['U', '+']) (by decide)).append (isClean_writtenCode first)
    · split
      · simp [IsClean]
      · exact (isClean_of_all (t := ['-']) (by decide)).append (isClean_writtenCode last)
  | @quoted q v =>
    rw [Lexeme.written, Token.written_string]
    have hv : ∀ c ∈ v, IsClean (stringChar c) := fun c hc => (hclean.of_mem (by simp [hc])).stringChar
    exact (isClean_of_all (t := ['"']) (by decide)).append ((IsClean.flatMap hv).append
      (isClean_of_all (by decide)))
  | string => exact hclean
  | @url n a v b =>
    rw [Lexeme.written, Token.written_url]
    have hv : ∀ c ∈ v, IsClean (urlChar c) := fun c hc => (hclean.of_mem (by simp [hc])).urlChar
    exact ((isClean_of_all (by decide)).append (IsClean.flatMap hv)).append (isClean_of_all (by decide))
  | space => exact hclean
  | mark => exact hclean
  | combination => exact hclean
  | opens b => exact hclean
  | closes b => exact hclean
  | calls hn => rwa [hn.written_calls]

/-- A gap is clean. -/
theorem isClean_fusionGap (a b : Option Kind) : IsClean (fusionGap a b) := by
  rcases fusionGap_eq a b with h | h <;> rw [h] <;> exact isClean_of_all (by decide)

/-- Lexemes with clean written forms are clean together. -/
theorem isClean_writtenBehind {ls : List Lexeme} (h : ∀ l ∈ ls, IsClean l.written) (k : Option Kind) :
    IsClean (writtenBehind k ls) := by
  induction ls generalizing k with
  | nil => simp [writtenBehind, IsClean]
  | cons l ls ih =>
    obtain ⟨hl, hls⟩ := List.forall_mem_cons.1 h
    exact ((isClean_fusionGap _ _).append hl).append (ih hls _)

/-- What stands in a source is written as a clean text, and so is what is stripped of it. -/
theorem Stands.isClean_strip {ns : List Node} (h : Stands ns) : IsClean (Text.strip (written ns)) := by
  have hwritten : IsClean (written ns) := by
    rw [written_eq h.ordinary]
    obtain ⟨⟨q, r, hs, hr⟩, -⟩ := h
    refine isClean_writtenBehind (fun l hl => ?_) none
    obtain ⟨s, t, hspells, hsource⟩ := hs.mem hr hl
    exact hspells.isClean hsource
  obtain ⟨a, b, hab, -⟩ := exists_strip (written ns)
  intro c hc
  refine hwritten c ?_
  rw [hab]
  simp [hc]

/-- The line of a declaration that stands in a source is clean. -/
theorem Declaration.Stands.isClean_line {d : Declaration} (h : d.Stands) : IsClean d.line := by
  have himportant : IsClean (if d.important then " !important".toList else []) := by
    split
    · exact isClean_of_all (by decide)
    · simp [IsClean]
  have hname : IsClean (' ' :: ' ' :: d.name) :=
    (isClean_of_all (t := [' ', ' ']) (by decide)).append h.source.isClean
  have hvalue : IsClean (':' :: ' ' :: Text.strip (Css.written d.value)) :=
    (isClean_of_all (t := [':', ' ']) (by decide)).append h.value.isClean_strip
  exact ((hname.append hvalue).append himportant).append (isClean_of_all (by decide))

/-- A rule that is kept is written cleanly. -/
theorem isClean_keptRule {selector : Text} {ds : List Declaration} (hs : IsClean selector)
    (h : ∀ d ∈ ds, d.Stands ∧ d.isKept = true) (hne : ds ≠ []) :
    IsClean (KeptRule.written ⟨selector, ds⟩) := by
  have hlines : IsClean (ds.flatMap fun d => '\n' :: d.line) := .flatMap fun d hd =>
    (isClean_of_all (t := ['\n']) (by decide)).append (h d hd).1.isClean_line
  have hwritten := KeptRule.written_append selector [] hne
  rw [List.append_nil] at hwritten
  rw [hwritten]
  exact hs.append ((isClean_of_all (t := [' ', '\x7b']) (by decide)).append
    (hlines.append (isClean_of_all (by decide))))

/-! ### Rules that stay -/

/-- What is kept of a rule of a source. -/
theorem Rule.Stands.kept {rule : Rule} (h : rule.Stands) {r : KeptRule} (hr : rule.kept? = some r) :
    ∃ selector, IsSelector selector ∧ Css.Stands selector ∧ r.selector = Text.strip (Css.written selector) ∧
      (∀ d ∈ r.declarations, d.Stands ∧ d.isKept = true) ∧ r.declarations ≠ [] ∧
      Text.beginsWith probeSelector r.selector = false := by
  cases rule with
  | atRule => simp [Rule.kept?] at hr
  | style selector content =>
    obtain ⟨hselector, hs, hcontent⟩ := h
    rw [Rule.kept?] at hr
    split at hr
    · simp at hr
    · next hstays =>
      obtain rfl := Option.some.inj hr
      rw [Bool.or_eq_true, not_or, List.isEmpty_iff, Bool.not_eq_true] at hstays
      refine ⟨selector, hselector, hs, rfl, fun d hd => ?_, hstays.2, hstays.1⟩
      obtain ⟨hmem, hkept⟩ := List.mem_filter.1 hd
      exact ⟨hcontent.declarations d hmem, hkept⟩

/-- **The text of the rules that stay is read as rules with the same text,** and their declarations as
what their lines say. -/
theorem reread_keptRules {kept : List KeptRule}
    (h : ∀ r ∈ kept, ∃ rule : Rule, rule.Stands ∧ rule.kept? = some r) :
    ∃ items, List.Forall₂ Declaration.Reread (kept.flatMap KeptRule.declarations) (items.flatMap Item.declarations) ∧
      Printed items (kept.flatMap fun r => r.written ++ ['\n']) ∧
      items.flatMap Item.print = (kept.flatMap fun r => r.written ++ ['\n']) ∧
      Item.overlongs items = [] ∧ IsClean (kept.flatMap fun r => r.written ++ ['\n']) := by
  induction kept with
  | nil =>
    exact ⟨[], .nil, .nil, rfl, by rw [Item.overlongs, List.flatMap_nil, Node.allLexemes_nil]; rfl,
      by simp [IsClean]⟩
  | cons r kept ih =>
    obtain ⟨⟨rule, hrule, hr⟩, hkept⟩ := List.forall_mem_cons.1 h
    obtain ⟨items, hrereads, hprinted, hprint, hnumerals, hclean⟩ := ih hkept
    obtain ⟨selector, hselector, hs, hstrip, hds, hne, hprobe⟩ := hrule.kept hr
    obtain ⟨text, ds⟩ := r
    obtain rfl : text = _ := hstrip
    obtain ⟨item, hreread, hitem, hitem', hread⟩ := reread_rule hselector hs hds hne hprobe
    simp only [List.flatMap_cons, List.append_assoc]
    refine ⟨item :: items, List.rel_append hreread hrereads, hread items _ (.space (by decide) hprinted), ?_, ?_, ?_⟩
    · obtain ⟨r', hr', hwritten⟩ := Option.map_eq_some_iff.1 hitem
      rw [List.flatMap_cons, Item.print_eq, hr', hprint, Option.map_some, Option.getD_some, hwritten,
        List.append_assoc]
    · rw [Item.overlongs, List.flatMap_cons, overlongs_nodes_append, hitem', ← Item.overlongs, hnumerals]
      rfl
    · exact (isClean_keptRule hs.isClean_strip hds hne).append
        ((isClean_of_all (t := ['\n']) (by decide)).append hclean)

/-- **The kept rules, written, are items that print to the same text.** -/
theorem reread_rules {kept : List KeptRule} (h : ∀ r ∈ kept, ∃ rule : Rule, rule.Stands ∧ rule.kept? = some r) :
    ∃ items, Printed items (kept.flatMap fun r => r.written ++ ['\n']) ∧
      items.flatMap Item.print = (kept.flatMap fun r => r.written ++ ['\n']) ∧
      Item.overlongs items = [] ∧ IsClean (kept.flatMap fun r => r.written ++ ['\n']) := by
  obtain ⟨items, -, hitems⟩ := reread_keptRules h
  exact ⟨items, hitems⟩

/-! ### The whole style sheet -/

/-- **Pruning a pruned style sheet changes nothing,** as long as the first one has no backslashes, no
comments, no blanks but spaces, tabs and line feeds, and only whole tokens. -/
theorem prune_prune {css : Text} (hescape : '\\' ∉ css) (hcomment : ¬ ∃ a b, css = a ++ "/*".toList ++ b)
    (hblank : ∀ c ∈ css, isBlank c = true → c = ' ' ∨ c = '\t' ∨ c = '\n')
    (hwhole : ∀ t, .token t ∈ Node.allLexemes (Node.ofText css) → t.isWhole = true) :
    (prune css).bind prune = prune css := by
  have hspace : ∀ c ∈ css, isBlank c = true → isSpace c = true := by
    intro c hc hb
    rcases hblank c hc hb with rfl | rfl | rfl <;> decide
  cases hnumeral : (lexemes (normalise css)).findSome? Lexeme.overlong? with
  | some numeral => rw [prune, hnumeral]; rfl
  | none =>
    have hnumerals : overlongs (lexemes (normalise css)) = [] :=
      List.filterMap_eq_nil_iff.2 (List.findSome?_eq_none_iff.1 hnumeral)
    have hstands := stands_ofText hescape hcomment hspace hwhole hnumerals
    have hkept : ∀ r ∈ (rules (Node.ofText css)).filterMap Rule.kept?,
        ∃ rule : Rule, rule.Stands ∧ rule.kept? = some r := by
      intro r hr
      obtain ⟨rule, hrule, hkept⟩ := List.mem_filterMap.1 hr
      exact ⟨rule, hstands.rules rule hrule, hkept⟩
    obtain ⟨items, hprinted, hprint, hoverlongs, hclean⟩ := reread_rules hkept
    rw [← pruned_eq] at hprinted hprint hclean
    have hok : prune css = .ok (pruned css) := by rw [prune, hnumeral]
    rw [hok]
    rw [← hclean.normalise_eq] at hprinted
    obtain ⟨ns, hns, hlaid⟩ := hprinted.laidOut
    have hagain := hlaid.prune_eq hns
    rw [hoverlongs, hprint] at hagain
    exact hagain

/-- A style sheet with a gap, an escaped unit and a mark of importance, pruned twice. -/
theorem prune_prune_small :
    ((prune "a:nth-child(2n+1) \x7bcolor:1E 'x'!IMPORTANT;top:3\x7d".toList).bind prune).toOption =
      some "a:nth-child(2n/**/+1) \x7b\n  color: 1\\65  \"x\" !important;\n  top: 3;\n\x7d\n".toList := by
  have hwhole : ∀ l ∈ Node.allLexemes (Node.ofText "a:nth-child(2n+1) \x7bcolor:1E 'x'!IMPORTANT;top:3\x7d".toList),
      l.isWhole = true := by
    decide +kernel
  rw [prune_prune (by decide) (by rw [← Text.occursIn_iff]; decide) (by decide) fun t ht => hwhole _ ht]
  decide +kernel

end Css
end ThemeSheet
