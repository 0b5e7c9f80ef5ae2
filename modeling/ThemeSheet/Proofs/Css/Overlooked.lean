/-
# Addresses that pruning leaves

The declarations of a pruned style sheet, read again, are those that stayed, with the same
addresses.  So an address is left only where the search for it does not see it: its name
is not in lower case, or it goes on over several lines.
-/

import ThemeSheet.Proofs.Css.Address
import ThemeSheet.Proofs.Css.Idempotence
import ThemeSheet.Proofs.Fallible

namespace ThemeSheet
namespace Css

/-- The declarations of the style rules of a text. -/
def declarationsOf (css : Text) : List Declaration := (rules (Node.ofText css)).flatMap Rule.declarations

/-- The declarations of the style rules of a text that stay when it is pruned. -/
def keptDeclarations (css : Text) : List Declaration :=
  ((rules (Node.ofText css)).filterMap Rule.kept?).flatMap KeptRule.declarations

/-- **A style sheet in plain characters:** it has no backslashes, no comments, no blanks but spaces, tabs
and line feeds, and only whole tokens. -/
structure IsPlainSheet (css : Text) : Prop where
  escape : '\\' ∉ css
  comment : ¬ ∃ a b, css = a ++ "/*".toList ++ b
  blank : ∀ c ∈ css, isBlank c = true → c = ' ' ∨ c = '\t' ∨ c = '\n'
  whole : ∀ t, .token t ∈ Node.allLexemes (Node.ofText css) → t.isWhole = true

/-! ### What stays -/

/-- The declarations of a rule that is kept are kept. -/
theorem Rule.kept?_declarations {rule : Rule} {r : KeptRule} (h : rule.kept? = some r) :
    ∀ d ∈ r.declarations, d.isKept = true := by
  intro d hd
  cases rule with
  | atRule => simp [Rule.kept?] at h
  | style selector content =>
    rw [Rule.kept?] at h
    split at h
    · simp at h
    · obtain rfl := Option.some.inj h
      exact (List.mem_filter.1 hd).2

/-- The declarations that stay when a text is pruned are kept. -/
theorem isKept_of_mem_keptDeclarations {css : Text} : ∀ d ∈ keptDeclarations css, d.isKept = true := by
  intro d hd
  obtain ⟨r, hr, hd⟩ := List.mem_flatMap.1 hd
  obtain ⟨rule, -, hrule⟩ := List.mem_filterMap.1 hr
  exact Rule.kept?_declarations hrule d hd

/-- The nodes of a plain style sheet stand in it if it can be pruned. -/
theorem IsPlainSheet.stands {css out : Text} (hplain : IsPlainSheet css) (h : prune css = .ok out) :
    Stands (Node.ofText css) := by
  have hnumerals : overlongs (lexemes (normalise css)) = [] := by
    rw [prune] at h
    split at h
    · simp at h
    · next hnone => exact List.filterMap_eq_nil_iff.2 (List.findSome?_eq_none_iff.1 hnone)
  refine stands_ofText hplain.escape hplain.comment (fun c hc hb => ?_) hplain.whole hnumerals
  rcases hplain.blank c hc hb with rfl | rfl | rfl <;> decide

/-- What stays of the rules of a source. -/
theorem Stands.exists_rule {ns : List Node} (h : Stands ns) :
    ∀ r ∈ (Css.rules ns).filterMap Rule.kept?, ∃ rule : Rule, rule.Stands ∧ rule.kept? = some r := by
  intro r hr
  obtain ⟨rule, hrule, hkept⟩ := List.mem_filterMap.1 hr
  exact ⟨rule, h.rules rule hrule, hkept⟩

/-- The declarations that stay stand in the source. -/
theorem Stands.of_mem_keptDeclarations {css : Text} (h : Stands (Node.ofText css)) :
    ∀ d ∈ keptDeclarations css, d.Stands := by
  intro d hd
  obtain ⟨r, hr, hd⟩ := List.mem_flatMap.1 hd
  obtain ⟨rule, hrule, hkept⟩ := h.exists_rule r hr
  obtain ⟨-, -, -, -, hds, -⟩ := hrule.kept hkept
  exact (hds d hd).1

/-- What pruning gives is the color rules of the style sheet. -/
theorem pruned_of_prune {css out : Text} (h : prune css = .ok out) : pruned css = out := by
  rw [prune] at h
  split at h
  · simp at h
  · exact Except.ok.inj h

/-- **The declarations of a pruned style sheet are those that stayed,** each read as its line says. -/
theorem reread_declarations {css out : Text} (hstands : Stands (Node.ofText css)) (h : prune css = .ok out) :
    List.Forall₂ Declaration.Reread (keptDeclarations css) (declarationsOf out) := by
  obtain ⟨items, hreread, hprinted, -, -, hclean⟩ := reread_keptRules hstands.exists_rule
  rw [← pruned_eq, pruned_of_prune h] at hprinted hclean
  rw [← hclean.normalise_eq] at hprinted
  obtain ⟨ns, hns, hlaid⟩ := hprinted.laidOut
  rw [declarationsOf, Node.ofText, hns, Node.ofLexemes_allLexemes, hlaid.declarations_eq]
  exact hreread

/-! ### Addresses that stay -/

/-- **An address of a source that is overlooked** is a call, in another letter case or over several
lines: the text ends in none. -/
theorem Stands.overlooked {ns : List Node} (h : Stands ns) {n : Node} (hn : n ∈ Node.allParts ns)
    (hover : n.IsOverlooked) : ∃ name arguments, n = .call name arguments ∧
      (name ≠ "url".toList ∨ '\n' ∈ written arguments) := by
  have hlexemes : n.lexemes ⊆ Node.allLexemes ns := (Node.allLexemes_inside ns hn).subset
  unfold Node.IsOverlooked at hover
  split at hover
  · next v closed =>
    subst hover
    obtain ⟨⟨q, r, hs, hr⟩, -⟩ := h
    obtain ⟨s, t, hspells, -⟩ := hs.mem hr (hlexemes (by rw [Node.lexemes]; exact List.mem_singleton_self _))
    cases hspells with
    | unicodeRange _ hread =>
      obtain ⟨_, _, htok⟩ := Spells.isRange hread
      exact absurd htok (by simp)
  · next name arguments =>
    refine ⟨name, arguments, rfl, ?_⟩
    have hopen : Node.lastEndsInString arguments = false :=
      Node.lastEndsInString_of_ordinary arguments fun l hl => h.ordinary l (hlexemes (by
        rw [Node.lexemes]
        simp [hl]))
    simpa [hopen] using hover
  · exact hover.elim

/-- The name of a declaration, and its addresses as they are written. -/
def Declaration.writtenAddresses (d : Declaration) : Text × List Text :=
  (d.name, d.addresses.map Node.written)

/-- A declaration that is read again has the same addresses. -/
theorem Declaration.Reread.writtenAddresses_eq {d d' : Declaration} (h : d.Reread d') :
    d'.writtenAddresses = d.writtenAddresses := by
  rw [writtenAddresses, writtenAddresses, h.name, Declaration.addresses_soft h.nodes, List.map_map]
  exact congrArg _ (List.map_congr_left fun n _ => n.written_soft)

/-- Declarations that are read again have the same addresses. -/
theorem map_writtenAddresses {ds ds' : List Declaration} (h : List.Forall₂ Declaration.Reread ds ds') :
    ds'.map Declaration.writtenAddresses = ds.map Declaration.writtenAddresses := by
  induction h with
  | nil => rfl
  | cons hd _ ih => rw [List.map_cons, List.map_cons, hd.writtenAddresses_eq, ih]

/-- **Pruning leaves no address but those that its search overlooks.**  In every style sheet, an address in
a declaration that stays is not in lower case, goes on over several lines or is cut off by the end of the
text.  The pruned text of a plain style sheet, read again, has the declarations that stayed with their
addresses, and no others. -/
theorem prune_addresses {css out : Text} (h : prune css = .ok out) :
    (∀ d ∈ keptDeclarations css, ∀ n ∈ d.addresses, n.IsOverlooked) ∧
      (IsPlainSheet css →
        (declarationsOf out).map Declaration.writtenAddresses =
            (keptDeclarations css).map Declaration.writtenAddresses ∧
          ∀ d ∈ declarationsOf out, ∀ n ∈ d.addresses, ∃ name arguments,
            n = .call name arguments ∧ (name ≠ "url".toList ∨ '\n' ∈ written arguments)) := by
  have hover : ∀ d ∈ keptDeclarations css, ∀ n ∈ d.addresses, n.IsOverlooked := fun d hd =>
    Declaration.isOverlooked_of_isKept (isKept_of_mem_keptDeclarations d hd)
  refine ⟨hover, fun hplain => ?_⟩
  have hstands := hplain.stands h
  have hreread := reread_declarations hstands h
  refine ⟨map_writtenAddresses hreread, fun d' hd' n' hn' => ?_⟩
  obtain ⟨d, hd, hdd'⟩ := Fallible.exists_of_mem_right hreread hd'
  rw [Declaration.addresses_soft hdd'.nodes] at hn'
  obtain ⟨n, hn, rfl⟩ := List.mem_map.1 hn'
  have hvalue := (hstands.of_mem_keptDeclarations d hd).value
  obtain ⟨name, arguments, rfl, hcall⟩ := hvalue.overlooked (List.mem_filter.1 hn).1 (hover d hd n hn)
  refine ⟨name, Node.allSoft arguments, by rw [Node.soft], ?_⟩
  rwa [written, Node.writtenAll_allSoft]

/-- The address in capitals is what is left when the text is pruned and read again. -/
theorem prune_addresses_nested :
    (declarationsOf "a \x7b\n  border-image: f(URL(\"y\"));\n\x7d\n".toList).map Declaration.writtenAddresses =
      [("border-image".toList, ["URL(\"y\")".toList])] := by
  have hwhole : ∀ l ∈ Node.allLexemes (Node.ofText
      "a\x7bbackground:Url(x.png) red;border-image:f(URL('y'))\x7d".toList), l.isWhole = true := by
    decide +kernel
  have hprune : prune "a\x7bbackground:Url(x.png) red;border-image:f(URL('y'))\x7d".toList =
      .ok "a \x7b\n  border-image: f(URL(\"y\"));\n\x7d\n".toList := by
    decide +kernel
  have hplain : IsPlainSheet "a\x7bbackground:Url(x.png) red;border-image:f(URL('y'))\x7d".toList :=
    ⟨by decide, by rw [← Text.occursIn_iff]; decide, by decide, fun t ht => hwhole _ ht⟩
  rw [((prune_addresses hprune).2 hplain).1]
  decide +kernel

/-- **An address in capitals stays.** -/
theorem not_forall_addresses_eq_nil : ¬ ∀ (css out : Text), prune css = .ok out →
    ∀ d ∈ declarationsOf out, d.addresses = [] := by
  intro h
  have hprune : prune "a\x7bbackground:URL(\"x.png\")\x7d".toList =
      .ok "a \x7b\n  background: URL(\"x.png\");\n\x7d\n".toList := by
    decide +kernel
  have hnone := h _ _ hprune
  have hcall : ((declarationsOf "a \x7b\n  background: URL(\"x.png\");\n\x7d\n".toList).all fun d =>
      d.addresses.isEmpty) = false := by
    decide +kernel
  rw [List.all_eq_true.2 fun d hd => by rw [hnone d hd]; rfl] at hcall
  exact Bool.noConfusion hcall

end Css
end ThemeSheet
