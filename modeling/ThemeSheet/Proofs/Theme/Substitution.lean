/-
# Putting variables in the place of colors

`substituteVariables` makes one pass for every discovered color.  Where all colors
are written with six digits and none stands directly behind a digit, the passes do
what a single one does: every color, in any letter case, gives way to the variable
or the shade of the first entry that has it, and none is left.  The order of the
entries matters only between entries that share a color.
-/

import ThemeSheet.Proofs.Color.Replacement
import ThemeSheet.Proofs.Marker.Reading
import ThemeSheet.Proofs.Variable.Shade
import ThemeSheet.Theme.Restoration

namespace ThemeSheet

open Text

/-- The colors that were found. -/
def Discovered.colors (d : Discovered) : List Text := d.entries.filterMap Prod.snd

/-- The colors that were found, each with what stands for it. -/
def Discovered.references (d : Discovered) : List (Text × Text) :=
  d.entries.filterMap fun e => e.2.map (·, Theme.referenceTo e.1)

/-- Is the text an `@` sign and a name without a number sign? -/
def Variable.isReference : Text → Bool
  | '@' :: name => !name.contains '#'
  | _ => false

/-- **Variables with six-digit colors,** which is what the reading of compiled markers gives where it
gives no faded color. -/
structure Discovered.SixDigit (d : Discovered) : Prop where
  name : ∀ e ∈ d.entries, Variable.isReference e.1 = true
  color : ∀ e ∈ d.entries, e.2.any Color.isSixDigit = true

/-- The colors of the references are the colors that were found. -/
theorem Discovered.references_map_fst (d : Discovered) : d.references.map Prod.fst = d.colors := by
  rw [references, colors, List.map_filterMap]
  congr 1
  funext e
  cases e.2 <;> rfl

namespace Color

/-- The first character of what occurs in a text stands in the text. -/
theorem mem_of_occursIn {a : Char} {needle t : Text} (h : occursIn (a :: needle) t = true) : a ∈ t := by
  induction t with
  | nil => simp [occursIn, beginsWith, dropPrefix?] at h
  | cons c t ih =>
    rw [occursIn, Bool.or_eq_true] at h
    rcases h with h | h
    · obtain ⟨r, hr⟩ := beginsWith_iff.1 h
      rw [hr]; simp
    · exact List.mem_cons_of_mem _ (ih h)

/-- A color in hexadecimal digits is a number sign and three, four, six or eight of them. -/
theorem isHexColor_iff {t : Text} : isHexColor t = true ↔
    ∃ ds, t = '#' :: ds ∧ ds.length ∈ [3, 4, 6, 8] ∧ ∀ d ∈ ds, isHexDigit d = true := by
  unfold isHexColor
  split
  · next ds => simp [and_comm]
  · next h => simp only [Bool.false_eq_true, false_iff]; rintro ⟨ds, rfl, -⟩; exact h ds rfl

/-- **A hexadecimal color is a color.** -/
theorem isColorText_of_isHexColor {t : Text} (h : isHexColor t = true) : Theme.isColorText t = true := by
  have hhex := h
  obtain ⟨ds, rfl, hl, hds⟩ := isHexColor_iff.1 h
  have hpx : occursIn "px".toList ('#' :: ds) = false := by
    by_contra hp
    have hm : 'p' ∈ '#' :: ds :=
      mem_of_occursIn (show occursIn ('p' :: ['x']) ('#' :: ds) = true by simpa using hp)
    rcases List.mem_cons.1 hm with hp | hp
    · exact absurd hp (by decide)
    · exact absurd (hds _ hp) (by decide)
  have hstrip : strip ('#' :: ds) = '#' :: ds := by
    obtain ⟨d, ds', hrev⟩ := List.exists_cons_of_ne_nil (l := ds.reverse)
      (by intro hn; rw [List.reverse_eq_nil_iff] at hn; simp [hn] at hl)
    have hd : isBlank d = false :=
      not_isBlank_of_isHexDigit (hds d (List.mem_reverse.1 (hrev ▸ List.mem_cons_self ..)))
    rw [strip, trim, List.dropWhile_cons_of_neg (by decide), List.reverse_cons, hrev, List.cons_append,
      List.dropWhile_cons_of_neg (by simp [hd]), ← List.cons_append, ← hrev, ← List.reverse_cons,
      List.reverse_reverse]
  rw [Theme.isColorText, decided?]
  simp only [hpx, hstrip, hhex, List.isEmpty_cons, Bool.or_false, Bool.false_eq_true, if_false]
  split
  · rfl
  · split <;> rfl

/-- **Six digits behind a number sign are a color.** -/
theorem isColorText_of_isSixDigit {t : Text} (h : isSixDigit t = true) : Theme.isColorText t = true := by
  obtain ⟨ds, rfl, hl, hds⟩ := isSixDigit_iff.1 h
  exact isColorText_of_isHexColor (isHexColor_iff.2 ⟨ds, rfl, by simp [hl], hds⟩)

end Color

namespace Variable

/-- A name without number signs has none in its bare form. -/
theorem hash_notMem_bareName {name : Text} (h : '#' ∉ name) : '#' ∉ bareName name :=
  fun hm => h ((List.dropWhile_sublist _).mem hm)

/-- The call for a shade begins with two letters of which the second is no hexadecimal digit. -/
theorem paletteCall_begins (name number : Text) : ∃ back, paletteCall name number = 'c' :: 'o' :: back := by
  unfold paletteCall
  simp

/-- A call of the palette function begins with `co` and holds no number sign of its own. -/
theorem paletteCall_inert {name number : Text} (hn : '#' ∉ name) (hd : '#' ∉ number) :
    Color.Inert (paletteCall name number) := by
  obtain ⟨back, hback⟩ := paletteCall_begins name number
  refine ⟨?_, ['c'], 'o', back, hback, by simp, by decide⟩
  unfold paletteCall
  simp [hn, hd]

/-- **The call for a shade holds no number sign** unless the shade's name does. -/
theorem shadeCall_inert {name call : Text} (hn : '#' ∉ name) (h : shadeCall name = .ok call) :
    Color.Inert call := by
  rw [shadeCall] at h
  split at h
  · simp at h
  · next base digits hp =>
    obtain ⟨e, he, -⟩ := shadeParts?_eq_some hp
    have hb : '#' ∉ base := fun hm => hn (by rw [he]; simp [hm])
    have hd : '#' ∉ digits := fun hm => hn (by rw [he]; simp [hm])
    have hbare : '#' ∉ bareName (if base = primaryShades then primary else base) := by
      split
      · exact hash_notMem_bareName (by decide)
      · exact hash_notMem_bareName hb
    exact Except.ok.inj h ▸ paletteCall_inert hbare hd

end Variable

namespace Theme

/-- **What stands for a color may stand there:** a variable begins with an `@` sign, a call for a
shade with `co`. -/
theorem referenceTo_inert {name : Text} (h : Variable.isReference name = true) :
    Color.Inert (referenceTo name) := by
  unfold Variable.isReference at h
  split at h
  · next rest =>
    have hn : '#' ∉ '@' :: rest := by simpa using h
    rw [referenceTo]
    split
    · next call hc => exact Variable.shadeCall_inert hn hc
    · exact ⟨hn, [], '@', rest, rfl, by simp, by decide⟩
  · simp at h

end Theme

namespace Discovered

variable {d : Discovered}

/-- Where all colors have six digits, what stands for them is inert. -/
theorem SixDigit.of_mem_references (h : d.SixDigit) {p : Text × Text} (hp : p ∈ d.references) :
    Color.isSixDigit p.1 = true ∧ Color.Inert p.2 := by
  obtain ⟨e, he, hep⟩ := List.mem_filterMap.1 hp
  obtain ⟨color, hc, rfl⟩ := Option.map_eq_some_iff.1 hep
  exact ⟨by simpa [hc] using h.color e he, Theme.referenceTo_inert (h.name e he)⟩

/-- Such colors and what stands for them are colors and their texts. -/
theorem SixDigit.colored (h : d.SixDigit) : Color.Colored d.references :=
  ⟨fun _ hp => (h.of_mem_references hp).1, fun _ hp => (h.of_mem_references hp).2⟩

/-- **The passes are those for the colors and what stands for them.** -/
theorem SixDigit.substituteVariables_eq (h : d.SixDigit) (css : Text) :
    Theme.substituteVariables css d = d.references.foldl (fun t p => replaceAnyCase p.1 p.2 t) css := by
  rw [Theme.substituteVariables, references]
  have hall := h.color
  generalize d.entries = entries at hall
  induction entries generalizing css with
  | nil => rfl
  | cons e entries ih =>
    obtain ⟨color, hc, hsix⟩ : ∃ color, e.2 = some color ∧ Color.isSixDigit color = true := by
      simpa [Option.any_eq_true] using hall e (List.mem_cons_self ..)
    rw [List.foldl_cons, ih _ fun e he => hall e (List.mem_cons_of_mem _ he),
      List.filterMap_cons_some (by rw [hc]; rfl), List.foldl_cons]
    simp only [Theme.substituteOne, hc, Color.isColorText_of_isSixDigit hsix, if_true]

/-- The order of the table does not matter to it. -/
theorem SixDigit.perm (h : d.SixDigit) {d' : Discovered} (hp : d'.entries.Perm d.entries) :
    d'.SixDigit :=
  ⟨fun e he => h.name e (hp.mem_iff.1 he), fun e he => h.color e (hp.mem_iff.1 he)⟩

/-- Variables with their colors are such a table if all colors are written with six digits. -/
theorem sixDigit_ofColors {colors : Table Text}
    (hn : ∀ e ∈ colors.entries, Variable.isReference e.1 = true)
    (hc : ∀ e ∈ colors.entries, Color.isSixDigit e.2 = true) : (ofColors colors).SixDigit := by
  have hmem : ∀ e ∈ (ofColors colors).entries, ∃ e' ∈ colors.entries, (e'.1, some e'.2) = e :=
    fun e he => List.mem_map.1 (Table.mem_of_mem_ofList he)
  constructor
  · intro e he
    obtain ⟨e', he', rfl⟩ := hmem e he
    exact hn e' he'
  · intro e he
    obtain ⟨e', he', rfl⟩ := hmem e he
    exact hc e' he'

/-- What is discovered belongs to names of variables. -/
theorem isReference_of_discover {css : Text} {names : Option (List Text)} {e : Text × Text}
    (h : e ∈ (Marker.discover css names).entries) : Variable.isReference e.1 = true := by
  obtain ⟨name, hn, hclass⟩ := Marker.name_of_mem_discover h
  have hno : '#' ∉ name := fun hm => absurd (hclass _ hm) (by decide)
  simp [hn, Variable.isReference, hno]

/-- **The colors that are read back from compiled markers are such a table** unless one of them is
faded. -/
theorem sixDigit_of_discover {css : Text} {names : Option (List Text)}
    (h : ∀ e ∈ (Marker.discover css names).entries, Color.isSixDigit e.2 = true) :
    (Discovered.ofColors (Marker.discover css names)).SixDigit :=
  sixDigit_ofColors (fun _ he => isReference_of_discover he) h

end Discovered

namespace Theme

/-- **Putting variables in the place of colors is one pass.**  Every color, in any letter case, gives
way to what stands for it in the first entry that has it; no color is left; and where no two entries
share a color, their order means nothing. -/
theorem substituteVariables_eq_replaceEvery {css : Text} {d : Discovered} (hd : d.SixDigit)
    (hcss : Color.Detached d.colors css) :
    substituteVariables css d = replaceEvery d.references css ∧
      (∀ color ∈ d.colors, occursAnyCase color (substituteVariables css d) = false) ∧
      (d.colors.Pairwise (fun a b => a.map Unicode.foldCase ≠ b.map Unicode.foldCase) →
        ∀ d' : Discovered, d'.entries.Perm d.entries →
          substituteVariables css d' = substituteVariables css d) := by
  have hone : ∀ d' : Discovered, d'.entries.Perm d.entries →
      substituteVariables css d' = replaceEvery d'.references css := by
    intro d' hp
    have hd' := hd.perm hp
    have hsame : d'.colors.Perm d.colors := hp.filterMap _
    rw [hd'.substituteVariables_eq, hd'.colored.foldl_replaceAnyCase]
    rw [Discovered.references_map_fst]
    exact fun color hc => hcss color (hsame.mem_iff.1 hc)
  have hself := hone d (.refl _)
  refine ⟨hself, fun color hc => ?_, fun hdiff d' hp => ?_⟩
  · rw [hself]
    exact hd.colored.occursAnyCase_replaceEvery (by rwa [Discovered.references_map_fst])
      (by rwa [Discovered.references_map_fst])
  · rw [hself, hone d' hp]
    refine hd.colored.replaceEvery_perm (hp.filterMap _) ?_ css
    rwa [← Discovered.references_map_fst, List.pairwise_map] at hdiff

/-- Two names share a color, and a digit follows the color of a shade. -/
theorem substituteVariables_eq_replaceEvery_shared :
    let d : Discovered :=
      ⟨[("@link".toList, some "#abcdef".toList), ("@primary-1".toList, some "#123456".toList),
      ("@info".toList, some "#ABCDEF".toList)], by decide⟩
    let css : Text := "#AbcDEF;#1234560 #12345 #abcdef".toList
    d.SixDigit ∧ Color.Detached d.colors css ∧
      substituteVariables css d = replaceEvery d.references css := by
  intro d css
  have hd : d.SixDigit := ⟨by decide, by decide⟩
  have hcss : Color.Detached d.colors css := by decide +kernel
  exact ⟨hd, hcss, (substituteVariables_eq_replaceEvery hd hcss).1⟩

end Theme
end ThemeSheet
