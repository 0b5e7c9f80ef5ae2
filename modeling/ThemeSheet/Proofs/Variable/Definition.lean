/-
# The lines that define a variable

A line defines a variable exactly when it is written by one rule, and the parts of the
line are the definition that is read.  So the definitions of a text are those of its
lines in their order, and definitions that are printed one to a line are read back.
-/

import Mathlib.Data.List.Forall2
import ThemeSheet.Proofs.Text.Split
import ThemeSheet.Proofs.Variable.Name
import ThemeSheet.Variable.Definition

namespace ThemeSheet
namespace Variable

open Text

/-! ### One line -/

/-- **A line that defines a variable,** in its parts: the name may hold quotes, and the value ends at the first
semicolon. -/
structure DefinitionLine where
  indent : Text
  name : Text
  gap : Text
  value : Text
  behind : Text
  blank_indent : ∀ c ∈ indent, isBlank c = true
  name_ne : name ≠ []
  name_chars : ∀ c ∈ name, isNameChar c = true ∨ isQuote c = true
  blank_gap : ∀ c ∈ gap, isBlank c = true
  value_chars : ';' ∉ value

namespace DefinitionLine

/-- The characters of the line. -/
def written (l : DefinitionLine) : Text :=
  l.indent ++ '@' :: (l.name ++ (l.gap ++ ':' :: (l.value ++ ';' :: l.behind)))

/-- What the line defines: the name without quotes, the value without blanks at its ends. -/
def definition (l : DefinitionLine) : Definition := ⟨'@' :: l.name.filter (!isQuote ·), strip l.value⟩

end DefinitionLine

/-- A name is written in the characters of names, and quotes. -/
theorem isWrittenNameChar_iff {c : Char} :
    isWrittenNameChar c = true ↔ isNameChar c = true ∨ isQuote c = true := by
  rw [isWrittenNameChar, Bool.or_eq_true]

/-- No name is written with a blank. -/
theorem not_isWrittenNameChar_of_isBlank {c : Char} (h : isBlank c = true) : isWrittenNameChar c = false := by
  by_contra hc
  rcases isWrittenNameChar_iff.1 (by simpa using hc) with hname | hquote
  · exact absurd (h.symm.trans (not_blank_of_isNameChar hname)) (by simp)
  · rcases isQuote_iff.1 hquote with rfl | rfl <;> exact absurd h (by decide)

/-- A value is read up to the first semicolon. -/
theorem valueOf?_eq_some {t value : Text} :
    valueOf? t = some value ↔ ∃ v rest, t = v ++ ';' :: rest ∧ ';' ∉ v ∧ value = strip v := by
  constructor
  · intro h
    unfold valueOf? at h
    split at h
    · next hmem =>
      obtain ⟨v, rest, rfl, hv⟩ := List.eq_append_cons_of_mem (List.contains_iff_mem.1 hmem)
      exact ⟨v, rest, rfl, hv, by rw [← Option.some.inj h, takeWhile_mark hv]⟩
    · exact absurd h (by simp)
  · rintro ⟨v, rest, rfl, hv, rfl⟩
    rw [valueOf?, if_pos (by simp), takeWhile_mark hv]

/-- **What is read of a line is what it defines,** and nothing is read of any other line. -/
theorem Definition.ofLine?_eq_some {line : Text} {d : Definition} :
    ofLine? line = some d ↔ ∃ l : DefinitionLine, line = l.written ∧ d = l.definition := by
  constructor
  · intro h
    unfold ofLine? at h
    split at h
    · next t hstrip =>
      split at h
      · next rest hgap =>
        dsimp only at h
        split at h
        · exact absurd h (by simp)
        · next hne =>
          obtain ⟨value, hvalue, rfl⟩ := Option.map_eq_some_iff.1 h
          obtain ⟨v, behind, rfl, hv, rfl⟩ := valueOf?_eq_some.1 hvalue
          have hline : line = line.takeWhile isBlank ++ '@' :: t := by
            rw [← hstrip, stripLeft, List.takeWhile_append_dropWhile]
          have hafter : t.dropWhile isWrittenNameChar =
              (t.dropWhile isWrittenNameChar).takeWhile isBlank ++ ':' :: (v ++ ';' :: behind) := by
            rw [← hgap, stripLeft, List.takeWhile_append_dropWhile]
          refine ⟨⟨line.takeWhile isBlank, t.takeWhile isWrittenNameChar,
            (t.dropWhile isWrittenNameChar).takeWhile isBlank, v, behind, fun c hc => List.mem_takeWhile_imp hc,
            by simpa using hne, fun c hc => isWrittenNameChar_iff.1 (List.mem_takeWhile_imp hc),
            fun c hc => List.mem_takeWhile_imp hc, hv⟩, ?_, rfl⟩
          rw [DefinitionLine.written, ← hafter, List.takeWhile_append_dropWhile]
          exact hline
      · exact absurd h (by simp)
    · exact absurd h (by simp)
  · rintro ⟨l, rfl, rfl⟩
    have hname : ∀ c ∈ l.name, isWrittenNameChar c = true := fun c hc => isWrittenNameChar_iff.2 (l.name_chars c hc)
    -- Neither a blank nor the colon goes on with the name.
    have hstop : ∀ c, (l.gap ++ ':' :: (l.value ++ ';' :: l.behind)).head? = some c → isWrittenNameChar c = false := by
      intro c hc
      cases hgap : l.gap with
      | nil =>
        rw [hgap] at hc
        obtain rfl := Option.some.inj hc
        decide
      | cons b gap =>
        rw [hgap] at hc
        obtain rfl := Option.some.inj hc
        exact not_isWrittenNameChar_of_isBlank (l.blank_gap b (hgap ▸ List.mem_cons_self ..))
    have hstrip : stripLeft l.written = '@' :: (l.name ++ (l.gap ++ ':' :: (l.value ++ ';' :: l.behind))) :=
      dropWhile_run l.blank_indent fun c hc => Option.some.inj hc ▸ by decide
    have hgap : stripLeft (l.gap ++ ':' :: (l.value ++ ';' :: l.behind)) = ':' :: (l.value ++ ';' :: l.behind) :=
      dropWhile_run l.blank_gap fun c hc => Option.some.inj hc ▸ by decide
    have hvalue : valueOf? (l.value ++ ';' :: l.behind) = some (strip l.value) :=
      valueOf?_eq_some.2 ⟨l.value, l.behind, rfl, l.value_chars, rfl⟩
    unfold ofLine?
    simp only [hstrip, takeWhile_run hname hstop, dropWhile_run hname hstop, hgap]
    rw [if_neg (by simpa using l.name_ne), hvalue]
    rfl

/-! ### All lines -/

/-- **The definitions that lines hold:** one for each line that defines a variable, in the order of the lines,
and none for any other line. -/
inductive LinesDefine : List Text → List Definition → Prop
  | nil : LinesDefine [] []
  | line (l : DefinitionLine) {lines : List Text} {ds : List Definition} : LinesDefine lines ds →
      LinesDefine (l.written :: lines) (l.definition :: ds)
  | other {line : Text} {lines : List Text} {ds : List Definition} : (∀ l : DefinitionLine, line ≠ l.written) →
      LinesDefine lines ds → LinesDefine (line :: lines) ds

/-- The definitions read from lines are those that the grammar gives them. -/
theorem linesDefine_iff {ls : List Text} {ds : List Definition} :
    ls.filterMap Definition.ofLine? = ds ↔ LinesDefine ls ds := by
  constructor
  · rintro rfl
    induction ls with
    | nil => exact .nil
    | cons line ls ih =>
      cases hline : Definition.ofLine? line with
      | none =>
        rw [List.filterMap_cons_none hline]
        refine .other (fun l hl => ?_) ih
        exact absurd (hline.symm.trans (Definition.ofLine?_eq_some.2 ⟨l, hl, rfl⟩)) (by simp)
      | some d =>
        obtain ⟨l, rfl, rfl⟩ := Definition.ofLine?_eq_some.1 hline
        rw [List.filterMap_cons_some hline]
        exact .line l ih
  · intro h
    induction h with
    | nil => rfl
    | line l _ ih => rw [List.filterMap_cons_some (Definition.ofLine?_eq_some.2 ⟨l, rfl, rfl⟩), ih]
    | @other line _ _ hother _ ih =>
      have hnone : Definition.ofLine? line = none := Option.eq_none_iff_forall_ne_some.2 fun d hd => by
        obtain ⟨l, hl, -⟩ := Definition.ofLine?_eq_some.1 hd
        exact hother l hl
      rw [List.filterMap_cons_none hnone, ih]

/-! ### Printing -/

/-- **A definition that can be printed:** a variable, and a value on one line without a semicolon and without
blanks at its ends. -/
structure Definition.IsPlain (d : Definition) : Prop where
  name : IsVariable d.name
  value_stripped : strip d.value = d.value
  value_semicolon : ';' ∉ d.value
  value_line : '\n' ∉ d.value

/-- What stands around a definition on its line. -/
structure Margins where
  indent : Text
  gap : Text
  space : Text
  behind : Text
  blank_indent : ∀ c ∈ indent, isBlank c = true
  blank_gap : ∀ c ∈ gap, isBlank c = true
  blank_space : ∀ c ∈ space, isBlank c = true
  line : '\n' ∉ indent ++ gap ++ space ++ behind

/-- The definition on a line of its own. -/
def Definition.print (m : Margins) (d : Definition) : Text :=
  m.indent ++ d.name ++ m.gap ++ ':' :: m.space ++ d.value ++ ';' :: m.behind

/-- A printed definition is a line that defines it. -/
theorem Definition.IsPlain.exists_line {d : Definition} (h : d.IsPlain) (m : Margins) :
    ∃ l : DefinitionLine, d.print m = l.written ∧ d = l.definition := by
  obtain ⟨w, hname, hne, hw⟩ := h.name
  have hquotes : w.filter (!isQuote ·) = w := by
    refine List.filter_eq_self.2 fun c hc => ?_
    by_contra hq
    rcases isQuote_iff.1 (by simpa using hq) with rfl | rfl
    · exact notMem_of_isNameChar hw (by decide) hc
    · exact notMem_of_isNameChar hw (by decide) hc
  have hvalue : strip (m.space ++ d.value) = d.value := by
    rw [strip, trim, List.dropWhile_append_of_pos m.blank_space]
    exact h.value_stripped
  have hsemicolon : ';' ∉ m.space ++ d.value := by
    rw [List.mem_append, not_or]
    exact ⟨fun hs => absurd (m.blank_space ';' hs) (by decide), h.value_semicolon⟩
  refine ⟨⟨m.indent, w, m.gap, m.space ++ d.value, m.behind, m.blank_indent, hne, fun c hc => .inl (hw c hc),
    m.blank_gap, hsemicolon⟩, ?_, ?_⟩
  · rw [print, DefinitionLine.written, hname]
    simp
  · rw [DefinitionLine.definition, hquotes, hvalue, ← hname]

/-- A plain definition is printed on one line. -/
theorem Definition.IsPlain.notMem_print {d : Definition} (h : d.IsPlain) (m : Margins) : '\n' ∉ d.print m := by
  obtain ⟨w, hname, -, hw⟩ := h.name
  have hword : '\n' ∉ w := notMem_of_isNameChar hw (by decide)
  have hmargins := m.line
  have hvalue := h.value_line
  simp only [List.mem_append, not_or] at hmargins
  simp [print, hname, hword, hmargins, hvalue]

/-- Printed definitions are what their lines define. -/
theorem linesDefine_print {printed : List (Margins × Definition)} (h : ∀ e ∈ printed, e.2.IsPlain) :
    LinesDefine (printed.map fun e => e.2.print e.1) (printed.map Prod.snd) := by
  induction printed with
  | nil => exact .nil
  | cons e printed ih =>
    obtain ⟨he, hrest⟩ := List.forall_mem_cons.1 h
    obtain ⟨l, hl, hd⟩ := he.exists_line e.1
    rw [List.map_cons, List.map_cons, hl, hd]
    exact .line l (ih hrest)

/-- **The definitions of a text** are those of its lines, one for each line that defines a variable; and plain
definitions that are printed one to a line, whatever stands around them, are read back. -/
theorem definitions_spec :
    (∀ content ds, definitions content = ds ↔ LinesDefine (lines content) ds) ∧
    ∀ printed : List (Margins × Definition), (∀ e ∈ printed, e.2.IsPlain) →
      definitions (join ['\n'] (printed.map fun e => e.2.print e.1)) = printed.map Prod.snd := by
  refine ⟨fun content ds => linesDefine_iff, fun printed hplain => ?_⟩
  cases hprinted : printed with
  | nil => rfl
  | cons e rest =>
    rw [← hprinted]
    have hlines : lines (join ['\n'] (printed.map fun e => e.2.print e.1)) = printed.map fun e => e.2.print e.1 :=
      splitOn_join (by simp [hprinted]) fun line hline => by
        obtain ⟨e, he, rfl⟩ := List.mem_map.1 hline
        exact (hplain e he).notMem_print e.1
    rw [definitions, hlines]
    exact linesDefine_iff.2 (linesDefine_print hplain)

/-- Two definitions with an indentation, blanks around the colon and text behind the semicolon. -/
theorem definitions_spec_margins :
    let printed : List (Margins × Definition) :=
      [(⟨[], [], [' '], [], by decide, by decide, by decide, by decide⟩, ⟨"@primary-color".toList, "#1890ff".toList⟩),
        (⟨"  ".toList, [' '], ['\t'], " @b: 1; // ;".toList, by decide, by decide, by decide, by decide⟩,
          ⟨"@a_1".toList, "fade(@b : c)".toList⟩)]
    (∀ e ∈ printed, e.2.IsPlain) ∧
      definitions (join ['\n'] (printed.map fun e => e.2.print e.1)) = printed.map Prod.snd := by
  intro printed
  have hplain : ∀ e ∈ printed, e.2.IsPlain := by
    refine List.forall_mem_cons.2 ⟨⟨?_, by decide, by decide, by decide⟩, List.forall_mem_singleton.2
      ⟨?_, by decide, by decide, by decide⟩⟩
    · exact ⟨"primary-color".toList, rfl, by decide, by decide⟩
    · exact ⟨"a_1".toList, rfl, by decide, by decide⟩
  exact ⟨hplain, definitions_spec.2 printed hplain⟩

example : definitions "@'a': 1;\n@media x: y\n @b : @c; // ;\n@import 'd';".toList =
    [⟨"@a".toList, "1".toList⟩, ⟨"@b".toList, "@c".toList⟩] := by decide

end Variable
end ThemeSheet
