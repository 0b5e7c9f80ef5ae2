/-
# Reading variables in two ways

`Collects` describes the color reading one definition at a time: a definition is left
out, or the color that it stands for is put under its name.  A color never begins with
`@` and every name does, so no color in the table is a name in it, and an alias is
followed there in a single step.  The plain reading keeps the aliases; as long as no name
is defined twice, following them all the way leads to the color that the first reading
has found.
-/

import Mathlib.Data.List.Nodup
import ThemeSheet.Proofs.Fallible
import ThemeSheet.Proofs.Table
import ThemeSheet.Proofs.Variable.Alias
import ThemeSheet.Variable.Collection

namespace ThemeSheet
namespace Variable

/-- The name of a definition begins with an at sign. -/
theorem Definition.head?_name {line : Text} {d : Definition} (h : ofLine? line = some d) :
    d.name.head? = some '@' := by
  unfold ofLine? at h
  split at h
  · dsimp only at h
    split at h
    · split at h
      · simp at h
      · obtain ⟨value, -, rfl⟩ := Option.map_eq_some_iff.1 h
        rfl
    · simp at h
  · simp at h

/-- The names of definitions begin with at signs. -/
theorem head?_of_mem_definitions {content : Text} {d : Definition} (h : d ∈ definitions content) :
    d.name.head? = some '@' := by
  obtain ⟨line, -, hline⟩ := List.mem_filterMap.1 h
  exact Definition.head?_name hline

/-! ### The color reading, definition by definition -/

/-- What a definition stands for among the colors so far: its value, or, if that is an alias, the
color of the name. -/
inductive Definition.StandsFor (colors : Table Text) (d : Definition) : Text → Prop
  | plain : d.value.head? ≠ some '@' → StandsFor colors d d.value
  | followed {value : Text} : d.value.head? = some '@' → colors.get? d.value = some value →
      StandsFor colors d value

/-- The tables that the color reading may have made of the definitions so far. -/
inductive Collects (patterns : List Pattern) : List Definition → Table Text → Prop
  | start : Collects patterns [] .empty
  | skip {ds : List Definition} {colors : Table Text} (d : Definition) :
      Collects patterns ds colors → Collects patterns (ds ++ [d]) colors
  | keep {ds : List Definition} {colors : Table Text} {d : Definition} {value : Text} :
      Collects patterns ds colors → d.StandsFor colors value →
      Color.isColor (.ok patterns) value = .ok true →
      Collects patterns (ds ++ [d]) (colors.insert d.name value)

variable {patterns : List Pattern} {ds : List Definition} {colors : Table Text} {name value : Text}

/-- **What the color reading keeps:** under names that have been defined, colors that begin with
no `@`. -/
structure IsColorTable (patterns : List Pattern) (ds : List Definition) (colors : Table Text) : Prop where
  isColor : ∀ {name value}, colors.get? name = some value →
    Color.isColor (.ok patterns) value = .ok true
  head_ne : ∀ {name value}, colors.get? name = some value → value.head? ≠ some '@'
  defined : ∀ {name value}, colors.get? name = some value → name ∈ ds.map Definition.name

/-- A further definition does not matter to what is kept already. -/
theorem IsColorTable.append (h : IsColorTable patterns ds colors) (d : Definition) :
    IsColorTable patterns (ds ++ [d]) colors where
  isColor := h.isColor
  head_ne := h.head_ne
  defined hv := by
    rw [List.map_append]
    exact List.mem_append_left _ (h.defined hv)

/-- What the color reading makes is a table of colors. -/
theorem Collects.isColorTable (h : Collects patterns ds colors) : IsColorTable patterns ds colors := by
  induction h with
  | start => constructor <;> · intro name value hv; simp [Table.get?, Table.empty] at hv
  | skip d _ ih => exact ih.append d
  | @keep ds colors d value _ hstands hcolor ih =>
    -- the new value is a color, and it is a plain value or one that the table holds already
    have hhead : value.head? ≠ some '@' := by
      cases hstands with
      | plain hplain => exact hplain
      | followed _ hget => exact ih.head_ne hget
    have hold := ih.append d
    constructor
    all_goals
      intro name v hv
      rw [Table.get?_insert] at hv
      split at hv
    · exact Option.some.inj hv ▸ hcolor
    · exact hold.isColor hv
    · exact Option.some.inj hv ▸ hhead
    · exact hold.head_ne hv
    · next hname => simp [hname]
    · exact hold.defined hv

/-- **No color is a name.** -/
theorem IsColorTable.get?_eq_none (h : IsColorTable patterns ds colors)
    (hds : ∀ d ∈ ds, d.name.head? = some '@') (hv : value.head? ≠ some '@') :
    colors.get? value = none := by
  by_contra hn
  obtain ⟨w, hw⟩ := Option.ne_none_iff_exists'.1 hn
  obtain ⟨d, hd, rfl⟩ := List.mem_map.1 (h.defined hw)
  exact hv (hds d hd)

/-- In the table of colors, an alias is followed in one step. -/
theorem IsColorTable.resolve_eq (h : IsColorTable patterns ds colors)
    (hds : ∀ d ∈ ds, d.name.head? = some '@') (name : Text) :
    resolve colors name = .ok (colors.get? name) := by
  cases hname : colors.get? name with
  | none => rw [resolve, hname]
  | some value =>
    rw [resolve_of_some hname, follow_of_some hname List.not_mem_nil,
      follow_of_none (h.get?_eq_none hds (h.head_ne hname))]
    rfl

/-- With patterns that are well formed, whether a value is a color can always be told. -/
theorem exists_isColor_eq (patterns : List Pattern) (value : Text) :
    ∃ b, Color.isColor (.ok patterns) value = .ok b := by
  unfold Color.isColor
  split
  · exact ⟨_, rfl⟩
  · exact ⟨_, rfl⟩

/-- **One more definition** is read without a fault, as `Collects` says. -/
theorem Collects.addColor (h : Collects patterns ds colors) (hds : ∀ d ∈ ds, d.name.head? = some '@')
    (d : Definition) :
    ∃ colors', addColor (.ok patterns) colors d = .ok colors' ∧ Collects patterns (ds ++ [d]) colors' := by
  have hknown : ∃ known, knownValue colors d = .ok known ∧
      ∀ value, known = some value → d.StandsFor colors value := by
    unfold knownValue
    split
    · next hhead =>
      exact ⟨_, h.isColorTable.resolve_eq hds d.value, fun value hv => .followed hhead hv⟩
    · next hhead => exact ⟨_, rfl, fun value hv => Option.some.inj hv ▸ .plain hhead⟩
  obtain ⟨known, hknown, hstands⟩ := hknown
  rw [Variable.addColor, hknown]
  cases known with
  | none => exact ⟨colors, rfl, .skip d h⟩
  | some value =>
    obtain ⟨b, hb⟩ := exists_isColor_eq patterns value
    cases b with
    | true =>
      refine ⟨colors.insert d.name value, ?_, .keep h (hstands value rfl) hb⟩
      exact Fallible.bind_eq_ok.2 ⟨some value, rfl, Fallible.bind_eq_ok.2 ⟨true, hb, rfl⟩⟩
    | false =>
      refine ⟨colors, ?_, .skip d h⟩
      exact Fallible.bind_eq_ok.2 ⟨some value, rfl, Fallible.bind_eq_ok.2 ⟨false, hb, rfl⟩⟩

/-- The color reading goes on with further definitions, and nothing goes wrong. -/
theorem Collects.foldlM_addColor (h : Collects patterns ds colors)
    (hds : ∀ d ∈ ds, d.name.head? = some '@') {more : List Definition}
    (hmore : ∀ d ∈ more, d.name.head? = some '@') :
    ∃ colors', more.foldlM (Variable.addColor (.ok patterns)) colors = .ok colors' ∧
      Collects patterns (ds ++ more) colors' := by
  induction more generalizing ds colors with
  | nil => exact ⟨colors, rfl, by rwa [List.append_nil]⟩
  | cons d more ih =>
    obtain ⟨colors₁, hadd, hcollects⟩ := h.addColor hds d
    have hds₁ : ∀ e ∈ ds ++ [d], e.name.head? = some '@' := by
      intro e he
      rcases List.mem_append.1 he with he | he
      · exact hds e he
      · exact List.mem_singleton.1 he ▸ hmore d (List.mem_cons_self ..)
    obtain ⟨colors', hfold, hcollects'⟩ := ih hcollects hds₁ fun e he => hmore e (List.mem_cons_of_mem _ he)
    refine ⟨colors', ?_, by simpa using hcollects'⟩
    rw [List.foldlM_cons]
    exact Fallible.bind_eq_ok.2 ⟨colors₁, hadd, hfold⟩

/-- The color reading gives a table, whatever the definitions. -/
theorem exists_collects (patterns : List Pattern) (content : Text) :
    ∃ colors, colorTable (.ok patterns) content = .ok colors ∧
      Collects patterns (definitions content) colors :=
  Collects.start.foldlM_addColor (by simp) fun _ => head?_of_mem_definitions

/-- **The color reading always gives a table,** also where names are defined again or aliases go
round in a circle.  What it holds are colors that begin with no `@`, so none of them is a name in it,
and each stands under a name that the text defines. -/
theorem colorTable_eq_ok (patterns : List Pattern) (content : Text) :
    ∃ colors, colorTable (.ok patterns) content = .ok colors ∧
      ∀ name value, colors.get? name = some value →
        Color.isColor (.ok patterns) value = .ok true ∧ value.head? ≠ some '@' ∧
          colors.get? value = none ∧ name ∈ (definitions content).map Definition.name := by
  obtain ⟨colors, hread, hcollects⟩ := exists_collects patterns content
  have h := hcollects.isColorTable
  refine ⟨colors, hread, fun name value hv => ⟨h.isColor hv, h.head_ne hv, ?_, h.defined hv⟩⟩
  exact h.get?_eq_none (fun _ => head?_of_mem_definitions) (h.head_ne hv)

/-- A name that stands for itself is left out until it has a color; the second definition counts. -/
example : (colorTable (.ok []) "@a: @a;\n@b: @c;\n@a: #111;\n@c: @a;\n@a: #222;".toList).toOption.map
    Table.entries = some [("@a".toList, "#222".toList), ("@c".toList, "#111".toList)] := by
  decide +kernel

/-! ### Both readings in one -/

/-- **A table that knows every definition leads from a name to its color.**  The names on the way
have been defined one before the other, so none comes back. -/
theorem Collects.follow_eq (h : Collects patterns ds colors) {table : Table Text}
    (hnodup : (ds.map Definition.name).Nodup) (hknown : ∀ d ∈ ds, table.get? d.name = some d.value)
    (hplain : ∀ value : Text, value.head? ≠ some '@' → table.get? value = none)
    (hname : colors.get? name = some value) {seen : List Text}
    (hseen : ∀ n ∈ seen, n ∉ ds.map Definition.name) : follow table seen name = .ok value := by
  induction h generalizing name value seen with
  | start => simp [Table.get?, Table.empty] at hname
  | @skip ds colors d _ ih =>
    rw [List.map_append] at hnodup hseen
    exact ih hnodup.of_append_left (fun e he => hknown e (List.mem_append_left _ he)) hname
      fun n hn hm => hseen n hn (List.mem_append_left _ hm)
  | @keep ds colors d new hcollects hstands _ ih =>
    rw [List.map_append] at hnodup hseen
    have hd : d.name ∉ ds.map Definition.name := fun hm =>
      List.disjoint_of_nodup_append hnodup hm (by simp)
    have ih : ∀ n v s, colors.get? n = some v → (∀ m ∈ s, m ∉ ds.map Definition.name) →
        follow table s n = .ok v := fun _ _ _ hget hs =>
      ih hnodup.of_append_left (fun e he => hknown e (List.mem_append_left _ he)) hget hs
    have hseen' : ∀ n ∈ seen, n ∉ ds.map Definition.name := fun n hn hm =>
      hseen n hn (List.mem_append_left _ hm)
    rw [Table.get?_insert] at hname
    split at hname
    · next he =>
      subst he
      obtain rfl := Option.some.inj hname
      have hfresh : d.name ∉ seen := fun hn => hseen _ hn (by simp)
      rw [follow_of_some (hknown d (by simp)) hfresh]
      cases hstands with
      | plain hhead => exact follow_of_none (hplain _ hhead)
      | followed _ hget =>
        refine ih _ _ _ hget fun n hn => ?_
        rcases List.mem_append.1 hn with hn | hn
        · exact hseen' n hn
        · exact List.mem_singleton.1 hn ▸ hd
    · exact ih _ _ _ hname hseen'

/-- In the plain reading, a name that is defined once has the value of its definition. -/
theorem get?_plainTable {content : Text} (hnodup : ((definitions content).map Definition.name).Nodup)
    {d : Definition} (hd : d ∈ definitions content) :
    (plainTable content).get? d.name = some d.value := by
  have hkeys : (((definitions content).map fun d => (d.name, d.value)).map Prod.fst).Nodup := by
    rwa [List.map_map]
  have hmem : (d.name, d.value) ∈ (definitions content).map fun d => (d.name, d.value) :=
    List.mem_map_of_mem hd
  exact @Table.get?_ofList_append _ [] _ hkeys _ _ hmem

/-- Where both readings know a name, the plain value counts. -/
theorem get?_values (c : Collection) (name : Text) :
    c.values.get? name = (c.raw.get? name).or (c.colors.get? name) := by
  rw [Collection.values, Table.merge, Table.get?_foldl_insert]
  congr 1
  have hnodup : (c.raw.entries.reverse.map Prod.fst).Nodup := by
    rw [List.map_reverse, List.nodup_reverse]
    exact c.raw.nodup
  ext value
  rw [← Table.mem_iff_lookup hnodup, List.mem_reverse, Table.mem_entries_iff]

/-- **The two readings agree.** Where no name is defined twice, following the aliases of the plain
values from a name that the color reading knows leads to its color, never round in a circle. -/
theorem collect_resolve_eq (patterns : List Pattern) {content : Text}
    (hnodup : ((definitions content).map Definition.name).Nodup) :
    ∃ c, Collection.collect (.ok patterns) content content = .ok c ∧
      ∀ name value, c.colors.get? name = some value → c.resolve name = .ok (some value) := by
  obtain ⟨colors, hread, hcollects⟩ := exists_collects patterns content
  have hcolors := hcollects.isColorTable
  refine ⟨⟨colors, plainTable content⟩, Fallible.bind_eq_ok.2 ⟨colors, hread, rfl⟩, ?_⟩
  intro name value hname
  set c : Collection := ⟨colors, plainTable content⟩
  have hknown : ∀ d ∈ definitions content, c.values.get? d.name = some d.value := by
    intro d hd
    rw [get?_values, get?_plainTable hnodup hd, Option.some_or]
  have hplain : ∀ v : Text, v.head? ≠ some '@' → c.values.get? v = none := by
    intro v hv
    rw [get?_values, Option.or_eq_none_iff]
    refine ⟨?_, hcolors.get?_eq_none (fun _ => head?_of_mem_definitions) hv⟩
    -- a name of the plain reading begins with its mark
    by_contra hn
    obtain ⟨w, hw⟩ := Option.ne_none_iff_exists'.1 hn
    obtain ⟨d, hd, he⟩ := List.mem_map.1 (Table.mem_of_mem_ofList ((Table.mem_entries_iff _).2 hw))
    exact hv ((Prod.mk.inj he).1 ▸ head?_of_mem_definitions hd)
  obtain ⟨d, hd, rfl⟩ := List.mem_map.1 (hcolors.defined hname)
  have hfollow : follow c.values [] d.name = .ok value :=
    hcollects.follow_eq hnodup hknown hplain hname (by simp)
  rw [Collection.resolve, resolve_of_some (hknown d hd), hfollow]
  rfl

/-- Two names stand for each other, and a chain of aliases leads past them. -/
def circleBeside : Text := "@a: #111;\n@x: @y;\n@b: @a;\n@y: @x;\n@c: @b;\n@late: @end;\n@end: #222;".toList

/-- The chain of aliases that leads past the two is followed to its end. -/
theorem collect_resolve_eq_circleBeside :
    ((definitions circleBeside).map Definition.name).Nodup ∧
      ∃ c, Collection.collect (.ok []) circleBeside circleBeside = .ok c ∧
        c.colors.get? "@c".toList = some "#111".toList ∧
          c.resolve "@c".toList = .ok (some "#111".toList) := by
  have hnodup : ((definitions circleBeside).map Definition.name).Nodup := by decide
  obtain ⟨c, hc, h⟩ := collect_resolve_eq [] hnodup
  have hget : (Collection.collect (.ok []) circleBeside circleBeside).toOption.map
      (fun c => c.colors.get? "@c".toList) = some (some "#111".toList) := by
    decide +kernel
  rw [hc] at hget
  have hcolor := Option.some.inj hget
  exact ⟨hnodup, c, hc, hcolor, h _ _ hcolor⟩

end Variable
end ThemeSheet
