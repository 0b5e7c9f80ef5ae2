/-
# The colors that are given to calls

Colors go to exactly the calls that the compiler cannot evaluate, and there is one for
each as long as there are enough.  No two calls have one color, and none has black,
white or a reserved color.  This is all that is looked at: the source is not, so a
color that stands in it may be given to a call.
-/

import ThemeSheet.Proofs.Color.Supply
import ThemeSheet.Proofs.Fade.Calls

namespace ThemeSheet
namespace FadeMap

open Unicode

variable {f f' : FadeMap} {d : Color.Draws} {reserved calls : List Text} {source call color : Text}

/-! ### One call after another -/

/-- **The calls that have a color** afterwards: those that had one, and those that the compiler cannot
evaluate. -/
theorem mem_keys_foldlM_give (h : calls.foldlM give f = .ok f') :
    call ∈ f'.sentinels.keys ↔
      call ∈ f.sentinels.keys ∨ call ∈ calls ∧ Fade.isStatic call = false := by
  induction calls generalizing f with
  | nil => simp [← Except.ok.inj h]
  | cons c calls ih =>
    rw [List.foldlM_cons] at h
    obtain ⟨f₁, hgive, h⟩ := Fallible.bind_eq_ok.1 h
    rw [ih h, List.mem_cons]
    obtain ⟨rfl, hold⟩ | ⟨hnew, -, color, -, hentries⟩ := give_cases hgive
    · constructor
      · exact Or.imp id (And.imp Or.inr id)
      · rintro (hk | ⟨rfl | hc, hs⟩)
        · exact .inl hk
        · exact .inl (hold.resolve_left (by simp [hs]))
        · exact .inr ⟨hc, hs⟩
    · have hkeys : call ∈ f₁.sentinels.keys ↔ call ∈ f.sentinels.keys ∨ call = c := by
        rw [Table.keys, hentries, List.map_append, List.mem_append]
        simp [Table.keys]
      rw [hkeys]
      constructor
      · rintro ((hk | rfl) | ⟨hc, hs⟩)
        · exact .inl hk
        · exact .inr ⟨.inl rfl, hnew⟩
        · exact .inr ⟨.inr hc, hs⟩
      · rintro (hk | ⟨rfl | hc, hs⟩)
        · exact .inl (.inl hk)
        · exact .inl (.inr rfl)
        · exact .inr ⟨hc, hs⟩

/-- The colors that were given stay. -/
theorem entries_prefix_foldlM_give (h : calls.foldlM give f = .ok f') :
    f.sentinels.entries <+: f'.sentinels.entries := by
  refine Fallible.foldlM_induction (p := fun g => f.sentinels.entries <+: g.sentinels.entries) ?_
    (List.prefix_refl _) h
  intro g call g' _ hg hgive
  obtain ⟨rfl, -⟩ | ⟨-, -, color, -, hentries⟩ := give_cases hgive
  · exact hg
  · exact hentries ▸ hg.trans (List.prefix_append _ _)

/-- **The first color that is drawn goes to the first call** that the compiler cannot evaluate, unless it
is black, white or reserved. -/
theorem draw_mem_foldlM_give (h : calls.foldlM give f = .ok f') (hempty : f.sentinels.entries = [])
    (hcall : ∃ call ∈ calls, Fade.isStatic call = false)
    (hfree : (Color.draw f.draws).1 ∉ Color.black :: Color.white :: f.reserved) :
    (Color.draw f.draws).1 ∈ f'.sentinels.values := by
  induction calls with
  | nil => exact absurd hcall (by simp)
  | cons c calls ih =>
    rw [List.foldlM_cons] at h
    obtain ⟨f₁, hgive, hrest⟩ := Fallible.bind_eq_ok.1 h
    obtain ⟨rfl, hold⟩ | ⟨-, -, color, hdraw, hentries⟩ := give_cases hgive
    · -- no call has a color yet, so this one can be evaluated
      have hstatic := hold.resolve_right (by simp [Table.keys, hempty])
      refine ih hrest ?_
      simpa [hstatic] using hcall
    · have hvalues : f.sentinels.values = [] := by rw [Table.values, hempty, List.map_nil]
      have hfirst : Color.drawUnique (f.reserved ++ f.sentinels.values) f.draws =
          some (Color.draw f.draws) :=
        Color.drawFree_of_free (by simpa [hvalues] using hfree)
      rw [hfirst, Option.some.injEq] at hdraw
      have hmem : (c, color) ∈ f'.sentinels.entries :=
        (entries_prefix_foldlM_give hrest).subset (by simp [hentries])
      rw [hdraw]
      exact List.mem_map_of_mem (f := Prod.snd) hmem

/-- **There is a color for a call** as long as there are more colors than taken ones. -/
theorem exists_give (f : FadeMap) (call : Text)
    (h : f.reserved.length + f.sentinels.values.length + 2 < Color.total) :
    ∃ f', f.give call = .ok f' := by
  rw [give]
  split
  · exact ⟨f, rfl⟩
  · have hfree : ∀ color, color ∉ Color.black :: Color.white :: (f.reserved ++ f.sentinels.values) →
        (decide (color ≠ Color.black ∧ color ≠ Color.white ∧
          ¬ (f.reserved ++ f.sentinels.values).contains color) : Bool) = true := by
      intro color hcolor
      simpa using hcolor
    obtain ⟨color, rest, hdraw⟩ := Color.exists_drawFree hfree (by simpa using h) f.draws
    rw [Color.drawUnique, hdraw]
    exact ⟨_, rfl⟩

/-- Colors are found for all calls where enough are left. -/
theorem exists_foldlM_give (f : FadeMap) (calls : List Text)
    (h : f.reserved.length + f.sentinels.values.length + calls.length + 2 ≤ Color.total) :
    ∃ f', calls.foldlM give f = .ok f' := by
  induction calls generalizing f with
  | nil => exact ⟨f, rfl⟩
  | cons call calls ih =>
    rw [List.length_cons] at h
    obtain ⟨f₁, hgive⟩ := exists_give f call (by omega)
    have hlen : f₁.reserved.length + f₁.sentinels.values.length + calls.length + 2 ≤ Color.total := by
      obtain ⟨rfl, -⟩ | ⟨-, hreserved, color, -, hentries⟩ := give_cases hgive
      · omega
      · rw [hreserved, Table.values, hentries]
        simp only [Table.values, List.length_map, List.length_append, List.length_cons,
          List.length_nil] at h ⊢
        omega
    obtain ⟨f', hfold⟩ := ih f₁ hlen
    exact ⟨f', by rw [List.foldlM_cons]; exact Fallible.bind_eq_ok.2 ⟨f₁, hgive, hfold⟩⟩

/-! ### The calls of a source -/

/-- **Collecting a source ends** as long as there are enough colors for its calls. -/
theorem exists_collect (d : Color.Draws) (reserved : List Text) (source : Text)
    (h : reserved.length + (Fade.calls source).length + 2 ≤ Color.total) :
    ∃ f, (start d reserved).collect source = .ok f := by
  obtain ⟨seen, hseen⟩ := observe_eq (start d reserved) source
  refine exists_foldlM_give _ _ ?_
  rw [hseen]
  simpa [start, Table.values, Table.empty] using h

/-- **The calls that are given a color** are those that the compiler cannot evaluate. -/
theorem mem_keys_collect (h : (start d reserved).collect source = .ok f) :
    call ∈ f.sentinels.keys ↔ call ∈ Fade.calls source ∧ Fade.isStatic call = false := by
  rw [mem_keys_foldlM_give h, sentinels_observe]
  simp [start, Table.keys, Table.empty]

/-- **No call is given black, white or a reserved color.** -/
theorem notMem_of_collect (h : (start d reserved).collect source = .ok f)
    (hcolor : color ∈ f.sentinels.values) : color ∉ Color.black :: Color.white :: reserved := by
  obtain ⟨seen, hseen⟩ := observe_eq (start d reserved) source
  have hfree : f.reserved = reserved ∧
      ∀ color ∈ f.sentinels.values, color ∉ Color.black :: Color.white :: reserved := by
    refine Fallible.foldlM_induction (p := fun g : FadeMap => g.reserved = reserved ∧
      ∀ color ∈ g.sentinels.values, color ∉ Color.black :: Color.white :: reserved) ?_ ?_ h
    · rintro g call g' - ⟨hreserved, hg⟩ hgive
      obtain ⟨rfl, -⟩ | ⟨-, hreserved', new, hdraw, hentries⟩ := give_cases hgive
      · exact ⟨hreserved, hg⟩
      · have hnew := (Color.of_drawUnique hdraw).2
        refine ⟨hreserved'.trans hreserved, fun color hcolor => ?_⟩
        rw [Table.values, hentries, List.map_append, List.mem_append, List.map_singleton,
          List.mem_singleton] at hcolor
        rcases hcolor with hcolor | rfl
        · exact hg color hcolor
        · rw [hreserved] at hnew
          exact fun hmem => hnew (List.cons_subset_cons _ (List.cons_subset_cons _
            (List.subset_append_left _ _)) hmem)
    · rw [hseen]
      exact ⟨rfl, by simp [start, Table.values, Table.empty]⟩
  exact hfree.2 color hcolor

/-- **The colors of calls keep apart.** Ignoring case, no two calls have the same one, and none is black,
white or a reserved color in lower case; none is a reserved color as it is written.  Nothing else is looked
at: the first color that is drawn goes to a call if it is none of these, wherever else it stands. -/
theorem collect_apart (h : (start d reserved).collect source = .ok f) :
    (f.sentinels.values.map (·.map foldCase)).Nodup ∧
      (∀ color ∈ f.sentinels.values, ∀ taken ∈ Color.black :: Color.white :: reserved,
        color ≠ taken ∧ (taken.map foldCase = taken → color.map foldCase ≠ taken.map foldCase)) ∧
      ((∃ call ∈ Fade.calls source, Fade.isStatic call = false) →
        (∀ taken ∈ Color.black :: Color.white :: reserved,
          (Color.draw d).1.map foldCase ≠ taken.map foldCase) →
        (Color.draw d).1 ∈ f.sentinels.values) := by
  have hsound := sound_collect h
  have hfolded : ∀ color ∈ f.sentinels.values, color.map foldCase = color := by
    intro color hcolor
    obtain ⟨e, he, rfl⟩ := List.mem_map.1 hcolor
    exact (hsound.color e he).folded
  refine ⟨?_, fun color hcolor taken htaken => ?_, fun hcall hfree => ?_⟩
  · rw [List.map_congr_left hfolded, List.map_id']
    exact hsound.distinct
  · have hne : color ≠ taken := fun he => notMem_of_collect h hcolor (he ▸ htaken)
    exact ⟨hne, fun hlower => by rwa [hfolded color hcolor, hlower]⟩
  · obtain ⟨seen, hseen⟩ := observe_eq (start d reserved) source
    rw [collect, hseen] at h
    have hfirst := draw_mem_foldlM_give h rfl hcall
    exact hfirst fun hmem => hfree _ hmem rfl

/-- A call beside a color that is drawn for it, and another call. -/
def besideLiteral : Text := "color: fade(@a, 20%); border: #1890ff; fill: fade(@b, 10%)".toList

/-- The first of the two colors drawn stands in the source. -/
theorem collect_besideLiteral :
    ∃ f, (start (.ofScript [0x1890ff, 0, 0x123456]) ["#123456".toList]).collect besideLiteral = .ok f ∧
      f.sentinels.values = ["#1890ff".toList, "#000001".toList] := by
  have hrun : ((start (.ofScript [0x1890ff, 0, 0x123456]) ["#123456".toList]).collect besideLiteral).toOption.map
      (·.sentinels.values) = some ["#1890ff".toList, "#000001".toList] := by
    decide +kernel
  cases hc : (start (.ofScript [0x1890ff, 0, 0x123456]) ["#123456".toList]).collect besideLiteral with
  | error e =>
    rw [hc] at hrun
    simp [Except.toOption] at hrun
  | ok f =>
    rw [hc] at hrun
    exact ⟨f, rfl, by simpa only [Except.toOption, Option.map_some, Option.some.injEq] using hrun⟩

/-- The two colors are apart, though the first stands in the source. -/
theorem collect_apart_besideLiteral :
    ∃ f, (start (.ofScript [0x1890ff, 0, 0x123456]) ["#123456".toList]).collect besideLiteral = .ok f ∧
      (f.sentinels.values.map (·.map foldCase)).Nodup ∧ "#1890ff".toList ∈ f.sentinels.values := by
  obtain ⟨f, hf, -⟩ := collect_besideLiteral
  obtain ⟨hnodup, -, hdraw⟩ := collect_apart hf
  exact ⟨f, hf, hnodup, hdraw ⟨"fade(@a, 20%)".toList, by decide +kernel, by decide +kernel⟩
    (by decide)⟩

/-- **A color of the source may be given to a call.** -/
theorem not_forall_collect_apart :
    ¬ ∀ (d : Color.Draws) (reserved : List Text) (source : Text) (f : FadeMap),
      (start d reserved).collect source = .ok f →
        (f.sentinels.values.map (·.map foldCase)).Nodup ∧
        ∀ color ∈ f.sentinels.values,
          (∀ taken ∈ Color.black :: Color.white :: reserved, color.map foldCase ≠ taken.map foldCase) ∧
          ∀ before literal after, source = before ++ literal ++ after → Color.isHexColor literal = true →
            (∀ c, after.head? = some c → isNameChar c = false) →
              color.map foldCase ≠ literal.map foldCase := by
  intro hall
  obtain ⟨f, hf, hvalues⟩ := collect_besideLiteral
  have hgiven : "#1890ff".toList ∈ f.sentinels.values := by simp [hvalues]
  have hliteral := (hall _ _ _ f hf).2 _ hgiven
  exact hliteral.2 "color: fade(@a, 20%); border: ".toList "#1890ff".toList "; fill: fade(@b, 10%)".toList
    (by decide) (by decide)
    (fun c hc => by obtain rfl : ';' = c := Option.some.inj hc; decide) rfl

end FadeMap
end ThemeSheet
