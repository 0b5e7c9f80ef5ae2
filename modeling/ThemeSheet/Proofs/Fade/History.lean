/-
# Calls and their colors over a history of sources

Sources come one after another; the calls of some are only remembered, those of others
are given colors too.  At any time every call that was seen is remembered once, in the
order of the first time, and so are the calls that were to be given colors, each with
the color it was given first.  A call that comes again changes nothing.  The history
ends as long as there is a color that is not taken whenever one is drawn, that is, as
long as the colors taken at the beginning and the calls are no more than there are
colors.
-/

import Mathlib.Data.List.Nodup
import Mathlib.Data.List.Perm.Subperm
import ThemeSheet.Proofs.Fade.Sentinel

namespace ThemeSheet

namespace Color

variable {reserved colors : List Text} {d rest : Draws} {color : Text}

/-- The colors that are black, white or reserved as they are written. -/
def takenAtFirst (reserved : List Text) : List Text :=
  ((List.range total).map ofNumber).filter fun color => color ∈ black :: white :: reserved

/-- The colors with six digits are all different. -/
theorem nodup_allColors : ((List.range total).map ofNumber).Nodup :=
  List.nodup_range.map fun _ _ => ofNumber_injective

/-- What is drawn is a color with six digits. -/
theorem mem_allColors_draw (d : Draws) : (draw d).1 ∈ (List.range total).map ofNumber := by
  have hlow := Int.emod_nonneg d.head (b := (total : Int)) (by decide)
  have hhigh := Int.emod_lt_of_pos d.head (b := (total : Int)) (by decide)
  exact List.mem_map.2 ⟨(d.head % total).toNat, List.mem_range.2 (by omega), rfl⟩

/-- A color that is drawn until one is free is one of all colors. -/
theorem mem_allColors_of_drawUnique (h : drawUnique reserved d = some (color, rest)) :
    color ∈ (List.range total).map ofNumber := by
  obtain ⟨k, -, -, hdraw, -⟩ := drawWithin_eq_some_iff.1 h
  rw [← (Prod.mk.inj hdraw).1]
  exact mem_allColors_draw _

/-- **Different colors that are not taken** are, with the taken ones, no more than there are colors. -/
theorem length_takenAtFirst_add_le (hall : ∀ color ∈ colors, color ∈ (List.range total).map ofNumber)
    (hnodup : colors.Nodup) (hfree : ∀ color ∈ colors, color ∉ black :: white :: reserved) :
    (takenAtFirst reserved).length + colors.length ≤ total := by
  have happend : (takenAtFirst reserved ++ colors).Nodup := by
    refine List.nodup_append.2 ⟨nodup_allColors.filter _, hnodup, fun a ha b hb hab => hfree b hb ?_⟩
    exact hab ▸ of_decide_eq_true (List.mem_filter.1 ha).2
  have hsubset : takenAtFirst reserved ++ colors ⊆ (List.range total).map ofNumber :=
    List.append_subset.2 ⟨List.filter_subset_self _, hall⟩
  have hle := (List.subperm_of_subset happend hsubset).length_le
  rwa [List.length_append, List.length_map, List.length_range] at hle

/-- **A color is drawn** as long as the taken ones and those that were given are fewer than there are. -/
theorem exists_drawUnique (h : (takenAtFirst reserved).length + colors.length < total) (d : Draws) :
    ∃ color rest, drawUnique (reserved ++ colors) d = some (color, rest) := by
  cases hdraw : drawUnique (reserved ++ colors) d with
  | some found => exact ⟨found.1, found.2, rfl⟩
  | none =>
    have hnone := drawFree_eq_none_iff.1 hdraw
    -- every color is taken or was given
    have hsubset : (List.range total).map ofNumber ⊆ takenAtFirst reserved ++ colors := by
      intro color hcolor
      obtain ⟨n, hn, rfl⟩ := List.mem_map.1 hcolor
      have htaken := hnone n (List.mem_range.1 hn)
      rw [List.mem_append, takenAtFirst, List.mem_filter, decide_eq_true_iff]
      simp only [decide_eq_false_iff_not, List.contains_eq_mem, List.mem_append, decide_eq_true_iff] at htaken
      by_cases hgiven : ofNumber n ∈ colors
      · exact .inr hgiven
      · refine .inl ⟨hcolor, ?_⟩
        by_contra hfree
        rw [List.mem_cons, List.mem_cons, not_or, not_or] at hfree
        exact htaken ⟨hfree.1, hfree.2.1, fun hm => hm.elim hfree.2.2 hgiven⟩
    have hle := (List.subperm_of_subset nodup_allColors hsubset).length_le
    rw [List.length_map, List.length_range, List.length_append] at hle
    omega

/-- No more colors are taken at first than there are reserved ones, black and white. -/
theorem length_takenAtFirst_le (reserved : List Text) : (takenAtFirst reserved).length ≤ reserved.length + 2 :=
  (List.subperm_of_subset (nodup_allColors.filter _) fun _ h => of_decide_eq_true (List.mem_filter.1 h).2).length_le

end Color

namespace FadeMap

variable {f f' : FadeMap} {reserved seen given : List Text} {call source : Text}

/-! ### A history -/

/-- **What is done with a source:** its calls are remembered, or they are given colors too. -/
inductive Step where
  | observe (source : Text)
  | collect (source : Text)

namespace Step

/-- The calls that are seen. -/
def calls : Step → List Text
  | observe source => Fade.calls source
  | collect source => Fade.calls source

/-- The calls that are to have colors: those that the compiler cannot evaluate. -/
def needing : Step → List Text
  | observe _ => []
  | collect source => (Fade.calls source).filter (!Fade.isStatic ·)

end Step

/-- Does what a step says. -/
def perform (f : FadeMap) : Step → Except Fault FadeMap
  | .observe source => .ok (f.observe source)
  | .collect source => f.collect source

/-- Does the steps one after another. -/
def run (f : FadeMap) (steps : List Step) : Except Fault FadeMap := steps.foldlM perform f

/-- **What is remembered of the calls that were seen and of those that were to be given colors,** both as often as
they came: each of them once, in the order of the first time, with colors that are different and free. -/
structure Remembers (f : FadeMap) (reserved seen given : List Text) : Prop where
  reserve : f.reserved = reserved
  calls : f.calls = seen.eraseDups
  keys : f.sentinels.keys = given.eraseDups
  distinct : f.sentinels.values.Nodup
  free : ∀ color ∈ f.sentinels.values, color ∉ Color.black :: Color.white :: reserved
  drawn : ∀ color ∈ f.sentinels.values, color ∈ (List.range Color.total).map Color.ofNumber

/-- One more element behind a list is kept if it is a new one. -/
theorem eraseDups_concat (l : List Text) (a : Text) :
    (l ++ [a]).eraseDups = if a ∈ l then l.eraseDups else l.eraseDups ++ [a] := by
  rw [List.eraseDups_append, List.removeAll]
  by_cases h : a ∈ l <;> simp [h, List.eraseDups_cons]

/-- A longer list has no fewer different members. -/
theorem length_eraseDups_le_append (l l' : List Text) : l.eraseDups.length ≤ (l ++ l').eraseDups.length := by
  rw [List.eraseDups_append, List.length_append]
  exact Nat.le_add_right ..

/-- There are as many colors as calls with one. -/
theorem length_values (f : FadeMap) : f.sentinels.values.length = f.sentinels.keys.length := by
  rw [Table.values, Table.keys, List.length_map, List.length_map]

/-- Giving a call a color changes nothing about the calls that are remembered. -/
theorem calls_give (h : f.give call = .ok f') : f'.calls = f.calls := by
  rw [FadeMap.give] at h
  split at h
  · rw [← Except.ok.inj h]
  · split at h
    · rw [← Except.ok.inj h]
    · exact absurd h (by simp)

/-- A call that can be evaluated, or that has a color, changes nothing. -/
theorem give_of_old (h : Fade.isStatic call = true ∨ call ∈ f.sentinels.keys) : f.give call = .ok f := by
  rw [FadeMap.give, if_pos]
  rwa [Bool.or_eq_true, Table.contains_iff]

/-- A call that is remembered is not remembered once more. -/
theorem see_of_mem (h : call ∈ f.calls) : f.see call = f := if_pos (List.contains_iff_mem.2 h)

namespace Remembers

/-- At the beginning, nothing is remembered. -/
theorem start (d : Color.Draws) (reserved : List Text) : (FadeMap.start d reserved).Remembers reserved [] [] where
  reserve := rfl
  calls := rfl
  keys := rfl
  distinct := List.nodup_nil
  free := List.forall_mem_nil _
  drawn := List.forall_mem_nil _

/-! ### One call after another -/

/-- Seeing a call remembers it. -/
theorem see (h : f.Remembers reserved seen given) (call : Text) :
    (f.see call).Remembers reserved (seen ++ [call]) given := by
  by_cases hc : call ∈ seen
  · rw [see_of_mem (by rw [h.calls]; exact List.mem_eraseDups.2 hc)]
    exact { h with calls := by rw [h.calls, eraseDups_concat, if_pos hc] }
  · have hnew : f.see call = { f with calls := f.calls ++ [call] } :=
      if_neg fun hm => hc (List.mem_eraseDups.1 (h.calls ▸ List.contains_iff_mem.1 hm))
    rw [hnew]
    exact { h with calls := by rw [eraseDups_concat, if_neg hc, ← h.calls] }

/-- **A call that needs a color and has none** is given one that is free and different from the others. -/
theorem give (h : f.Remembers reserved seen given) (hgive : f.give call = .ok f') :
    f'.Remembers reserved seen (given ++ [call].filter (!Fade.isStatic ·)) := by
  have hcalls : f'.calls = seen.eraseDups := (calls_give hgive).trans h.calls
  obtain ⟨rfl, hstatic | hkey⟩ | ⟨hnew, hreserved, color, hdraw, hentries⟩ := give_cases hgive
  · simpa [hstatic] using h
  · have hgiven : call ∈ given := List.mem_eraseDups.1 (h.keys ▸ hkey)
    cases hstatic : Fade.isStatic call with
    | true => simpa [hstatic] using h
    | false => exact { h with keys := by rw [h.keys]; simp [hstatic, eraseDups_concat, hgiven] }
  · have hkeys : f'.sentinels.keys = f.sentinels.keys ++ [call] := by
      rw [Table.keys, hentries, List.map_append]
      rfl
    have hvalues : f'.sentinels.values = f.sentinels.values ++ [color] := by
      rw [Table.values, hentries, List.map_append]
      rfl
    have hmissing : call ∉ given := by
      intro hm
      have hnodup := f'.sentinels.nodup
      rw [show f'.sentinels.entries.map Prod.fst = f.sentinels.keys ++ [call] from hkeys, h.keys] at hnodup
      exact (List.nodup_append.1 hnodup).2.2 call (List.mem_eraseDups.2 hm) call (by simp) rfl
    have hcolor := (Color.of_drawUnique hdraw).2
    rw [h.reserve] at hcolor
    constructor
    · exact hreserved.trans h.reserve
    · exact hcalls
    · rw [hkeys, h.keys]
      simp [hnew, eraseDups_concat, hmissing]
    · rw [hvalues]
      refine List.nodup_append.2 ⟨h.distinct, List.nodup_singleton _, fun a ha b hb hab => hcolor ?_⟩
      rw [hab, List.mem_singleton.1 hb] at ha
      simp [ha]
    · rw [hvalues]
      refine List.forall_mem_append.2 ⟨h.free, List.forall_mem_singleton.2 fun hm => hcolor ?_⟩
      exact List.cons_subset_cons _ (List.cons_subset_cons _ (List.subset_append_left _ _)) hm
    · rw [hvalues]
      exact List.forall_mem_append.2 ⟨h.drawn, List.forall_mem_singleton.2 (Color.mem_allColors_of_drawUnique hdraw)⟩

/-- **A call is given a color** as long as there is a free one, if it is a new one that needs a color. -/
theorem exists_give (h : f.Remembers reserved seen given) (hroom : (Color.takenAtFirst reserved).length +
      (given ++ [call].filter (!Fade.isStatic ·)).eraseDups.length ≤ Color.total) :
    ∃ f', f.give call = .ok f' := by
  by_cases hold : Fade.isStatic call = true ∨ call ∈ f.sentinels.keys
  · exact ⟨f, give_of_old hold⟩
  · obtain ⟨hstatic, hkey⟩ := not_or.1 hold
    have hgiven : call ∉ given := fun hm => hkey (by rw [h.keys]; exact List.mem_eraseDups.2 hm)
    have hlength : (given ++ [call].filter (!Fade.isStatic ·)).eraseDups.length = f.sentinels.values.length + 1 := by
      rw [length_values, h.keys]
      simp [hstatic, eraseDups_concat, hgiven]
    obtain ⟨color, rest, hdraw⟩ :
        ∃ color rest, Color.drawUnique (reserved ++ f.sentinels.values) f.draws = some (color, rest) :=
      Color.exists_drawUnique (by omega) f.draws
    refine ⟨{ f with draws := rest, sentinels := f.sentinels.insert call color }, ?_⟩
    rw [FadeMap.give, if_neg (by rwa [Bool.or_eq_true, Table.contains_iff]), h.reserve, hdraw]

/-! ### One source after another -/

/-- Seeing calls remembers them in their order. -/
theorem foldl_see (h : f.Remembers reserved seen given) (calls : List Text) :
    (calls.foldl FadeMap.see f).Remembers reserved (seen ++ calls) given := by
  induction calls generalizing f seen with
  | nil => simpa using h
  | cons call calls ih =>
    have hnext := ih (h.see call)
    rwa [List.append_assoc] at hnext

/-- Giving calls colors remembers those that need one, in their order. -/
theorem foldlM_give {calls : List Text} (h : f.Remembers reserved seen given)
    (hrun : calls.foldlM FadeMap.give f = .ok f') :
    f'.Remembers reserved seen (given ++ calls.filter (!Fade.isStatic ·)) := by
  induction calls generalizing f given with
  | nil =>
    obtain rfl := Except.ok.inj hrun
    simpa using h
  | cons call calls ih =>
    rw [List.foldlM_cons] at hrun
    obtain ⟨g, hgive, hrun⟩ := Fallible.bind_eq_ok.1 hrun
    have hnext := ih (h.give hgive) hrun
    rwa [List.append_assoc, ← List.filter_append] at hnext

/-- Calls can be given colors as long as there are colors enough. -/
theorem exists_foldlM_give {calls : List Text} (h : f.Remembers reserved seen given)
    (hroom : (Color.takenAtFirst reserved).length + (given ++ calls.filter (!Fade.isStatic ·)).eraseDups.length ≤
      Color.total) : ∃ f', calls.foldlM FadeMap.give f = .ok f' := by
  induction calls generalizing f given with
  | nil => exact ⟨f, rfl⟩
  | cons call calls ih =>
    rw [show call :: calls = [call] ++ calls from rfl, List.filter_append, ← List.append_assoc] at hroom
    have hfirst := length_eraseDups_le_append (given ++ [call].filter (!Fade.isStatic ·))
      (calls.filter (!Fade.isStatic ·))
    obtain ⟨g, hgive⟩ : ∃ g, f.give call = .ok g := h.exists_give (by omega)
    obtain ⟨f', hrun⟩ := ih (h.give hgive) hroom
    exact ⟨f', by rw [List.foldlM_cons]; exact Fallible.bind_eq_ok.2 ⟨g, hgive, hrun⟩⟩

/-- **What a step keeps.** -/
theorem perform {step : Step} (h : f.Remembers reserved seen given) (hstep : f.perform step = .ok f') :
    f'.Remembers reserved (seen ++ step.calls) (given ++ step.needing) := by
  cases step with
  | observe source =>
    obtain rfl := Except.ok.inj hstep
    rw [Step.needing, List.append_nil]
    exact h.foldl_see _
  | collect source => exact (h.foldl_see _).foldlM_give hstep

/-- A step succeeds as long as there are colors enough for it. -/
theorem exists_perform {step : Step} (h : f.Remembers reserved seen given)
    (hroom : (Color.takenAtFirst reserved).length + (given ++ step.needing).eraseDups.length ≤ Color.total) :
    ∃ f', f.perform step = .ok f' := by
  cases step with
  | observe source => exact ⟨f.observe source, rfl⟩
  | collect source => exact (h.foldl_see (Fade.calls source)).exists_foldlM_give hroom

/-- **What a history keeps.** -/
theorem run {steps : List Step} (h : f.Remembers reserved seen given) (hrun : f.run steps = .ok f') :
    f'.Remembers reserved (seen ++ steps.flatMap Step.calls) (given ++ steps.flatMap Step.needing) := by
  induction steps generalizing f seen given with
  | nil =>
    obtain rfl := Except.ok.inj hrun
    simpa using h
  | cons step steps ih =>
    rw [FadeMap.run, List.foldlM_cons] at hrun
    obtain ⟨g, hstep, hrun⟩ := Fallible.bind_eq_ok.1 hrun
    have hnext := ih (h.perform hstep) hrun
    rwa [List.append_assoc, List.append_assoc] at hnext

/-- **A run succeeds as long as there are colors enough for all its calls.** -/
theorem exists_run {steps : List Step} (h : f.Remembers reserved seen given)
    (hroom : (Color.takenAtFirst reserved).length + (given ++ steps.flatMap Step.needing).eraseDups.length ≤
      Color.total) : ∃ f', f.run steps = .ok f' := by
  induction steps generalizing f seen given with
  | nil => exact ⟨f, rfl⟩
  | cons step steps ih =>
    rw [List.flatMap_cons, ← List.append_assoc] at hroom
    have hfirst := length_eraseDups_le_append (given ++ step.needing) (steps.flatMap Step.needing)
    obtain ⟨g, hstep⟩ : ∃ g, f.perform step = .ok g := h.exists_perform (by omega)
    obtain ⟨f', hrun⟩ := ih (h.perform hstep) hroom
    exact ⟨f', by rw [FadeMap.run, List.foldlM_cons]; exact Fallible.bind_eq_ok.2 ⟨g, hstep, hrun⟩⟩

/-- **A source whose calls were given colors** changes nothing when it is collected again, and nothing is drawn. -/
theorem collect_eq (h : f.Remembers reserved seen given) (hseen : Fade.calls source ⊆ seen)
    (hgiven : (Fade.calls source).filter (!Fade.isStatic ·) ⊆ given) : f.collect source = .ok f := by
  have hobserve : f.observe source = f := by
    rw [observe]
    refine List.foldlRecOn (motive := (· = f)) _ _ rfl fun g hg call hcall => ?_
    rw [hg, see_of_mem]
    rw [h.calls]
    exact List.mem_eraseDups.2 (hseen hcall)
  have hgive : ∀ call ∈ Fade.calls source, f.give call = .ok f := by
    intro call hcall
    refine give_of_old ?_
    cases hstatic : Fade.isStatic call with
    | true => exact .inl rfl
    | false =>
      have hneeds : call ∈ given := hgiven (List.mem_filter.2 ⟨hcall, by rw [hstatic]; rfl⟩)
      exact .inr (by rw [h.keys]; exact List.mem_eraseDups.2 hneeds)
  rw [collect, hobserve]
  generalize Fade.calls source = calls at hgive
  induction calls with
  | nil => rfl
  | cons call calls ih =>
    obtain ⟨hcall, hcalls⟩ := List.forall_mem_cons.1 hgive
    rw [List.foldlM_cons, hcall]
    exact ih hcalls

end Remembers

/-- The colors that were given stay with their calls. -/
theorem entries_prefix_run {steps : List Step} (h : f.run steps = .ok f') :
    f.sentinels.entries <+: f'.sentinels.entries := by
  refine Fallible.foldlM_induction (p := fun g => f.sentinels.entries <+: g.sentinels.entries) ?_
    (List.prefix_refl _) h
  intro g step g' _ hg hstep
  cases step with
  | observe source =>
    rw [← Except.ok.inj hstep, sentinels_observe]
    exact hg
  | collect source =>
    have hcollect := entries_prefix_foldlM_give (f := g.observe source) hstep
    rw [sentinels_observe] at hcollect
    exact hg.trans hcollect

/-- **What is kept of a history of sources,** whatever colors are reserved and whatever numbers are drawn. The history
ends exactly if the colors that are taken at first and the calls that need one are no more than there are colors, so
that never all are taken when one is drawn. Then the calls with a color are those of the collected sources that the
compiler cannot evaluate, and the calls that are remembered are all that were seen, both in the order of the first
time; no two calls have the same color, and none has black, white or a reserved one; a call keeps its color whatever
follows; and collecting a source again changes nothing, the numbers to come included. -/
theorem run_spec (d : Color.Draws) (reserved : List Text) (steps : List Step) :
    ((∃ f, (start d reserved).run steps = .ok f) ↔
        (Color.takenAtFirst reserved).length + (steps.flatMap Step.needing).eraseDups.length ≤ Color.total) ∧
      ∀ f, (start d reserved).run steps = .ok f →
        f.sentinels.keys = (steps.flatMap Step.needing).eraseDups ∧
        f.calls = (steps.flatMap Step.calls).eraseDups ∧
        f.sentinels.values.Nodup ∧
        (∀ color ∈ f.sentinels.values, color ∉ Color.black :: Color.white :: reserved) ∧
        (∀ more f', f.run more = .ok f' → f.sentinels.entries <+: f'.sentinels.entries) ∧
        ∀ source, Step.collect source ∈ steps → f.collect source = .ok f := by
  have hremembers {f : FadeMap} (h : (start d reserved).run steps = .ok f) :
      f.Remembers reserved (steps.flatMap Step.calls) (steps.flatMap Step.needing) :=
    (Remembers.start d reserved).run h
  refine ⟨⟨fun ⟨f, h⟩ => ?_, (Remembers.start d reserved).exists_run⟩, fun f h => ?_⟩
  · obtain ⟨-, -, hkeys, hdistinct, hfree, hdrawn⟩ := hremembers h
    have hle := Color.length_takenAtFirst_add_le hdrawn hdistinct hfree
    rwa [length_values, hkeys] at hle
  · have hf := hremembers h
    refine ⟨hf.keys, hf.calls, hf.distinct, hf.free, fun more f' hmore => entries_prefix_run hmore,
      fun source hsource => hf.collect_eq ?_ ?_⟩
    · exact fun call hcall => List.mem_flatMap.2 ⟨_, hsource, hcall⟩
    · exact fun call hcall => List.mem_flatMap.2 ⟨_, hsource, hcall⟩

/-- A history in which calls come again, one of them first where it is only remembered. -/
theorem run_spec_again :
    let steps : List Step := [.observe "fade(@b, 2%)".toList, .collect "fade(@a, 1%) fade(@black, 5%)".toList,
      .collect "fade(@b, 2%) fade(@a, 1%)".toList]
    ∃ f, (start (.ofScript [0, 2, 0x123456, 0x123456]) ["#000002".toList]).run steps = .ok f ∧
      f.sentinels.keys = ["fade(@a, 1%)".toList, "fade(@b, 2%)".toList] ∧
      f.calls = ["fade(@b, 2%)".toList, "fade(@a, 1%)".toList, "fade(@black, 5%)".toList] ∧
      f.collect "fade(@a, 1%) fade(@black, 5%)".toList = .ok f := by
  intro steps
  have hneeding : (steps.flatMap Step.needing).eraseDups = ["fade(@a, 1%)".toList, "fade(@b, 2%)".toList] := by
    decide +kernel
  have hcalls : (steps.flatMap Step.calls).eraseDups =
      ["fade(@b, 2%)".toList, "fade(@a, 1%)".toList, "fade(@black, 5%)".toList] := by
    decide +kernel
  obtain ⟨hends, hkept⟩ := run_spec (.ofScript [0, 2, 0x123456, 0x123456]) ["#000002".toList] steps
  obtain ⟨f, hf⟩ := hends.2 <| by
    have htaken := Color.length_takenAtFirst_le ["#000002".toList]
    rw [hneeding]
    exact (Nat.add_le_add_right htaken _).trans (by decide)
  obtain ⟨hkeys, hseen, -, -, -, hagain⟩ := hkept f hf
  exact ⟨f, hf, hkeys.trans hneeding, hseen.trans hcalls, hagain _ (by simp [steps])⟩

end FadeMap
end ThemeSheet
