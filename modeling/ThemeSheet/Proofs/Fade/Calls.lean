/-
# The calls of a source

A call begins with `fade(`, ends with a round bracket and stands in the source as it
is.  Each call that the compiler cannot evaluate is given a color that was drawn for
it alone.
-/

import ThemeSheet.Proofs.Color.Drawing
import ThemeSheet.Proofs.Fade.Nesting
import ThemeSheet.Proofs.Table

namespace ThemeSheet

namespace Fade

/-- **A call as it is written:** `fade(`, arguments and a closing bracket. -/
def IsCall (call : Text) : Prop := ∃ inner, call = opening ++ inner ++ [')']

/-- A call ends with its bracket. -/
theorem IsCall.eq_append {call : Text} (h : IsCall call) : ∃ front, call = front ++ [')'] := by
  obtain ⟨inner, hi⟩ := h
  exact ⟨opening ++ inner, hi⟩

/-- Every end of a call ends with the bracket. -/
theorem IsCall.end_eq_append {call front back : Text} (h : IsCall call) (hw : call = front ++ back)
    (hb : back ≠ []) : ∃ b, back = b ++ [')'] := by
  obtain ⟨before, hbefore⟩ := h.eq_append
  obtain ⟨b, x, rfl⟩ := (List.eq_nil_or_concat back).resolve_left hb
  rw [hw, List.concat_eq_append, ← List.append_assoc] at hbefore
  obtain ⟨-, hx⟩ := List.append_inj' hbefore rfl
  exact ⟨b, by rw [List.concat_eq_append, hx]⟩

/-- A shallow call is a call as it is found. -/
theorem IsShallow.isCall {call : Text} (h : IsShallow call) : IsCall call := by
  obtain ⟨inner, -, rfl⟩ := h
  exact ⟨inner, rfl⟩

/-- **A call that is found stands in the source.** -/
theorem of_mem_calls {source call : Text} (h : call ∈ calls source) :
    IsShallow call ∧ ∃ before after, source = before ++ call ++ after := by
  obtain ⟨before, u, rest, rfl, hu⟩ := Text.mem_allMatches (fun u x r hx => ⟨x, (call?_eq_some.1 hx).2⟩) h
  obtain ⟨hcall, rfl⟩ := call?_eq_some.1 hu
  exact ⟨hcall, before, rest, (List.append_assoc ..).symm⟩

end Fade

namespace FadeMap

/-- **Colors that stand for calls of a source:** drawn for one call each. -/
structure Sound (f : FadeMap) (source : Text) : Prop where
  call : ∀ e ∈ f.sentinels.entries, Fade.IsCall e.1 ∧ ∃ before after, source = before ++ e.1 ++ after
  color : ∀ e ∈ f.sentinels.entries, Color.Drawn e.2
  distinct : f.sentinels.values.Nodup

/-- **What one call changes:** nothing if the compiler can evaluate it or it has a color, and otherwise a
color is drawn for it that is not taken and stands behind the others. -/
theorem give_cases {f f' : FadeMap} {call : Text} (h : f.give call = .ok f') :
    (f' = f ∧ (Fade.isStatic call = true ∨ call ∈ f.sentinels.keys)) ∨
      Fade.isStatic call = false ∧ f'.reserved = f.reserved ∧ ∃ color,
        Color.drawUnique (f.reserved ++ f.sentinels.values) f.draws = some (color, f'.draws) ∧
        f'.sentinels.entries = f.sentinels.entries ++ [(call, color)] := by
  rw [give] at h
  split at h
  · next hold =>
    rw [Bool.or_eq_true, Table.contains_iff] at hold
    exact .inl ⟨(Except.ok.inj h).symm, hold⟩
  · next hnew =>
    rw [Bool.or_eq_true, not_or, Table.contains_iff, Bool.not_eq_true] at hnew
    split at h
    · next color rest hd =>
      obtain rfl := Except.ok.inj h
      exact .inr ⟨hnew.1, rfl, color, hd, Table.putPair_of_notMem hnew.2⟩
    · simp at h

/-- A call of the source that is given a color keeps the colors sound. -/
theorem sound_give {f f' : FadeMap} {source call : Text} (hf : f.Sound source)
    (hc : call ∈ Fade.calls source) (h : f.give call = .ok f') : f'.Sound source := by
  obtain ⟨rfl, -⟩ | ⟨-, -, color, hdraw, hentries⟩ := give_cases h
  · exact hf
  · obtain ⟨hdrawn, hfree⟩ := Color.of_drawUnique hdraw
    refine ⟨fun e he => ?_, fun e he => ?_, ?_⟩
    · rw [hentries, List.mem_append, List.mem_singleton] at he
      rcases he with he | rfl
      · exact hf.call e he
      · exact (Fade.of_mem_calls hc).imp Fade.IsShallow.isCall id
    · rw [hentries, List.mem_append, List.mem_singleton] at he
      rcases he with he | rfl
      · exact hf.color e he
      · exact hdrawn
    · rw [Table.values, hentries, List.map_append]
      refine List.nodup_append.2 ⟨hf.distinct, List.nodup_singleton _, fun a ha b hb hab => hfree ?_⟩
      rw [hab, List.mem_singleton.1 hb] at ha
      simp [Table.values, ha]

/-- Calls that are only remembered change nothing else. -/
theorem observe_eq (f : FadeMap) (source : Text) :
    ∃ seen, f.observe source = { f with calls := seen } := by
  rw [observe]
  induction Fade.calls source generalizing f with
  | nil => exact ⟨f.calls, rfl⟩
  | cons call calls ih =>
    rw [List.foldl_cons, see]
    split
    · exact ih f
    · obtain ⟨seen, hseen⟩ := ih { f with calls := f.calls ++ [call] }
      exact ⟨seen, hseen⟩

/-- Observing a source gives no colors. -/
theorem sentinels_observe (f : FadeMap) (source : Text) : (f.observe source).sentinels = f.sentinels := by
  obtain ⟨seen, hseen⟩ := observe_eq f source
  rw [hseen]

/-- Observing sources gives no colors. -/
theorem sentinels_foldl_observe (f : FadeMap) (sources : List Text) :
    (sources.foldl observe f).sentinels = f.sentinels := by
  induction sources generalizing f with
  | nil => rfl
  | cons source sources ih => rw [List.foldl_cons, ih, sentinels_observe]

/-- **After the calls of a source are collected, the colors stand for calls of the source.** -/
theorem sound_collect {d : Color.Draws} {reserved : List Text} {source : Text} {f : FadeMap}
    (h : (start d reserved).collect source = .ok f) : f.Sound source := by
  refine Fallible.foldlM_induction (p := (Sound · source))
    (fun _ _ _ hc hs hg => sound_give hs hc hg) ?_ h
  have hempty : ((start d reserved).observe source).sentinels = .empty := sentinels_observe _ _
  constructor
  · rw [hempty]; simp [Table.empty]
  · rw [hempty]; simp [Table.empty]
  · rw [hempty]; simp [Table.values, Table.empty]

end FadeMap
end ThemeSheet
