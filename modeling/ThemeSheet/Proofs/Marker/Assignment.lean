/-
# The markers of theme variables

Every variable of a list is given one marker, a color of six digits in lower case; the
markers stand in the order of the variables.
-/

import ThemeSheet.Marker.Assignment
import ThemeSheet.Proofs.Color.Drawing
import ThemeSheet.Proofs.Fallible
import ThemeSheet.Proofs.Table

namespace ThemeSheet
namespace MarkerAssignment

/-- The marker of the main theme color is written as a drawn one. -/
theorem drawn_primaryMarker : Color.Drawn primaryMarker := ⟨by decide, by decide +kernel⟩

/-- A variable that has no marker yet gets one behind the others. -/
theorem extend_eq_ok {m m' : MarkerAssignment} {d d' : Color.Draws} {name : Text}
    (h : extend m d name = .ok (m', d')) (hn : name ∉ m.colors.keys) :
    ∃ color, Color.Drawn color ∧ m'.colors.entries = m.colors.entries ++ [(name, color)] := by
  rw [extend] at h
  split at h
  · obtain ⟨rfl, -⟩ := Prod.mk.inj (Except.ok.inj h)
    exact ⟨primaryMarker, drawn_primaryMarker, Table.putPair_of_notMem hn⟩
  · split at h
    · next color rest hd =>
      obtain ⟨rfl, -⟩ := Prod.mk.inj (Except.ok.inj h)
      exact ⟨color, (Color.of_drawWithin hd).1, Table.putPair_of_notMem hn⟩
    · simp at h

/-- The names get their markers in order, all of them drawn colors. -/
theorem foldlM_extend {names : List Text} {m m' : MarkerAssignment} {d d' : Color.Draws}
    (h : names.foldlM (fun (p : MarkerAssignment × Color.Draws) name => extend p.1 p.2 name)
      (m, d) = .ok (m', d'))
    (hn : (m.colors.keys ++ names).Nodup) (hm : ∀ e ∈ m.colors.entries, Color.Drawn e.2) :
    m'.colors.keys = m.colors.keys ++ names ∧ ∀ e ∈ m'.colors.entries, Color.Drawn e.2 := by
  induction names generalizing m d with
  | nil =>
    obtain ⟨rfl, -⟩ := Prod.mk.inj (Except.ok.inj h)
    exact ⟨by simp, hm⟩
  | cons name names ih =>
    rw [List.foldlM_cons] at h
    obtain ⟨⟨m₁, d₁⟩, he, h⟩ := Fallible.bind_eq_ok.1 h
    have hnew : name ∉ m.colors.keys := fun hin =>
      (List.nodup_append.1 hn).2.2 name hin name (List.mem_cons_self ..) rfl
    obtain ⟨color, hc, hentries⟩ := extend_eq_ok he hnew
    have hkeys : m₁.colors.keys = m.colors.keys ++ [name] := by
      rw [Table.keys, hentries, List.map_append]
      rfl
    obtain ⟨hk, hall⟩ := ih h (by rw [hkeys]; simpa using hn) fun e he => by
      rw [hentries, List.mem_append, List.mem_singleton] at he
      rcases he with he | rfl
      · exact hm e he
      · exact hc
    exact ⟨by rw [hk, hkeys, List.append_assoc]; rfl, hall⟩

/-- **Every variable has one marker, a drawn color.** -/
theorem ofVariables_eq_ok {names : List Text} {d rest : Color.Draws} {m : MarkerAssignment}
    (h : ofVariables names d = .ok (m, rest)) (hn : names.Nodup) :
    m.colors.keys = names ∧ ∀ e ∈ m.colors.entries, Color.Drawn e.2 :=
  foldlM_extend h (by simpa [empty, Table.keys, Table.empty] using hn) (by simp [empty, Table.empty])

end MarkerAssignment
end ThemeSheet
