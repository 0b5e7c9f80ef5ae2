/-
# Cutting a line at its last mark

`lastCut?` cuts at the last place where something applies, `lastInLine?` at the last
mark of a line.  Both leave an end of the text, and nothing of the text is lost.
-/

import ThemeSheet.Proofs.Text.Split

namespace ThemeSheet
namespace Text

/-- Where nothing applies in a text, there is no cut. -/
theorem lastCut?_eq_none_iff {close : Text → Option Text} {t : Text} :
    lastCut? close t = none ↔ ∀ front u, t = front ++ u → close u = none := by
  induction t with
  | nil =>
    rw [lastCut?, Option.map_eq_none_iff]
    constructor
    · intro h front u hu
      obtain ⟨-, rfl⟩ := List.append_eq_nil_iff.1 hu.symm
      exact h
    · exact fun h => h [] [] rfl
  | cons c t ih =>
    rw [lastCut?]
    constructor
    · intro h front u hu
      split at h
      · exact absurd h (Option.some_ne_none _)
      · next hnone =>
        cases front with
        | nil => exact (show c :: t = u from hu) ▸ Option.map_eq_none_iff.1 h
        | cons d front => exact ih.1 hnone front u (List.cons.inj hu).2
    · intro h
      rw [ih.2 fun front u hu => h (c :: front) u (by rw [hu]; rfl)]
      exact Option.map_eq_none_iff.2 (h [] (c :: t) rfl)

/-- **The last cut is the one behind which nothing applies.** -/
theorem lastCut?_eq_some_iff {close : Text → Option Text} {t before after : Text} :
    lastCut? close t = some (before, after) ↔ ∃ u, t = before ++ u ∧ close u = some after ∧
      ∀ front v, u = front ++ v → front ≠ [] → close v = none := by
  induction t generalizing before after with
  | nil =>
    rw [lastCut?]
    constructor
    · intro h
      obtain ⟨a, ha, he⟩ := Option.map_eq_some_iff.1 h
      obtain ⟨rfl, rfl⟩ := Prod.mk.inj he
      exact ⟨[], rfl, ha, fun front v hv hne => absurd (List.append_eq_nil_iff.1 hv.symm).1 hne⟩
    · rintro ⟨u, hu, ha, -⟩
      obtain ⟨rfl, rfl⟩ := List.append_eq_nil_iff.1 hu.symm
      rw [ha]
      rfl
  | cons c t ih =>
    rw [lastCut?]
    cases hcut : lastCut? close t with
    | some cut =>
      obtain ⟨b, a⟩ := cut
      obtain ⟨u, rfl, ha, hlast⟩ := ih.1 hcut
      constructor
      · intro h
        obtain ⟨rfl, rfl⟩ := Prod.mk.inj (Option.some.inj h)
        exact ⟨u, rfl, ha, hlast⟩
      · rintro ⟨v, hv, hclose, hv'⟩
        cases before with
        | nil =>
          -- the cut behind would stand behind this one
          rw [hv' (c :: b) u hv.symm (List.cons_ne_nil c b)] at ha
          exact absurd ha.symm (Option.some_ne_none a)
        | cons d before =>
          obtain ⟨rfl, hrest⟩ := List.cons.inj hv
          have hsome := ih.2 ⟨v, hrest, hclose, hv'⟩
          rw [hcut] at hsome
          obtain ⟨rfl, rfl⟩ := Prod.mk.inj (Option.some.inj hsome)
          rfl
    | none =>
      have hnone := lastCut?_eq_none_iff.1 hcut
      constructor
      · intro h
        obtain ⟨a, ha, he⟩ := Option.map_eq_some_iff.1 h
        obtain ⟨rfl, rfl⟩ := Prod.mk.inj he
        refine ⟨c :: t, rfl, ha, fun front v hv hne => ?_⟩
        cases front with
        | nil => exact absurd rfl hne
        | cons d front => exact hnone front v (List.cons.inj hv).2
      · rintro ⟨u, hu, hclose, -⟩
        cases before with
        | nil => rw [hu, List.nil_append, hclose]; rfl
        | cons d before =>
          rw [hnone before u (List.cons.inj hu).2] at hclose
          exact absurd hclose.symm (Option.some_ne_none after)

/-- The last cut is a cut. -/
theorem lastCut?_eq_some {close : Text → Option Text} {t before after : Text}
    (h : lastCut? close t = some (before, after)) : ∃ u, t = before ++ u ∧ close u = some after := by
  obtain ⟨u, ht, hu, -⟩ := lastCut?_eq_some_iff.1 h
  exact ⟨u, ht, hu⟩

/-- **A line is cut at one of its marks,** so what stands before it is on the line. -/
theorem lastInLine?_eq_some {c : Char} {t before after : Text}
    (h : lastInLine? c t = some (before, after)) : t = before ++ c :: after ∧ '\n' ∉ before := by
  obtain ⟨⟨b, a⟩, hb, he⟩ := Option.map_eq_some_iff.1 h
  obtain ⟨rfl, rfl⟩ := Prod.mk.inj he
  obtain ⟨u, hu, hc⟩ := lastCut?_eq_some hb
  rw [dropPrefix?_eq_some.1 hc] at hu
  constructor
  · calc t
      _ = t.takeWhile (· != '\n') ++ t.dropWhile (· != '\n') := (List.takeWhile_append_dropWhile).symm
      _ = _ := by rw [hu]; simp
  · intro hm
    have := List.mem_takeWhile_imp (l := t) (p := (· != '\n')) (x := '\n') (by rw [hu]; simp [hm])
    simp at this

/-- A mark that stands nowhere cuts nothing. -/
theorem lastCut?_mark_eq_none_iff {c : Char} {t : Text} : lastCut? (dropPrefix? [c]) t = none ↔ c ∉ t := by
  rw [lastCut?_eq_none_iff]
  constructor
  · intro h hc
    obtain ⟨front, rest, rfl⟩ := List.append_of_mem hc
    have hsome : dropPrefix? [c] (c :: rest) = some rest := dropPrefix?_eq_some.2 rfl
    rw [h front _ rfl] at hsome
    exact absurd hsome.symm (Option.some_ne_none rest)
  · rintro h front u rfl
    refine Option.eq_none_iff_forall_ne_some.2 fun rest hu => h ?_
    rw [dropPrefix?_eq_some.1 hu]
    simp

/-- **The last mark is the one behind which it does not stand.** -/
theorem lastCut?_mark_eq_some_iff {c : Char} {t before after : Text} :
    lastCut? (dropPrefix? [c]) t = some (before, after) ↔ t = before ++ c :: after ∧ c ∉ after := by
  rw [lastCut?_eq_some_iff]
  constructor
  · rintro ⟨u, rfl, hu, hlast⟩
    rw [dropPrefix?_eq_some.1 hu, List.singleton_append] at hlast ⊢
    exact ⟨rfl, lastCut?_mark_eq_none_iff.1 (lastCut?_eq_none_iff.2 fun front v hv =>
      hlast (c :: front) v (by rw [hv]; rfl) (List.cons_ne_nil c front))⟩
  · rintro ⟨rfl, hc⟩
    refine ⟨c :: after, rfl, dropPrefix?_eq_some.2 rfl, fun front v hv hne => ?_⟩
    cases front with
    | nil => exact absurd rfl hne
    | cons d front => exact lastCut?_eq_none_iff.1 (lastCut?_mark_eq_none_iff.2 hc) front v (List.cons.inj hv).2

/-- A character at the end of a text is the last one. -/
theorem lastCut?_last (c : Char) (t : Text) : lastCut? (dropPrefix? [c]) (t ++ [c]) = some (t, []) :=
  lastCut?_mark_eq_some_iff.2 ⟨rfl, List.not_mem_nil⟩

/-- A word without line feeds is looked for on the line alone. -/
theorem dropPrefix?_feed {w : Text} (hw : '\n' ∉ w) (l rest : Text) :
    dropPrefix? w (l ++ '\n' :: rest) = (dropPrefix? w l).map (· ++ '\n' :: rest) := by
  induction w generalizing l with
  | nil => rfl
  | cons c w ih =>
    rw [List.mem_cons, not_or] at hw
    cases l with
    | nil => simp [dropPrefix?, Ne.symm hw.1]
    | cons d l =>
      rw [List.cons_append, dropPrefix?, dropPrefix?]
      split
      · exact ih hw.2 l
      · rfl

/-- No character of a line is a line feed. -/
theorem ne_feed {l : Text} (hl : '\n' ∉ l) : ∀ c ∈ l, (c != '\n') = true := by
  intro c hc
  rw [bne_iff_ne]
  rintro rfl
  exact hl hc

/-- On a single line the last mark of the line is the last one. -/
theorem lastInLine?_line {c : Char} {l : Text} (hl : '\n' ∉ l) :
    lastInLine? c l = lastCut? (dropPrefix? [c]) l := by
  rw [lastInLine?, List.takeWhile_eq_self_iff.2 (ne_feed hl), List.dropWhile_eq_nil_iff.2 (ne_feed hl)]
  cases lastCut? (dropPrefix? [c]) l <;> simp

/-- **The line is cut as it is by itself,** whatever lines follow. -/
theorem lastInLine?_feed {c : Char} {l : Text} (hl : '\n' ∉ l) (rest : Text) :
    lastInLine? c (l ++ '\n' :: rest) =
      (lastInLine? c l).map fun (before, after) => (before, after ++ '\n' :: rest) := by
  rw [lastInLine?_line hl, lastInLine?, takeWhile_run (ne_feed hl) (by simp), dropWhile_run (ne_feed hl) (by simp)]

/-- **A line that ends with the mark is cut at its end.** -/
theorem lastInLine?_last {c : Char} (hc : c ≠ '\n') {t : Text} (ht : '\n' ∉ t) (rest : Text) :
    lastInLine? c (t ++ c :: '\n' :: rest) = some (t, '\n' :: rest) := by
  have hline : '\n' ∉ t ++ [c] := by
    rw [List.mem_append, List.mem_singleton, not_or]
    exact ⟨ht, hc.symm⟩
  rw [show t ++ c :: '\n' :: rest = (t ++ [c]) ++ '\n' :: rest by simp, lastInLine?_feed hline,
    lastInLine?_line hline, lastCut?_last]
  rfl

end Text
end ThemeSheet
