/-
# The colors that a draw skips

Where a color is drawn until one is free, the taken ones before it are skipped.  The
skipped colors and the free one are the first that are drawn, one after another.  A
script may come to taken colors as often as it likes, but the counter behind it comes
to no color twice in a round; so of one color more than are taken it comes to a free
one, and no more than this is drawn behind the script.
-/

import ThemeSheet.Proofs.Color.Hex
import ThemeSheet.Proofs.Color.Supply

namespace ThemeSheet
namespace Color

variable {free : Text → Bool} {tries more : Nat} {d rest : Draws} {color : Text} {taken : List Text}

/-! ### What is skipped -/

/-- The next draw is counted as one more. -/
theorem count_tail (d : Draws) : d.tail.count = d.count + 1 := by
  rw [Draws.tail]
  split <;> rfl

/-- Every color that is drawn is counted. -/
theorem count_drawMany (n : Nat) (d : Draws) : (drawMany n d).2.count = d.count + n := by
  induction n generalizing d with
  | zero => rfl
  | succ n ih =>
    show (drawMany n d.tail).2.count = d.count + (n + 1)
    rw [ih, count_tail]
    omega

/-- **A draw skips taken colors and gives the first free one:** they are the first colors that are drawn. -/
theorem exists_skipped (h : drawWithin free tries d = some (color, rest)) : ∃ skipped,
    skipped.length < tries ∧ drawMany (skipped.length + 1) d = (skipped ++ [color], rest) ∧
      free color = true ∧ ∀ c ∈ skipped, free c = false := by
  induction tries generalizing d with
  | zero => simp [drawWithin] at h
  | succ tries ih =>
    rw [drawWithin] at h
    split at h
    next first after hdraw =>
    split at h
    · next hfree =>
      obtain ⟨rfl, rfl⟩ := Prod.mk.inj (Option.some.inj h)
      exact ⟨[], Nat.succ_pos _, by simp [drawMany, hdraw], hfree, by simp⟩
    · next htaken =>
      obtain ⟨skipped, hlen, hmany, hfree, hskipped⟩ := ih h
      refine ⟨first :: skipped, Nat.succ_lt_succ hlen, ?_, hfree,
        List.forall_mem_cons.2 ⟨by simpa using htaken, hskipped⟩⟩
      rw [List.length_cons, drawMany, hdraw]
      simp only [hmany, List.cons_append]

/-- **More tries find the same color.** -/
theorem drawWithin_mono (h : drawWithin free tries d = some (color, rest)) (hle : tries ≤ more) :
    drawWithin free more d = some (color, rest) := by
  obtain ⟨k, hk, hfound⟩ := drawWithin_eq_some_iff.1 h
  exact drawWithin_eq_some_iff.2 ⟨k, Nat.lt_of_lt_of_le hk hle, hfound⟩

/-! ### How many are skipped -/

/-- **The counter comes to no color twice in a round.** -/
theorem draw_counter_inj {i j : Nat} (hi : i < total) (hj : j < total)
    (h : (draw (d.drop (d.script.length + i))).1 = (draw (d.drop (d.script.length + j))).1) : i = j := by
  have hnumber := ofNumber_injective h
  rw [Draws.head_drop_script, Draws.head_drop_script] at hnumber
  simp only [total] at hi hj hnumber
  omega

/-- **Of one color more than are taken the counter comes to a free one.** -/
theorem exists_free (hfree : ∀ c, c ∉ taken → free c = true) (h : taken.eraseDups.length < total) (d : Draws) :
    ∃ i ≤ d.script.length + taken.eraseDups.length, free (draw (d.drop i)).1 = true := by
  obtain ⟨i, hi, hnot⟩ := exists_notMem (f := fun i => (draw (d.drop (d.script.length + i))).1)
    (fun i hi j hj => draw_counter_inj (Nat.lt_of_lt_of_le hi h) (Nat.lt_of_lt_of_le hj h))
    (Nat.lt_succ_self taken.eraseDups.length)
  rw [List.mem_eraseDups] at hnot
  exact ⟨d.script.length + i, by omega, hfree _ hnot⟩

/-- **As many draws and one are enough** behind the script. -/
theorem exists_drawWithin (hfree : ∀ c, c ∉ taken → free c = true) (h : taken.eraseDups.length < total) (d : Draws) :
    ∃ color rest, drawWithin free (d.script.length + taken.eraseDups.length + 1) d = some (color, rest) := by
  obtain ⟨i, hi, hfound⟩ := exists_free hfree h d
  cases hdraw : drawWithin free (d.script.length + taken.eraseDups.length + 1) d with
  | some found => exact ⟨found.1, found.2, rfl⟩
  | none =>
    have hnot := drawWithin_eq_none_iff.1 hdraw i (Nat.lt_succ_of_le hi)
    rw [hfound] at hnot
    exact Bool.noConfusion hnot

/-- **A draw ends, and early.**  If fewer texts than there are colors are black, white or reserved, a color is drawn,
after no more draws than the numbers left in the script, those texts and one.  It is the first color drawn that is
none of these texts, in its usual form. -/
theorem drawUnique_spec {reserved : List Text} (h : (black :: white :: reserved).eraseDups.length < total) (d : Draws) :
    ∃ skipped color rest, drawUnique reserved d = some (color, rest) ∧
      drawMany (skipped.length + 1) d = (skipped ++ [color], rest) ∧
      rest.count = d.count + (skipped.length + 1) ∧
      skipped.length + 1 ≤ d.script.length + (black :: white :: reserved).eraseDups.length + 1 ∧
      IsUsualForm color ∧ color ∉ black :: white :: reserved ∧ ∀ c ∈ skipped, c ∈ black :: white :: reserved := by
  let free : Text → Bool := fun color => color ≠ black ∧ color ≠ white ∧ ¬ reserved.contains color
  have hfree (c : Text) : free c = true ↔ c ∉ black :: white :: reserved := by simp [free]
  obtain ⟨color, rest, hdraw⟩ := exists_drawWithin (fun c hc => (hfree c).2 hc) h d
  obtain ⟨skipped, hlen, hmany, hcolor, hskipped⟩ := exists_skipped hdraw
  -- these are no more draws than `drawUnique` makes
  have hunique : drawUnique reserved d = some (color, rest) := drawWithin_mono hdraw (by omega)
  have hcount := count_drawMany (skipped.length + 1) d
  rw [hmany] at hcount
  refine ⟨skipped, color, rest, hunique, hmany, hcount, hlen, (of_drawUnique hunique).1.isUsualForm,
    (hfree color).1 hcolor, fun c hc => ?_⟩
  by_contra hnot
  have htaken := hskipped c hc
  rw [(hfree c).2 hnot] at htaken
  exact Bool.noConfusion htaken

/-- A script of nothing but taken colors, a counter that begins with one, and a reserved text that no color equals. -/
theorem drawUnique_spec_taken :
    let reserved := ["#000001".toList, "#00000A".toList, "#000001".toList]
    let d : Draws := .ofScript [0, 0xffffff, 1, -0xffffff]
    (black :: white :: reserved).eraseDups.length < total ∧
      ∃ skipped rest, drawUnique reserved d = some ("#000002".toList, rest) ∧ rest.count = 6 ∧
        drawMany 6 d = (skipped ++ ["#000002".toList], rest) ∧ ∀ c ∈ skipped, c ∈ black :: white :: reserved := by
  intro reserved d
  have hfew : (black :: white :: reserved).eraseDups.length < total := by decide +kernel
  obtain ⟨skipped, color, rest, hdraw, hmany, hcount, -, -, -, hskipped⟩ := drawUnique_spec hfew d
  have hfound : (drawUnique reserved d).map (fun p => (p.1, p.2.count)) = some ("#000002".toList, 6) := by
    decide +kernel
  rw [hdraw] at hfound
  obtain ⟨rfl, hsix⟩ : color = "#000002".toList ∧ rest.count = 6 := Prod.mk.inj (Option.some.inj hfound)
  rw [hsix, show d.count = 0 from rfl, Nat.zero_add] at hcount
  rw [← hcount] at hmany
  exact ⟨hfew, skipped, rest, hdraw, hsix, hmany, hskipped⟩

end Color
end ThemeSheet
