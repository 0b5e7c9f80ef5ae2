/-
# Whether a color is left

The colors that are drawn one after another, and the first free one among them.
Behind the script the counter comes to every color, so a draw finds a free color
exactly when there is one; and there is one as long as fewer colors are taken than
there are.
-/

import Mathlib.Data.List.Nodup
import Mathlib.Data.List.Perm.Subperm
import Mathlib.Data.Nat.Find
import Mathlib.Logic.Function.Iterate
import ThemeSheet.Proofs.Color.Drawing
import ThemeSheet.Proofs.Text.Numeral

namespace ThemeSheet
namespace Color

variable {free : Text → Bool} {tries : Nat} {d rest : Draws} {color : Text}

/-! ### One number after another -/

namespace Draws

/-- What remains behind the first `k` numbers. -/
def drop (k : Nat) (d : Draws) : Draws := tail^[k] d

/-- Leaving out one draw more is leaving out the first, and then the others. -/
theorem drop_succ (k : Nat) (d : Draws) : drop (k + 1) d = drop k d.tail := rfl

/-- Behind the script stand the numbers of the counter. -/
theorem head_drop_script (d : Draws) (j : Nat) : (drop (d.script.length + j) d).head = d.next + j := by
  obtain ⟨script, next, count⟩ := d
  induction script generalizing count with
  | cons _ script ih =>
    rw [List.length_cons, Nat.add_right_comm, drop_succ]
    exact ih (count + 1)
  | nil =>
    rw [List.length_nil, Nat.zero_add]
    induction j generalizing next count with
    | zero => simp [drop, head]
    | succ j ih =>
      rw [drop_succ, tail, ih]
      simp only
      omega

end Draws

/-! ### The first free color -/

/-- **A draw gives the first of the drawn colors that is free,** and what remains behind it. -/
theorem drawWithin_eq_some_iff : drawWithin free tries d = some (color, rest) ↔
    ∃ k < tries, free color = true ∧ draw (d.drop k) = (color, rest) ∧
      ∀ i < k, free (draw (d.drop i)).1 = false := by
  induction tries generalizing d with
  | zero => simp [drawWithin]
  | succ tries ih =>
    rw [drawWithin]
    split
    next first after hdraw =>
    have htail : after = d.tail := (Prod.mk.inj hdraw).2.symm
    split
    · next hfree =>
      rw [Option.some.injEq]
      constructor
      · intro h
        exact ⟨0, Nat.succ_pos _, (Prod.mk.inj h).1 ▸ hfree, hdraw.trans h, by simp⟩
      · rintro ⟨k, -, -, hk, hall⟩
        cases k with
        | zero => exact hdraw.symm.trans hk
        | succ k =>
          have := hall 0 (Nat.succ_pos _)
          rw [show d.drop 0 = d from rfl, hdraw, hfree] at this
          exact Bool.noConfusion this
    · next hfree =>
      rw [ih, htail]
      constructor
      · rintro ⟨k, hk, hc, hd, hall⟩
        refine ⟨k + 1, Nat.succ_lt_succ hk, hc, hd, fun i hi => ?_⟩
        cases i with
        | zero => rw [show d.drop 0 = d from rfl, hdraw]; simpa using hfree
        | succ i => exact hall i (Nat.lt_of_succ_lt_succ hi)
      · rintro ⟨k, hk, hc, hd, hall⟩
        cases k with
        | zero =>
          obtain ⟨rfl, -⟩ := Prod.mk.inj (hdraw.symm.trans hd)
          exact absurd hc hfree
        | succ k =>
          exact ⟨k, Nat.lt_of_succ_lt_succ hk, hc, hd, fun i hi => hall (i + 1) (Nat.succ_lt_succ hi)⟩

/-- Tries end without a color exactly if none of the colors they draw is free. -/
theorem drawWithin_eq_none_iff : drawWithin free tries d = none ↔
    ∀ k < tries, free (draw (d.drop k)).1 = false := by
  constructor
  · intro hnone k hk
    by_contra hfree
    have hex : ∃ k, free (draw (d.drop k)).1 = true := ⟨k, by simpa using hfree⟩
    have hsome : drawWithin free tries d = some (draw (d.drop (Nat.find hex))) :=
      drawWithin_eq_some_iff.2 ⟨Nat.find hex, Nat.lt_of_le_of_lt (Nat.find_min' hex (by simpa using hfree)) hk,
        Nat.find_spec hex, rfl, fun i hi => by simpa using Nat.find_min hex hi⟩
    rw [hnone] at hsome
    simp at hsome
  · intro hall
    cases hdraw : drawWithin free tries d with
    | none => rfl
    | some found =>
      obtain ⟨k, hk, hfree, hd, -⟩ := drawWithin_eq_some_iff.1 hdraw
      have hnot := hall k hk
      rw [hd, hfree] at hnot
      exact Bool.noConfusion hnot

/-- **Every color is drawn:** at the latest when the counter has come to it. -/
theorem exists_draw_eq (d : Draws) {n : Nat} (hn : n < total) :
    ∃ k < d.script.length + total, (draw (d.drop k)).1 = ofNumber n := by
  have hpos : (0 : Int) < total := by decide
  have hlow := Int.emod_nonneg (n - d.next) (Int.ne_of_gt hpos)
  have hhigh := Int.emod_lt_of_pos (n - d.next) hpos
  refine ⟨d.script.length + ((n - d.next) % (total : Int)).toNat, by omega, ?_⟩
  have hnumber : (d.next + (((n - d.next) % (total : Int)).toNat : Int)) % (total : Int) = n := by
    rw [Int.toNat_of_nonneg hlow, Int.add_emod_emod, show d.next + (n - d.next) = (n : Int) by omega]
    exact Int.emod_eq_of_lt (Int.natCast_nonneg n) (Int.ofNat_lt.2 hn)
  rw [draw, Draws.below, Draws.head_drop_script, hnumber]
  rfl

/-- **No color is drawn exactly when none is free.** -/
theorem drawFree_eq_none_iff : drawFree free d = none ↔ ∀ n < total, free (ofNumber n) = false := by
  rw [drawFree, drawWithin_eq_none_iff]
  constructor
  · intro hall n hn
    obtain ⟨k, hk, hdraw⟩ := exists_draw_eq d hn
    exact hdraw ▸ hall k hk
  · intro hall k _
    have hlow := Int.emod_nonneg (d.drop k).head (b := (total : Int)) (by decide)
    have hhigh := Int.emod_lt_of_pos (d.drop k).head (b := (total : Int)) (by decide)
    exact hall ((d.drop k).head % total).toNat (by omega)

/-! ### Colors that are taken -/

/-- Different numbers have different colors. -/
theorem ofNumber_injective {m n : Nat} (h : ofNumber m = ofNumber n) : m = n := by
  have hdigits := congrArg hexNumber (List.cons.inj h).2
  rwa [hexNumber_hexDigits, hexNumber_hexDigits] at hdigits

/-- **Of different texts, one more than are taken,** one is not taken. -/
theorem exists_notMem {taken : List Text} {f : Nat → Text} {n : Nat} (hf : ∀ i < n, ∀ j < n, f i = f j → i = j)
    (h : taken.length < n) : ∃ i < n, f i ∉ taken := by
  by_contra hall
  have hmem : (List.range n).map f ⊆ taken := by
    intro color hcolor
    obtain ⟨i, hi, rfl⟩ := List.mem_map.1 hcolor
    by_contra hnot
    exact hall ⟨i, List.mem_range.1 hi, hnot⟩
  have hnodup : ((List.range n).map f).Nodup :=
    List.nodup_range.map_on fun i hi j hj => hf i (List.mem_range.1 hi) j (List.mem_range.1 hj)
  have hle := (List.subperm_of_subset hnodup hmem).length_le
  rw [List.length_map, List.length_range] at hle
  omega

/-- Fewer texts than there are colors leave a color out. -/
theorem exists_ofNumber_notMem {taken : List Text} (h : taken.length < total) : ∃ n < total, ofNumber n ∉ taken :=
  exists_notMem (fun _ _ _ _ => ofNumber_injective) h

/-- **A color is drawn as long as fewer are taken than there are.** -/
theorem exists_drawFree {taken : List Text} (hfree : ∀ color, color ∉ taken → free color = true)
    (h : taken.length < total) (d : Draws) : ∃ color rest, drawFree free d = some (color, rest) := by
  cases hdraw : drawFree free d with
  | some found => exact ⟨found.1, found.2, rfl⟩
  | none =>
    obtain ⟨n, hn, hnot⟩ := exists_ofNumber_notMem h
    have := drawFree_eq_none_iff.1 hdraw n hn
    rw [hfree _ hnot] at this
    exact Bool.noConfusion this

/-- The first color that is drawn is given if it is free. -/
theorem drawFree_of_free (h : free (draw d).1 = true) : drawFree free d = some (draw d) :=
  drawWithin_eq_some_iff.2 ⟨0, Nat.lt_of_lt_of_le (by decide) (Nat.le_add_left _ _), h, rfl, by simp⟩

end Color
end ThemeSheet
