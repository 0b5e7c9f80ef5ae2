/-
# Ranges of code points as they are written

A range is written by its first and its last code point, a single one only once.  Six
digits are enough for what can be read, and what is written is read back as long as
nothing behind it could carry it on.
-/

import ThemeSheet.Css.Printer
import ThemeSheet.Proofs.Text.Numeral

namespace ThemeSheet
namespace Css

/-! ### Hexadecimal numerals -/

/-- A capital digit has the value it is written for. -/
theorem hexValue?_digitChar : ∀ n < 16, hexValue? (n.digitChar.toUpper) = some n := by
  decide +kernel

/-- A capital digit is one. -/
theorem isHexDigit_digitChar {n : Nat} (h : n < 16) : isHexDigit n.digitChar.toUpper = true := by
  rw [isHexDigit, hexValue?_digitChar n h]
  rfl

/-- A code below sixteen is written as one digit. -/
theorem writtenCode_of_lt {n : Nat} (h : n < 16) : writtenCode n = [n.digitChar.toUpper] := by
  rw [writtenCode, Nat.toDigits_of_lt_base h]
  rfl

/-- A code from sixteen on is written as its quotient by sixteen and one digit more. -/
theorem writtenCode_of_le {n : Nat} (h : 16 ≤ n) :
    writtenCode n = writtenCode (n / 16) ++ [(n % 16).digitChar.toUpper] := by
  rw [writtenCode, Nat.toDigits_of_base_le (by decide) h, List.map_append]
  rfl

/-- **A written code point is a run of digits that denotes it.** -/
theorem writtenCode_spec (n : Nat) :
    hexNumber (writtenCode n) = n ∧ writtenCode n ≠ [] ∧ ∀ c ∈ writtenCode n, isHexDigit c = true := by
  induction n using Nat.strongRecOn with
  | _ n ih =>
    rcases Nat.lt_or_ge n 16 with hn | hn
    · rw [writtenCode_of_lt hn]
      refine ⟨?_, by simp, by simp [isHexDigit_digitChar hn]⟩
      rw [← List.nil_append [_], hexNumber_concat, hexValue?_digitChar n hn]
      simp [hexNumber]
    · have hmod : n % 16 < 16 := Nat.mod_lt _ (by decide)
      obtain ⟨hnum, -, hall⟩ := ih (n / 16) (by omega)
      rw [writtenCode_of_le hn]
      refine ⟨?_, by simp, ?_⟩
      · rw [hexNumber_concat, hnum, hexValue?_digitChar _ hmod, Option.getD_some]
        omega
      · intro c hc
        rcases List.mem_append.1 hc with hc | hc
        · exact hall c hc
        · rw [List.mem_singleton.1 hc]
          exact isHexDigit_digitChar hmod

/-- A code below 16⁶ is written in at most six digits. -/
theorem writtenCode_length {n : Nat} (h : n < 16 ^ 6) : (writtenCode n).length ≤ 6 := by
  rw [writtenCode, List.length_map]
  exact (Nat.length_toDigits_le_iff (by decide) (by decide)).2 h

/-! ### Ranges -/

/-- **What is read as a range** lies between code points of six digits. -/
theorem unicodeRange_spec (t : Text) :
    ∃ first last, (unicodeRange t).1 = .unicodeRange first last ∧ first < 16 ^ 6 ∧ last < 16 ^ 6 := by
  have htake : ∀ u : Text, (u.take 6).length ≤ 6 := fun u => List.length_take_le ..
  rw [unicodeRange]
  dsimp only
  have hlow := htake (t.takeWhile isHexDigit)
  generalize (t.takeWhile isHexDigit).take 6 = low at hlow
  split
  · refine ⟨_, _, rfl, hexNumber_lt_of_length ?_, hexNumber_lt_of_length ?_⟩ <;> simp <;> omega
  · split
    · split
      · exact ⟨_, _, rfl, hexNumber_lt_of_length hlow, hexNumber_lt_of_length (htake _)⟩
      · exact ⟨_, _, rfl, hexNumber_lt_of_length hlow, hexNumber_lt_of_length hlow⟩
    · exact ⟨_, _, rfl, hexNumber_lt_of_length hlow, hexNumber_lt_of_length hlow⟩

/-- Nothing behind the range could carry it on: no digit, none behind a hyphen, no question mark. -/
structure RangeEnds (r : Text) : Prop where
  digit : r.head?.any isHexDigit = false
  mark : r.head? ≠ some '?'
  hyphen : ∀ c u, r = '-' :: c :: u → isHexDigit c = false

/-- At most six digits are read whole if none follows them. -/
theorem hexDigits_append {ds r : Text} (hds : ∀ c ∈ ds, isHexDigit c = true)
    (hr : r.head?.any isHexDigit = false) (hlen : ds.length ≤ 6) :
    ((ds ++ r).takeWhile isHexDigit).take 6 = ds := by
  have hstop : r.takeWhile isHexDigit = [] := by
    cases r with
    | nil => rfl
    | cons c r => exact List.takeWhile_cons_of_neg (by simpa using hr)
  rw [List.takeWhile_append_of_pos hds, hstop, List.append_nil, List.take_of_length_le hlen]

/-- **A written range is read as that range.** -/
theorem unicodeRange_written {first last : Nat} {r : Text} (hf : first < 16 ^ 6) (hl : last < 16 ^ 6)
    (hr : RangeEnds r) :
    unicodeRange (writtenCode first ++ (if first = last then [] else '-' :: writtenCode last) ++ r) =
      (.unicodeRange first last, r) := by
  obtain ⟨hfn, -, hfd⟩ := writtenCode_spec first
  obtain ⟨hln, hlne, hld⟩ := writtenCode_spec last
  have hmarks : ∀ {u : Text} {k : Nat}, u.head? ≠ some '?' → (u.takeWhile (· == '?')).take k = [] := by
    intro u k hu
    cases u with
    | nil => simp
    | cons c u => rw [List.takeWhile_cons_of_neg (by simpa using hu), List.take_nil]
  by_cases h : first = last
  · subst h
    rw [if_pos rfl, List.append_nil, unicodeRange]
    simp only [hexDigits_append hfd hr.digit (writtenCode_length hf), List.drop_left, hmarks hr.mark, hfn]
    rw [if_neg (by simp)]
    split
    · next c u =>
      rw [if_neg (by simp [hr.hyphen c u rfl])]
    · rfl
  · obtain ⟨c, u, hc⟩ := List.exists_cons_of_ne_nil hlne
    rw [if_neg h, List.append_assoc, unicodeRange]
    simp only [hexDigits_append (r := '-' :: writtenCode last ++ r) hfd (by rfl) (writtenCode_length hf),
      List.drop_left, hmarks (show ('-' :: writtenCode last ++ r).head? ≠ some '?' by simp), hfn]
    rw [if_neg (by simp)]
    have hread := hexDigits_append hld hr.digit (writtenCode_length hl)
    rw [List.cons_append, hc, List.cons_append]
    rw [hc, List.cons_append] at hread
    simp only [hread, hld c (by simp [hc]), if_true]
    rw [← List.cons_append, List.drop_left, ← hc, hln]

end Css
end ThemeSheet
