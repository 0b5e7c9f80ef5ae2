/-
# Aliases

The value of a variable may be the name of another one.  `resolve` follows such
names to a value that is no name; a chain that comes back to a name on it is a
fault.
-/

import ThemeSheet.Fault
import ThemeSheet.Table

namespace ThemeSheet
namespace Variable

/-- Follows `value`; `seen` holds the names on the chain so far, in order. -/
def follow (table : Table Text) (seen : List Text) (value : Text) : Except Fault Text :=
  match _h : table.get? value with
  | none => .ok value
  | some next =>
    if value ∈ seen then .error (.cyclicVariable (seen ++ [value]))
    else follow table (seen ++ [value]) next
termination_by (table.keys.filter fun k => k ∉ seen).length
decreasing_by
  have hk : value ∈ table.keys := by
    simp only [Table.get?, List.lookup_eq_some_iff] at _h
    obtain ⟨l, r, he, _⟩ := _h
    simp [Table.keys, he]
  rename_i hs
  have hsub : (table.keys.filter fun k => k ∉ seen ++ [value]) =
      (table.keys.filter fun k => k ∉ seen).filter fun k => k ≠ value := by
    rw [List.filter_filter]; congr 1; funext k; simp [not_or, and_comm]
  rw [hsub]
  refine Nat.lt_of_le_of_ne (List.length_filter_le _ _) fun he => ?_
  have hall := List.length_filter_eq_length_iff.1 he value (by simp [hk, hs])
  simp at hall

/-- The value at the end of the chain that begins with a name; none for a name without value. -/
def resolve (table : Table Text) (name : Text) : Except Fault (Option Text) :=
  match table.get? name with
  | none => .ok none
  | some value => (follow table [name] value).map some

end Variable
end ThemeSheet
