/-
# The package directory around a path

A path is resolved name by name, two dots going one name back.  The package directory
around it is the longest beginning of the resolved path that ends with the name of
such a directory; where there is none, it is taken to stand beside the path.  Either
way it is its own package directory, and it is that of every path below it that
neither goes back nor enters another one.
-/

import Mathlib.Data.List.Infix
import Mathlib.Data.List.TakeWhile
import ThemeSheet.Proofs.File.Place

namespace ThemeSheet
namespace Path

variable {names front back dir workingDir : List Text} {p s : Path}

/-! ### Paths that lead somewhere -/

/-- A path has no null character exactly if none of its names has one. -/
theorem hasNull_eq_false_iff : p.hasNull = false ↔ ∀ part ∈ p.parts, part.contains '\x00' = false := by
  rw [hasNull, List.any_eq_false]
  simp

/-- **A path without the null character** is resolved. -/
theorem resolve_of_hasNull_eq_false (hp : p.hasNull = false) : p.resolve workingDir = .ok (p.fromRoot workingDir) := by
  rw [resolve, checked, hp]
  rfl

/-- Without a null character the package directory is found from the resolved names. -/
theorem packages_of_hasNull_eq_false (hp : p.hasNull = false) :
    p.packages workingDir = .ok ⟨.root, packageDirOf (p.resolvedParts workingDir)⟩ := by
  rw [packages, resolve_of_hasNull_eq_false hp]
  rfl

/-! ### Following two dots -/

/-- Names that are not two dots are gone one after another. -/
theorem foldl_step_of_notMem (h : up ∉ back) : back.foldl step names = names ++ back := by
  induction back generalizing names with
  | nil => simp
  | cons part back ih =>
    obtain ⟨hpart, hback⟩ := not_or.1 (mt List.mem_cons.2 h)
    rw [List.foldl_cons, ih hback, step, if_neg (Ne.symm hpart), List.append_assoc]
    rfl

/-- What two dots leave was there before, and they are not among it. -/
theorem mem_foldl_step {part : Text} (h : part ∈ back.foldl step names) : part ∈ names ∨ part ∈ back ∧ part ≠ up := by
  induction back generalizing names with
  | nil => exact .inl h
  | cons next back ih =>
    rcases ih h with hnames | ⟨hback, hup⟩
    · rw [step] at hnames
      split at hnames
      · exact .inl (List.dropLast_subset names hnames)
      · next hnext =>
        rcases List.mem_append.1 hnames with hnames | hnames
        · exact .inl hnames
        · obtain rfl := List.mem_singleton.1 hnames
          exact .inr ⟨List.mem_cons_self .., hnext⟩
    · exact .inr ⟨List.mem_cons_of_mem _ hback, hup⟩

/-- **A path from the root, resolved,** holds names of the path and no two dots. -/
theorem mem_resolvedParts (hp : p.isAbsolute = true) {part : Text} (h : part ∈ p.resolvedParts workingDir) :
    part ∈ p.parts ∧ part ≠ up := by
  rw [resolvedParts, if_pos hp] at h
  exact (mem_foldl_step h).resolve_left List.not_mem_nil

/-- Names that do not go back are added to the place. -/
theorem resolvedParts_append (anchor : Anchor) (h : up ∉ back) :
    resolvedParts workingDir ⟨anchor, names ++ back⟩ = resolvedParts workingDir ⟨anchor, names⟩ ++ back := by
  rw [resolvedParts, resolvedParts, List.foldl_append, foldl_step_of_notMem h]
  rfl

/-! ### The innermost package directory -/

/-- **The longest beginning of the names that ends with a package directory.** -/
structure IsInnermost (names dir : List Text) : Prop where
  beginning : dir <+: names
  last : dir.getLast? = some packageDir
  longest : ∀ other, other <+: names → other.getLast? = some packageDir → other.length ≤ dir.length

/-- Names that hold a package directory hold a last one. -/
theorem exists_last_packageDir (h : packageDir ∈ names) :
    ∃ front back, names = front ++ packageDir :: back ∧ packageDir ∉ back := by
  obtain ⟨front, back, hnames, hfront⟩ := List.eq_append_cons_of_mem (List.mem_reverse.2 h)
  exact ⟨back.reverse, front.reverse, by rw [← List.reverse_reverse names, hnames]; simp, by simpa using hfront⟩

/-- Where no package directory is, the search from the end goes over every name. -/
theorem forall_ne_of_notMem (h : packageDir ∉ names) : ∀ part ∈ names.reverse, decide (part ≠ packageDir) = true := by
  intro part hpart
  rw [decide_eq_true_iff]
  rintro rfl
  exact h (List.mem_reverse.1 hpart)

/-- The last package directory of the path is the one. -/
theorem packageDirOf_append (hback : packageDir ∉ back) :
    packageDirOf (front ++ packageDir :: back) = front ++ [packageDir] := by
  have hdrop : (front ++ packageDir :: back).reverse.dropWhile (· ≠ packageDir) = packageDir :: front.reverse := by
    rw [List.reverse_append, List.reverse_cons, List.append_assoc,
      List.dropWhile_append_of_pos (forall_ne_of_notMem hback)]
    simp
  rw [packageDirOf, packageParts?, hdrop]
  simp

/-- Without a package directory in the path, it is the one beside its last name. -/
theorem packageDirOf_of_notMem (h : packageDir ∉ names) : packageDirOf names = names.dropLast ++ [packageDir] := by
  have hdrop : names.reverse.dropWhile (· ≠ packageDir) = [] := List.dropWhile_eq_nil_iff.2 (forall_ne_of_notMem h)
  rw [packageDirOf, packageParts?, hdrop]
  rfl

/-- **The beginning up to the last package directory** is the longest one that ends with such a directory. -/
theorem isInnermost_append (hback : packageDir ∉ back) :
    IsInnermost (front ++ packageDir :: back) (front ++ [packageDir]) where
  beginning := ⟨back, by simp⟩
  last := by simp
  longest other hother hlast := by
    by_contra hlong
    have hfront : front ++ [packageDir] <+: front ++ packageDir :: back := ⟨back, by simp⟩
    obtain ⟨rest, rfl⟩ := List.prefix_of_prefix_length_le hfront hother (Nat.le_of_not_le hlong)
    -- a longer beginning would end with one of the names behind
    have hrest : rest <+: back := by
      have h : front ++ [packageDir] ++ rest <+: front ++ [packageDir] ++ back := by simpa using hother
      exact (List.prefix_append_right_inj _).1 h
    have hne : rest ≠ [] := by
      rintro rfl
      simp at hlong
    rw [List.getLast?_append_of_ne_nil _ hne] at hlast
    exact hback (hrest.subset (List.mem_of_getLast? hlast))

/-- No beginning ends with a name that is not there. -/
theorem getLast?_ne_of_notMem (h : packageDir ∉ names) {other : List Text} (hother : other <+: names) :
    other.getLast? ≠ some packageDir := fun hlast => h (hother.subset (List.mem_of_getLast? hlast))

/-- A package directory ends with its own name. -/
theorem getLast?_packageDirOf (names : List Text) : (packageDirOf names).getLast? = some packageDir := by
  by_cases h : packageDir ∈ names
  · obtain ⟨front, back, rfl, hback⟩ := exists_last_packageDir h
    rw [packageDirOf_append hback, List.getLast?_concat]
  · rw [packageDirOf_of_notMem h, List.getLast?_concat]

/-- **What ends with a package directory is its own one.** -/
theorem packageDirOf_of_getLast? (h : names.getLast? = some packageDir) : packageDirOf names = names := by
  rw [← List.dropLast_append_getLast? packageDir h]
  exact packageDirOf_append List.not_mem_nil

/-- The names of a package directory are names of the path, and its own. -/
theorem mem_packageDirOf {part : Text} (h : part ∈ packageDirOf names) : part ∈ names ∨ part = packageDir := by
  by_cases hmem : packageDir ∈ names
  · obtain ⟨front, back, rfl, hback⟩ := exists_last_packageDir hmem
    rw [packageDirOf_append hback] at h
    exact .inl ((isInnermost_append hback).beginning.subset h)
  · rw [packageDirOf_of_notMem hmem, List.mem_append, List.mem_singleton] at h
    exact h.imp (List.dropLast_subset names ·) id

/-! ### The package directory of a path -/

/-- **The package directory around a path from the root is its own one,** from wherever it is looked for. -/
theorem packages_packageDirOf (hp : p.hasNull = false) (habsolute : p.isAbsolute = true) (elsewhere : List Text) :
    packages elsewhere ⟨.root, packageDirOf (p.resolvedParts workingDir)⟩ =
      .ok ⟨.root, packageDirOf (p.resolvedParts workingDir)⟩ := by
  have hparts {part : Text} (h : part ∈ packageDirOf (p.resolvedParts workingDir)) :
      part.contains '\x00' = false ∧ part ≠ up := by
    rcases mem_packageDirOf h with h | rfl
    · obtain ⟨hpart, hup⟩ := mem_resolvedParts habsolute h
      exact ⟨hasNull_eq_false_iff.1 hp part hpart, hup⟩
    · decide
  have hresolved : resolvedParts elsewhere ⟨.root, packageDirOf (p.resolvedParts workingDir)⟩ =
      packageDirOf (p.resolvedParts workingDir) :=
    foldl_step_of_notMem fun hup => (hparts hup).2 rfl
  rw [packages_of_hasNull_eq_false (hasNull_eq_false_iff.2 fun part h => (hparts h).1), hresolved,
    packageDirOf_of_getLast? (getLast?_packageDirOf _)]

/-- **Below a package directory** that directory is found, as long as the path neither goes back nor enters another
one. -/
theorem packages_join (hp : p.hasNull = false) (hs : s.isAbsolute = false) (hnull : s.hasNull = false)
    (hup : up ∉ s.parts) (hinner : packageDir ∉ s.parts) :
    packages workingDir ((p.child packageDir).join s) = .ok ((p.fromRoot workingDir).child packageDir) := by
  have hchild (q : Path) : q.child packageDir = ⟨q.anchor, q.parts ++ [packageDir]⟩ := rfl
  have hname : up ∉ packageDir :: s.parts := List.not_mem_cons_of_ne_of_not_mem (by decide) hup
  have hjoined : (p.child packageDir).join s = ⟨p.anchor, p.parts ++ packageDir :: s.parts⟩ := by
    rw [join_of_relative _ hs, hchild, List.append_assoc]
    rfl
  have hplain : ((p.child packageDir).join s).hasNull = false := by
    rw [hasNull_eq_false_iff] at hp hnull ⊢
    rw [hjoined]
    exact List.forall_mem_append.2 ⟨hp, List.forall_mem_cons.2 ⟨by decide, hnull⟩⟩
  rw [packages_of_hasNull_eq_false hplain, hjoined, resolvedParts_append _ hname, packageDirOf_append hinner]
  rfl

/-- **The package directory around a path without the null character.**  It is the longest beginning of the
resolved path that ends with a package directory, and where there is none, it stands beside the path.  So its last
name is that of a package directory, and looking for it again from a path from the root finds it again.  It is also
found from every path below a package directory that neither goes back nor enters another one. -/
theorem packages_spec (workingDir : List Text) {p : Path} (hp : p.hasNull = false) :
    (∃ place dir, p.resolve workingDir = .ok place ∧ p.packages workingDir = .ok ⟨.root, dir⟩ ∧
      (IsInnermost place.parts dir ∨
        (∀ other, other <+: place.parts → other.getLast? ≠ some packageDir) ∧
          (⟨.root, dir⟩ : Path) = place.parent.child packageDir) ∧
      dir.getLast? = some packageDir ∧
      (p.isAbsolute = true → ∀ elsewhere, packages elsewhere ⟨.root, dir⟩ = .ok ⟨.root, dir⟩)) ∧
    ∀ s : Path, s.isAbsolute = false → s.hasNull = false → up ∉ s.parts → packageDir ∉ s.parts →
      packages workingDir ((p.child packageDir).join s) = .ok ((p.fromRoot workingDir).child packageDir) := by
  refine ⟨⟨_, _, resolve_of_hasNull_eq_false hp, packages_of_hasNull_eq_false hp, ?_, getLast?_packageDirOf _,
    fun habsolute elsewhere => packages_packageDirOf hp habsolute elsewhere⟩,
    fun s hs hnull hup hinner => packages_join hp hs hnull hup hinner⟩
  show IsInnermost (p.resolvedParts workingDir) _ ∨ _
  by_cases h : packageDir ∈ p.resolvedParts workingDir
  · obtain ⟨front, back, hnames, hback⟩ := exists_last_packageDir h
    rw [hnames, packageDirOf_append hback]
    exact .inl (isInnermost_append hback)
  · refine .inr ⟨fun other hother => getLast?_ne_of_notMem h hother, ?_⟩
    rw [packageDirOf_of_notMem h]
    rfl

/-- A path that leaves the inner one of two package directories again, and one below that place. -/
theorem packages_spec_nested :
    let p : Path := .ofText "//a/./node_modules//b/node_modules/../c/".toList
    let s : Path := .ofText "./x//y/".toList
    (p.hasNull = false ∧ s.isAbsolute = false ∧ s.hasNull = false ∧ up ∉ s.parts ∧ packageDir ∉ s.parts) ∧
      (∃ dir, packages [] p = .ok ⟨.root, dir⟩ ∧ IsInnermost ["a".toList, packageDir, "b".toList, "c".toList] dir) ∧
      packages [] ((p.child packageDir).join s) = .ok (.ofText "/a/node_modules/b/c/node_modules".toList) := by
  intro p s
  have hp : p.hasNull = false := by decide
  have hs : s.isAbsolute = false ∧ s.hasNull = false ∧ up ∉ s.parts ∧ packageDir ∉ s.parts := by decide
  obtain ⟨⟨place, dir, hplace, hdir, hcases, -⟩, hbelow⟩ := packages_spec [] hp
  have hnames : place.parts = ["a".toList, packageDir, "b".toList, "c".toList] := by
    rw [← Except.ok.inj ((resolve_of_hasNull_eq_false hp).symm.trans hplace)]
    decide
  rw [hnames] at hcases
  refine ⟨⟨hp, hs⟩, ⟨dir, hdir, hcases.resolve_right fun h => ?_⟩, ?_⟩
  · exact h.1 ["a".toList, packageDir] ⟨_, rfl⟩ rfl
  · rw [hbelow s hs.1 hs.2.1 hs.2.2.1 hs.2.2.2]
    exact congrArg Except.ok (by decide)

/-- **A path with the null character** has no package directory. -/
theorem not_forall_packages : ¬ ∀ (workingDir : List Text) (p : Path), p.isAbsolute = true →
    ∃ dir, p.packages workingDir = .ok dir ∧ dir.parts.getLast? = some packageDir := by
  intro hall
  obtain ⟨dir, hdir, -⟩ := hall [] (.ofText "/proj/a\x00b".toList) (by decide)
  have hfault : packages [] (.ofText "/proj/a\x00b".toList) = .error (.badPath "/proj/a\x00b".toList) := by
    decide
  rw [hfault] at hdir
  exact absurd hdir (by simp)

end Path
end ThemeSheet
