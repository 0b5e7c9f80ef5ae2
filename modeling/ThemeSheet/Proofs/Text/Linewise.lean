/-
# Passes that keep to their lines

A matcher keeps to its line if it finds nothing at the end of one and, on a line, what
it finds on that line alone.  A pass of such a matcher over a text is one over each of
its lines.
-/

import ThemeSheet.Proofs.Text.Boundary
import ThemeSheet.Proofs.Text.Split

namespace ThemeSheet
namespace Text

/-- **The matcher keeps to its line.** -/
structure KeepsToLine {α : Type} (m : Text → Option (α × Text)) : Prop where
  suffix : ∀ t x r, m t = some (x, r) → ∃ p, t = p ++ r
  nil : m [] = none
  line : ∀ l rest, '\n' ∉ l → m (l ++ '\n' :: rest) = (m l).map fun (x, r) => (x, r ++ '\n' :: rest)

namespace KeepsToLine

variable {α ε : Type}

/-- A matcher that keeps to its line finds nothing at a line feed. -/
theorem feed {m : Text → Option (α × Text)} (hm : KeepsToLine m) (rest : Text) : m ('\n' :: rest) = none := by
  rw [← List.nil_append ('\n' :: rest), hm.line [] rest List.not_mem_nil, hm.nil]
  rfl

/-- Changing what a match gives keeps it to its line. -/
theorem map {β : Type} {m : Text → Option (α × Text)} (hm : KeepsToLine m) (f : α → β) :
    KeepsToLine fun t => (m t).map fun (x, r) => (f x, r) where
  suffix t y r h := by
    obtain ⟨⟨x, r'⟩, hx, he⟩ := Option.map_eq_some_iff.1 h
    rw [← (Prod.mk.inj he).2]
    exact hm.suffix t x r' hx
  nil := by rw [hm.nil]; rfl
  line l rest hl := by
    rw [hm.line l rest hl, Option.map_map, Option.map_map]
    rfl

/-- **Only the last line counts** where a text is seen apart from what follows. -/
theorem seesApart_of_line {m : Text → Option (α × Text)} (hm : KeepsToLine m) {s z : Text}
    (h : ∀ front l, s = front ++ l → '\n' ∉ l → m (l ++ z) = (m l).map fun (x, r) => (x, r ++ z)) :
    SeesApart m s z := by
  intro front kept hs _
  by_cases hk : '\n' ∈ kept
  · obtain ⟨l, more, rfl, hl⟩ := List.eq_append_cons_of_mem hk
    rw [List.append_assoc, List.cons_append, hm.line l _ hl, hm.line l more hl, Option.map_map]
    congr 1
    funext ⟨x, r⟩
    simp
  · exact h front kept hs hk

/-- A text in front of the end of a line is seen apart from what follows. -/
theorem seesApart {m : Text → Option (α × Text)} (hm : KeepsToLine m) (s rest : Text) :
    SeesApart m s ('\n' :: rest) :=
  hm.seesApart_of_line fun _ l _ hl => hm.line l rest hl

/-- **A pass goes over the end of a line** as over any other character that stays. -/
theorem replaceMatches_feed {m : Matcher} (hm : KeepsToLine m) (s rest : Text) :
    replaceMatches m (s ++ '\n' :: rest) = replaceMatches m s ++ '\n' :: replaceMatches m rest := by
  rw [replaceMatches_append_of_apart hm.suffix (hm.seesApart s rest), replaceMatches_of_none (hm.feed rest)]

/-- Lines without characters at the end stay. -/
theorem replaceMatches_feeds {m : Matcher} (hm : KeepsToLine m) (s : Text) (k : Nat) :
    replaceMatches m (s ++ List.replicate k '\n') = replaceMatches m s ++ List.replicate k '\n' := by
  induction k generalizing s with
  | zero => simp
  | succ k ih =>
    have hnil := ih []
    rw [replaceMatches, List.nil_append] at hnil
    rw [List.replicate_succ, hm.replaceMatches_feed, hnil]

/-- **A pass over a text is one over each of its lines.** -/
theorem replaceMatches_lines {m : Matcher} (hm : KeepsToLine m) (t : Text) :
    replaceMatches m t = join ['\n'] ((lines t).map (replaceMatches m)) := by
  suffices hjoin : ∀ ls, replaceMatches m (join ['\n'] ls) = join ['\n'] (ls.map (replaceMatches m)) by
    conv_lhs => rw [← join_splitOn '\n' t]
    exact hjoin _
  intro ls
  induction ls with
  | nil => exact replaceMatches.eq_1 m
  | cons l ls ih =>
    cases ls with
    | nil => rfl
    | cons l' ls =>
      rw [join, List.append_assoc, List.singleton_append, hm.replaceMatches_feed, ih]
      simp [join]

/-- What may fail goes over the end of a line likewise. -/
theorem replaceFallibly_feed {m : Text → Option (Except ε Text × Text)} (hm : KeepsToLine m) (s rest : Text) :
    replaceFallibly m (s ++ '\n' :: rest) =
      (replaceFallibly m s).bind fun out => (replaceFallibly m rest).map (out ++ '\n' :: ·) := by
  rw [replaceFallibly_append_of_apart hm.suffix (hm.seesApart s rest), replaceFallibly, hm.feed rest]
  cases replaceFallibly m rest <;> rfl

/-- **What is made of a text** is made of each of its lines, the first one first. -/
theorem replaceFallibly_lines {m : Text → Option (Except ε Text × Text)} (hm : KeepsToLine m) (t : Text) :
    replaceFallibly m t = ((lines t).mapM (replaceFallibly m)).map (join ['\n']) := by
  suffices hjoin : ∀ ls : List Text, ls ≠ [] →
      replaceFallibly m (join ['\n'] ls) = (ls.mapM (replaceFallibly m)).map (join ['\n']) by
    conv_lhs => rw [← join_splitOn '\n' t]
    exact hjoin _ (splitOn_ne_nil '\n' t)
  intro ls hne
  induction ls with
  | nil => exact absurd rfl hne
  | cons l ls ih =>
    rw [List.mapM_cons]
    cases ls with
    | nil =>
      rw [join, List.mapM_nil]
      cases replaceFallibly m l <;> rfl
    | cons l' ls =>
      rw [join, List.append_assoc, List.singleton_append, hm.replaceFallibly_feed, ih (List.cons_ne_nil l' ls),
        List.mapM_cons]
      cases replaceFallibly m l with
      | error e => rfl
      | ok o =>
        cases replaceFallibly m l' with
        | error e => rfl
        | ok o' =>
          cases ls.mapM (replaceFallibly m) with
          | error e => rfl
          | ok outs => simp [bind, Except.bind, Except.map, pure, Except.pure, join]

/-- **A text becomes another one line by line,** where no line feeds come in. -/
theorem replaceFallibly_eq_ok_iff {m : Text → Option (Except ε Text × Text)} (hm : KeepsToLine m) {g : Text → Text}
    (hg : ∀ l, '\n' ∉ l → '\n' ∉ g l) (hout : ∀ l o, '\n' ∉ l → replaceFallibly m l = .ok o → '\n' ∉ o) (t : Text) :
    replaceFallibly m t = .ok (join ['\n'] ((lines t).map g)) ↔ ∀ l ∈ lines t, replaceFallibly m l = .ok (g l) := by
  have hlines : ∀ l ∈ lines t, '\n' ∉ l := fun l hl => (mem_splitOn hl).1
  rw [hm.replaceFallibly_lines, Fallible.map_eq_ok]
  constructor
  · rintro ⟨outs, hmap, hjoin⟩
    have hall := Fallible.mapM_eq_ok.1 hmap
    have houts : ∀ o ∈ outs, '\n' ∉ o := by
      intro o ho
      obtain ⟨l, hl, hlo⟩ := Fallible.exists_of_mem_right hall ho
      exact hout l o (hlines l hl) hlo
    have hgs : ∀ o ∈ (lines t).map g, '\n' ∉ o := by
      intro o ho
      obtain ⟨l, hl, rfl⟩ := List.mem_map.1 ho
      exact hg l (hlines l hl)
    have hne : lines t ≠ [] := splitOn_ne_nil '\n' t
    have hne' : outs ≠ [] := fun h => hne (List.forall₂_nil_right_iff.1 (h ▸ hall))
    have hsame := congrArg (splitOn '\n') hjoin
    rw [splitOn_join hne' houts, splitOn_join (by simpa using hne) hgs] at hsame
    rw [hsame, List.forall₂_map_right_iff] at hall
    exact List.forall₂_same.1 hall
  · exact fun h => ⟨_, Fallible.mapM_of_forall h, rfl⟩

end KeepsToLine

end Text
end ThemeSheet
