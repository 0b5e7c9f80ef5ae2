/-
# Sources without import statements

An import statement ends with a quote and a semicolon.  A text without import
statements stays without them when a text is put behind it in which no semicolon
follows a quote, and putting imports in their place leaves it as it is.
-/

import Mathlib.Data.List.Infix
import Mathlib.Data.List.TakeWhile
import ThemeSheet.Less.Evaluator
import ThemeSheet.Proofs.Fallible
import ThemeSheet.Proofs.Text.Boundary

namespace ThemeSheet
namespace Less
namespace Evaluator

open Text

/-- **What an import statement is:** the word, blanks, and a path between quotes with a semicolon
behind it. -/
theorem statement?_eq_some {t path rest : Text} : statement? t = some (path, rest) ↔
    ∃ blanks q q', t = importWord ++ blanks ++ q :: path ++ q' :: ';' :: rest ∧ blanks ≠ [] ∧
      (∀ c ∈ blanks, isBlank c = true) ∧ isQuote q = true ∧ isQuote q' = true ∧ path ≠ [] ∧
      ∀ c ∈ path, isQuote c = false := by
  constructor
  · intro h
    unfold statement? at h
    split at h
    · simp at h
    · next after ha =>
      split at h
      · next q inner hhead hdrop =>
        dsimp only at h
        split at h
        · next q' rest' hq hinner =>
          obtain ⟨rfl, rfl⟩ := Prod.mk.inj (Option.some.inj h)
          rw [Bool.and_eq_true, Bool.not_eq_true', List.isEmpty_eq_false_iff] at hq
          have hafter : after = after.takeWhile isBlank ++ q :: inner := by
            rw [← hdrop, List.takeWhile_append_dropWhile]
          have hpath : inner = inner.takeWhile (!isQuote ·) ++ q' :: ';' :: rest' := by
            rw [← hinner, List.takeWhile_append_dropWhile]
          have hclose := List.head_dropWhile_not (p := (!isQuote ·)) (l := inner) (by rw [hinner]; simp)
          simp only [hinner, List.head_cons, Bool.not_eq_false'] at hclose
          refine ⟨after.takeWhile isBlank, q, q', ?_, ?_, fun c hc => List.mem_takeWhile_imp hc,
            hq.1, hclose, hq.2,
            fun c hc => by simpa using List.mem_takeWhile_imp hc⟩
          · rw [Text.dropPrefix?_eq_some.1 ha]
            conv => lhs; rw [hafter, hpath]
            simp
          · cases after with
            | nil => simp at hdrop
            | cons c after =>
              have hc : isBlank c = true := by simpa using hhead
              simp [hc]
        · simp at h
      · simp at h
  · rintro ⟨blanks, q, q', rfl, hne, hblanks, hq, hq', hpath, hchars⟩
    have hqb : isBlank q = false := by
      rcases isQuote_iff.1 hq with rfl | rfl <;> decide
    have hhead : (blanks ++ q :: path ++ q' :: ';' :: rest).head?.any isBlank = true := by
      cases blanks with
      | nil => exact absurd rfl hne
      | cons c blanks => simpa using hblanks c (List.mem_cons_self ..)
    have hdrop : (blanks ++ q :: path ++ q' :: ';' :: rest).dropWhile isBlank =
        q :: (path ++ q' :: ';' :: rest) := by
      rw [List.append_assoc, List.dropWhile_append_of_pos hblanks]
      simp [hqb]
    have hprefix : Text.dropPrefix? importWord
        (importWord ++ blanks ++ q :: path ++ q' :: ';' :: rest) =
          some (blanks ++ q :: path ++ q' :: ';' :: rest) :=
      Text.dropPrefix?_eq_some.2 (by simp)
    have htake : (path ++ q' :: ';' :: rest).takeWhile (!isQuote ·) = path := by
      rw [List.takeWhile_append_of_pos fun c hc => by simp [hchars c hc]]
      simp [hq']
    have hdropq : (path ++ q' :: ';' :: rest).dropWhile (!isQuote ·) = q' :: ';' :: rest := by
      rw [List.dropWhile_append_of_pos fun c hc => by simp [hchars c hc]]
      simp [hq']
    rw [statement?, hprefix]
    dsimp only
    rw [hhead, hdrop]
    dsimp only
    rw [hdropq, htake, hq, Bool.true_and, List.isEmpty_eq_false_iff.2 hpath]
    rfl

/-- **No semicolon follows a quote,** and none stands at the beginning. -/
structure NoStatementEnd (z : Text) : Prop where
  head : z.head? ≠ some ';'
  inside : ∀ a q b, z = a ++ q :: ';' :: b → isQuote q = false

/-- A text without semicolons ends no statement. -/
theorem NoStatementEnd.of_no_semicolon {z : Text} (h : ';' ∉ z) : NoStatementEnd z where
  head := fun hh => h (List.mem_of_mem_head? hh)
  inside := fun a q b hz => absurd (by rw [hz]; simp) h

/-- A text without quotes ends no statement, if no semicolon begins it. -/
theorem NoStatementEnd.of_no_quote {z : Text} (hh : z.head? ≠ some ';')
    (h : ∀ c ∈ z, isQuote c = false) : NoStatementEnd z where
  head := hh
  inside := fun a q b hz => h q (by rw [hz]; simp)

/-- Two texts that end no statement end none together. -/
theorem NoStatementEnd.append {z z' : Text} (h : NoStatementEnd z) (h' : NoStatementEnd z') :
    NoStatementEnd (z ++ z') where
  head := by
    cases z with
    | nil => exact h'.head
    | cons c z => exact h.head
  inside := by
    intro a q b hz
    rcases List.append_eq_append_iff.1 hz with ⟨w, ha, hz'⟩ | ⟨w, hz₁, hb⟩
    · exact h'.inside w q b hz'
    · cases w with
      | nil => exact h'.inside [] q b hb.symm
      | cons d w =>
        obtain ⟨rfl, hb'⟩ := List.cons.inj hb
        cases w with
        | nil => exact absurd (congrArg List.head? hb').symm h'.head
        | cons e w =>
          obtain ⟨rfl, -⟩ := List.cons.inj hb'
          exact h.inside a q w hz₁

/-- A statement that begins in front of such a text ends there. -/
theorem statement?_append {u z : Text} (hu : statement? u = none) (hz : NoStatementEnd z) :
    statement? (u ++ z) = none := by
  by_contra hn
  obtain ⟨⟨path, rest⟩, hs⟩ := Option.ne_none_iff_exists'.1 hn
  obtain ⟨blanks, q, q', ht, hne, hblanks, hq, hq', hpath, hchars⟩ := statement?_eq_some.1 hs
  have ht' : u ++ z = (importWord ++ blanks ++ q :: path ++ [q', ';']) ++ rest := by rw [ht]; simp
  rcases append_eq_append_cases ht' with ⟨v, rfl⟩ | ⟨w, hw, hp, hzw⟩
  · rw [← List.append_assoc] at ht'
    have := List.append_cancel_right ht'
    have hsome : statement? u = some (path, v) :=
      statement?_eq_some.2 ⟨blanks, q, q', by rw [this]; simp, hne, hblanks, hq, hq', hpath, hchars⟩
    rw [hu] at hsome
    simp at hsome
  · -- the semicolon stands behind the boundary, and the quote in front of it too
    rcases w.eq_nil_or_concat with rfl | ⟨w, c, rfl⟩
    · exact hw rfl
    · have hlast : importWord ++ blanks ++ q :: path ++ [q'] ++ [';'] = u ++ w ++ [c] := by
        rw [List.concat_eq_append] at hp
        simpa using hp
      obtain ⟨hfront, hc⟩ := List.append_inj' hlast rfl
      obtain rfl : ';' = c := by simpa using hc
      rcases w.eq_nil_or_concat with rfl | ⟨w, d, rfl⟩
      · exact hz.head (by rw [hzw]; rfl)
      · have hfront' : importWord ++ blanks ++ q :: path ++ [q'] = u ++ w ++ [d] := by
          rw [hfront, List.concat_eq_append, List.append_assoc]
        obtain rfl : q' = d := by simpa using (List.append_inj' hfront' rfl).2
        have := hz.inside w q' rest (by rw [hzw]; simp)
        rw [hq'] at this
        exact Bool.noConfusion this

/-- No import statement begins anywhere in the text. -/
def NoImport (t : Text) : Prop := ∀ s ∈ t.tails, statement? s = none

/-- Whether a text has an import statement can be checked. -/
instance (t : Text) : Decidable (NoImport t) := inferInstanceAs (Decidable (∀ s ∈ t.tails, _))

/-- A text that ends no statement adds no import behind one without imports. -/
theorem NoImport.append {t z : Text} (ht : NoImport t) (hz : NoStatementEnd z) : NoImport (t ++ z) := by
  intro s hs
  obtain ⟨before, hbefore⟩ := (List.mem_tails ..).1 hs
  rcases List.append_eq_append_iff.1 hbefore with ⟨u, rfl, rfl⟩ | ⟨w, rfl, hw⟩
  · exact statement?_append (ht u ((List.mem_tails ..).2 ⟨before, rfl⟩)) hz
  · -- a statement inside the second text would end inside it
    by_contra hn
    obtain ⟨⟨path, rest⟩, hs⟩ := Option.ne_none_iff_exists'.1 hn
    obtain ⟨blanks, q, q', rfl, -, -, -, hq', -⟩ := statement?_eq_some.1 hs
    have := hz.inside (w ++ importWord ++ blanks ++ q :: path) q' rest (by rw [hw]; simp)
    rw [hq'] at this
    exact Bool.noConfusion this

/-- A text without imports is read as its characters. -/
theorem parts_of_noImport {t : Text} (h : NoImport t) : parts t = t.map .char := by
  induction t with
  | nil => simp [parts]
  | cons c t ih =>
    rw [parts, h (c :: t) (by simp), List.map_cons]
    exact congrArg _ (ih fun s hs => h s (by simp [hs]))

/-- **Where nothing is imported, the text stays as it is.** -/
theorem inline_of_noImport {t : Text} (h : NoImport t) (tree : FileTree) (source : Text) (depth : Nat)
    (search : List Path) : inline tree source (depth + 1) search t = .ok t := by
  rw [inline, parts_of_noImport h]
  refine Fallible.bind_eq_ok.2 ⟨t.map ([·]), ?_, congrArg Except.ok (List.flatMap_singleton' t)⟩
  rw [Fallible.mapM_eq_ok, List.forall₂_map_left_iff, List.forall₂_map_right_iff]
  exact List.forall₂_same.2 fun _ _ => rfl

end Evaluator
end Less
end ThemeSheet
