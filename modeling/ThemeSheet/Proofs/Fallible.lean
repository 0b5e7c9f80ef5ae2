/-
# Computations that may stop with a fault

What it means that a computation in several steps gives a result: every step gives
one.
-/

import Mathlib.Data.List.Forall2

namespace ThemeSheet
namespace Fallible

variable {ε σ α β : Type}

/-- Two steps succeed exactly if the first gives something with which the second succeeds. -/
theorem bind_eq_ok {x : Except ε α} {f : α → Except ε β} {b : β} :
    x >>= f = .ok b ↔ ∃ a, x = .ok a ∧ f a = .ok b := by
  cases x with
  | error e => simp [bind, Except.bind]
  | ok a => simp [bind, Except.bind]

/-- Two steps fail exactly if the first fails, or the second does with what the first gives. -/
theorem bind_eq_error {x : Except ε α} {f : α → Except ε β} {e : ε} :
    x >>= f = .error e ↔ x = .error e ∨ ∃ a, x = .ok a ∧ f a = .error e := by
  cases x with
  | error e => simp [bind, Except.bind]
  | ok a => simp [bind, Except.bind]

/-- A result that is changed is a result. -/
theorem map_eq_ok {x : Except ε α} {f : α → β} {b : β} :
    x.map f = .ok b ↔ ∃ a, x = .ok a ∧ f a = b := by
  cases x with
  | error e => simp [Except.map]
  | ok a => simp [Except.map]

/-- Changing a result changes no fault. -/
theorem map_eq_error {x : Except ε α} {f : α → β} {e : ε} : x.map f = .error e ↔ x = .error e := by
  cases x with
  | error e => simp [Except.map]
  | ok a => simp [Except.map]

/-- **A computation for every element gives a result exactly when each of them does.** -/
theorem mapM_eq_ok {f : α → Except ε β} {l : List α} {bs : List β} :
    l.mapM f = .ok bs ↔ List.Forall₂ (fun a b => f a = .ok b) l bs := by
  induction l generalizing bs with
  | nil =>
    rw [List.mapM_nil, List.forall₂_nil_left_iff]
    exact Except.ok.injEq [] bs ▸ eq_comm
  | cons a l ih =>
    rw [List.mapM_cons, bind_eq_ok, List.forall₂_cons_left_iff]
    constructor
    · rintro ⟨b, hb, h⟩
      obtain ⟨bs', hbs, h⟩ := bind_eq_ok.1 h
      exact ⟨b, bs', hb, ih.1 hbs, (Except.ok.inj h).symm⟩
    · rintro ⟨b, bs', hb, hbs, rfl⟩
      exact ⟨b, hb, bind_eq_ok.2 ⟨bs', ih.2 hbs, rfl⟩⟩

/-- Steps that all succeed give the list of their results. -/
theorem mapM_of_forall {f : α → Except ε β} {g : α → β} {l : List α} (h : ∀ a ∈ l, f a = .ok (g a)) :
    l.mapM f = .ok (l.map g) := by
  rw [mapM_eq_ok, List.forall₂_map_right_iff]
  exact List.forall₂_same.2 h

/-- The fault of a computation, if it stops with one. -/
def fault? : Except ε α → Option ε
  | .ok _ => none
  | .error e => some e

/-- There is no fault exactly if there is a result. -/
theorem fault?_eq_none {x : Except ε α} : fault? x = none ↔ ∃ a, x = .ok a := by
  cases x <;> simp [fault?]

/-- The fault is the one that a step failed with. -/
theorem fault?_eq_some {x : Except ε α} {e : ε} : fault? x = some e ↔ x = .error e := by
  cases x <;> simp [fault?]

/-- **A computation for every element stops with the fault of the first one that has one.** -/
theorem fault?_mapM (f : α → Except ε β) (l : List α) :
    fault? (l.mapM f) = l.findSome? fun a => fault? (f a) := by
  induction l with
  | nil => rfl
  | cons a l ih =>
    rw [List.mapM_cons, List.findSome?_cons, ← ih]
    cases f a with
    | error e => rfl
    | ok b => cases l.mapM f <;> rfl

/-- A member of the first list has its partner in the second one. -/
theorem exists_of_mem_left {r : α → β → Prop} {l : List α} {l' : List β} (h : List.Forall₂ r l l')
    {a : α} (ha : a ∈ l) : ∃ b ∈ l', r a b := by
  induction h with
  | nil => exact absurd ha List.not_mem_nil
  | cons hab _ ih =>
    rcases List.mem_cons.1 ha with rfl | ha
    · exact ⟨_, List.mem_cons_self .., hab⟩
    · obtain ⟨b, hb, hr⟩ := ih ha
      exact ⟨b, List.mem_cons_of_mem _ hb, hr⟩

/-- A member of the second list has its partner in the first one. -/
theorem exists_of_mem_right {r : α → β → Prop} {l : List α} {l' : List β} (h : List.Forall₂ r l l')
    {b : β} (hb : b ∈ l') : ∃ a ∈ l, r a b :=
  exists_of_mem_left (r := fun b a => r a b) h.flip hb

/-- Where every step of a fold gives a result, the fold gives the last one. -/
theorem foldlM_of_forall {f : σ → α → Except ε σ} {g : σ → α → σ} {l : List α}
    (h : ∀ a ∈ l, ∀ s, f s a = .ok (g s a)) (s : σ) : l.foldlM f s = .ok (l.foldl g s) := by
  induction l generalizing s with
  | nil => rfl
  | cons a l ih =>
    rw [List.foldlM_cons, h a (List.mem_cons_self ..)]
    exact ih (fun b hb => h b (List.mem_cons_of_mem _ hb)) _

/-- What the steps of a fold keep, the fold keeps. -/
theorem foldlM_induction {p : σ → Prop} {g : σ → α → Except ε σ} {l : List α} {s s' : σ}
    (hg : ∀ s x s', x ∈ l → p s → g s x = .ok s' → p s') (hs : p s) (h : l.foldlM g s = .ok s') :
    p s' := by
  induction l generalizing s with
  | nil => exact Except.ok.inj h ▸ hs
  | cons x l ih =>
    rw [List.foldlM_cons] at h
    obtain ⟨s₁, hx, h⟩ := bind_eq_ok.1 h
    exact ih (fun s y s' hy => hg s y s' (List.mem_cons_of_mem _ hy))
      (hg s x s₁ (List.mem_cons_self ..) hs hx) h

end Fallible
end ThemeSheet
