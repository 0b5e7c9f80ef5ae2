/-
# Where aliases lead

A trail is a list of texts, each of which is the value of the one before it.  No text
has two values, so of two trails from one name one begins the other.  Following a
name therefore ends in one of three ways: the name has no value, a trail comes back to
a name on it, or the trail ends at the one text that is no name.
-/

import Mathlib.Data.List.Chain
import Mathlib.Data.List.Nodup
import ThemeSheet.Variable.Alias

namespace ThemeSheet
namespace Variable

variable {table : Table Text} {seen trail trail' front chain chain' : List Text}
    {name value last : Text} {fault : Fault}

/-! ### Following aliases -/

/-- A text without a value is its own end. -/
theorem follow_of_none (h : table.get? value = none) : follow table seen value = .ok value := by
  rw [follow]
  split
  · rfl
  · next next hnext => rw [h] at hnext; simp at hnext

/-- A text with a value is followed to it. -/
theorem follow_of_some {next : Text} (h : table.get? value = some next) (hs : value ∉ seen) :
    follow table seen value = follow table (seen ++ [value]) next := by
  rw [follow]
  split
  · next hnone => rw [h] at hnone; simp at hnone
  · next next' hnext =>
    obtain rfl : next = next' := Option.some.inj (h.symm.trans hnext)
    rw [if_neg hs]

/-- What a name leads to is what its value leads to. -/
theorem resolve_of_some (h : table.get? name = some value) :
    resolve table name = (follow table [] name).map some := by
  rw [resolve, h, follow_of_some h List.not_mem_nil, List.nil_append]

/-! ### Trails -/

/-- **A trail from a name:** every text on it is the value of the one before. -/
structure IsTrail (table : Table Text) (name : Text) (trail : List Text) : Prop where
  begins : trail.head? = some name
  steps : trail.IsChain fun a b => table.get? a = some b

/-- Does a trail from the name lead to the text? -/
def LeadsTo (table : Table Text) (name value : Text) : Prop :=
  ∃ front, IsTrail table name (front ++ [value])

/-- Does a trail from the name come back to a name on it? -/
def ComesBack (table : Table Text) (name : Text) : Prop :=
  ∃ trail, IsTrail table name trail ∧ ¬ trail.Nodup

/-- **A trail that has just come back:** its last text stands on it once before, and no other does. -/
structure IsCircle (table : Table Text) (name : Text) (chain : List Text) : Prop where
  trail : IsTrail table name chain
  returns : ∃ front last, chain = front ++ [last] ∧ front.Nodup ∧ last ∈ front

/-- A name alone is a trail. -/
theorem isTrail_single (table : Table Text) (name : Text) : IsTrail table name [name] :=
  ⟨rfl, .singleton name⟩

/-- A trail goes on with the value of its last text. -/
theorem IsTrail.concat {next : Text} (h : IsTrail table name (front ++ [last]))
    (hnext : table.get? last = some next) : IsTrail table name (front ++ [last] ++ [next]) where
  begins := by
    have hb := h.begins
    rw [List.head?_append, hb, Option.some_or]
  steps := by
    rw [List.append_assoc, List.singleton_append, List.isChain_append_cons_cons]
    exact ⟨h.steps, hnext, .singleton next⟩

/-- What stands on a trail before its end has a value, and this stands on it too. -/
theorem IsTrail.exists_next (h : IsTrail table name (front ++ [last])) {a : Text} (ha : a ∈ front) :
    ∃ next ∈ front ++ [last], table.get? a = some next := by
  obtain ⟨before, after, rfl⟩ := List.append_of_mem ha
  obtain ⟨next, rest, hnext⟩ := List.exists_cons_of_ne_nil (show after ++ [last] ≠ [] by simp)
  have hsteps := h.steps
  rw [List.append_assoc, List.cons_append, hnext, List.isChain_append_cons_cons] at hsteps
  exact ⟨next, by rw [List.append_assoc, List.cons_append, hnext]; simp, hsteps.2.1⟩

/-- **Of two trails from one name, one begins the other:** no text has two values. -/
theorem IsTrail.prefix_or_prefix (h : IsTrail table name trail) (h' : IsTrail table name trail') :
    trail <+: trail' ∨ trail' <+: trail := by
  induction trail generalizing name trail' with
  | nil => exact .inl List.nil_prefix
  | cons a trail ih =>
    cases trail' with
    | nil => exact .inr List.nil_prefix
    | cons a' trail' =>
      obtain rfl : a = name := Option.some.inj h.begins
      obtain rfl : a' = a := Option.some.inj h'.begins
      cases trail with
      | nil => exact .inl (by simp)
      | cons b trail =>
        cases trail' with
        | nil => exact .inr (by simp)
        | cons b' trail' =>
          obtain ⟨hb, hsteps⟩ := List.isChain_cons_cons.1 h.steps
          obtain ⟨hb', hsteps'⟩ := List.isChain_cons_cons.1 h'.steps
          obtain rfl : b = b' := Option.some.inj (hb.symm.trans hb')
          exact (ih ⟨rfl, hsteps⟩ ⟨rfl, hsteps'⟩).imp (List.prefix_cons_inj _).2
            (List.prefix_cons_inj _).2

/-- **A trail that ends at no name goes on as far as any.** -/
theorem IsTrail.prefix_of_end (h : IsTrail table name (front ++ [last])) (hlast : table.get? last = none)
    (h' : IsTrail table name trail) : trail <+: front ++ [last] := by
  rcases h'.prefix_or_prefix h with hp | ⟨rest, rfl⟩
  · exact hp
  · cases rest with
    | nil => exact (List.append_nil _).symm ▸ List.prefix_refl _
    | cons next rest =>
      have hsteps := h'.steps
      rw [List.append_assoc, List.singleton_append, List.isChain_append_cons_cons, hlast] at hsteps
      exact absurd hsteps.2.1.symm (Option.some_ne_none next)

/-- A trail that ends at no name does not come back, nor does any other from the name. -/
theorem IsTrail.not_comesBack (h : IsTrail table name (front ++ [last]))
    (hnodup : (front ++ [last]).Nodup) (hlast : table.get? last = none) : ¬ ComesBack table name := by
  rintro ⟨trail, htrail, hback⟩
  exact hback (hnodup.sublist (h.prefix_of_end hlast htrail).sublist)

/-- All trails that end at no name end at the same text. -/
theorem IsTrail.end_unique (h : IsTrail table name (front ++ [last])) (hlast : table.get? last = none)
    {front' : List Text} (h' : IsTrail table name (front' ++ [value])) (hvalue : table.get? value = none) :
    value = last := by
  have he := (h.prefix_of_end hlast h').eq_of_length_le (h'.prefix_of_end hvalue h).length_le
  exact List.singleton_inj.1 (List.append_inj' he rfl).2

/-- From a name with a circle the values come back. -/
theorem IsCircle.comesBack (h : IsCircle table name chain) : ComesBack table name := by
  obtain ⟨front, last, rfl, -, hlast⟩ := h.returns
  refine ⟨_, h.trail, fun hnodup => ?_⟩
  exact (List.nodup_append.1 hnodup).2.2 last hlast last (List.mem_singleton_self _) rfl

/-- **A trail comes back in one way only.** -/
theorem IsCircle.unique (h : IsCircle table name chain) (h' : IsCircle table name chain') :
    chain = chain' := by
  -- what comes back for the first time is no part of a trail that has not come back yet
  have hall : ∀ {c c' : List Text}, IsCircle table name c → IsCircle table name c' → c <+: c' → c = c' := by
    intro c c' hc hc' hp
    obtain ⟨front, last, rfl, -, hlast⟩ := hc.returns
    obtain ⟨front', last', rfl, hnodup', -⟩ := hc'.returns
    refine (List.prefix_concat_iff.1 hp).resolve_right fun hfront => ?_
    have hnodup := hnodup'.sublist hfront.sublist
    exact (List.nodup_append.1 hnodup).2.2 last hlast last (List.mem_singleton_self _) rfl
  rcases h.trail.prefix_or_prefix h'.trail with hp | hp
  · exact hall h h' hp
  · exact (hall h' h hp).symm

/-- **Nothing leads off a circle:** every text on a trail has a value. -/
theorem IsCircle.get?_ne_none (h : IsCircle table name chain) (h' : IsTrail table name trail) {a : Text}
    (ha : a ∈ trail) : table.get? a ≠ none := by
  obtain ⟨front, last, rfl, -, hlast⟩ := h.returns
  have hmem : ∀ b ∈ front ++ [last], b ∈ front := by
    intro b hb
    rcases List.mem_append.1 hb with hb | hb
    · exact hb
    · exact List.mem_singleton.1 hb ▸ hlast
  have hfront : a ∈ front := by
    refine h'.steps.induction (· ∈ front) trail ?_ ?_ a ha
    · intro b c hbc hb
      obtain ⟨next, hnext, hb⟩ := h.trail.exists_next hb
      obtain rfl : next = c := Option.some.inj (hb.symm.trans hbc)
      exact hmem next hnext
    · intro hne
      refine hmem _ (List.mem_of_mem_head? (l := front ++ [last]) ?_)
      rw [h.trail.begins, ← h'.begins, List.head?_eq_some_head hne]
      rfl
  obtain ⟨next, -, hnext⟩ := h.trail.exists_next hfront
  exact hnext ▸ Option.some_ne_none next

/-! ### What following a name gives -/

/-- **Following a trail goes on to its end** or until it comes back. -/
theorem follow_cases (h : IsTrail table name (seen ++ [value])) (hseen : seen.Nodup) :
    (∃ front last, follow table seen value = .ok last ∧ IsTrail table name (front ++ [last]) ∧
      (front ++ [last]).Nodup ∧ table.get? last = none) ∨
    ∃ chain, follow table seen value = .error (.cyclicVariable chain) ∧ IsCircle table name chain := by
  fun_induction follow table seen value with
  | case1 seen value hnone =>
    refine .inl ⟨seen, value, rfl, h, ?_, hnone⟩
    refine List.nodup_append.2 ⟨hseen, List.nodup_singleton _, fun a ha b hb hab => ?_⟩
    rw [hab, List.mem_singleton.1 hb] at ha
    obtain ⟨next, -, hnext⟩ := h.exists_next ha
    rw [hnone] at hnext
    exact Option.some_ne_none next hnext.symm
  | case2 seen value next hnext hmem =>
    exact .inr ⟨_, rfl, h, seen, value, rfl, hseen, hmem⟩
  | case3 seen value next hnext hmem ih =>
    exact ih (h.concat hnext) (List.concat_eq_append ▸ hseen.concat hmem)

/-- The three ways in which following a name ends. -/
theorem resolve_cases (table : Table Text) (name : Text) :
    (table.get? name = none ∧ resolve table name = .ok none) ∨
    (∃ front last, table.get? name ≠ none ∧ resolve table name = .ok (some last) ∧
      IsTrail table name (front ++ [last]) ∧ (front ++ [last]).Nodup ∧ table.get? last = none) ∨
    ∃ chain, resolve table name = .error (.cyclicVariable chain) ∧ IsCircle table name chain := by
  cases hname : table.get? name with
  | none => exact .inl ⟨rfl, by rw [resolve, hname]⟩
  | some value =>
    have hstart : IsTrail table name ([] ++ [name]) := isTrail_single table name
    rw [resolve_of_some hname]
    refine .inr ((follow_cases hstart List.nodup_nil).imp ?_ ?_)
    · rintro ⟨front, last, hfollow, h⟩
      exact ⟨front, last, Option.some_ne_none value, by rw [hfollow]; rfl, h⟩
    · rintro ⟨chain, hfollow, h⟩
      exact ⟨chain, by rw [hfollow]; rfl, h⟩

/-- **What following a name gives.** It stops with the trail that has come back exactly when a trail
from the name comes back; it gives nothing exactly when the name has no value; and otherwise it
gives the only text on the way that is no name. -/
theorem resolve_spec (table : Table Text) (name : Text) :
    ((∃ fault, resolve table name = .error fault) ↔ ComesBack table name) ∧
      (∀ fault, resolve table name = .error fault ↔
        ∃ chain, fault = .cyclicVariable chain ∧ IsCircle table name chain) ∧
      (resolve table name = .ok none ↔ table.get? name = none) ∧
      ∀ value, resolve table name = .ok (some value) ↔
        table.get? name ≠ none ∧ LeadsTo table name value ∧ table.get? value = none := by
  rcases resolve_cases table name with ⟨hname, hr⟩ | ⟨front, last, hname, hr, htrail, hnodup, hlast⟩ |
    ⟨chain, hr, hchain⟩
  · have hstart : IsTrail table name ([] ++ [name]) := isTrail_single table name
    have hback : ¬ ComesBack table name := hstart.not_comesBack (List.nodup_singleton _) hname
    have hnone : ∀ chain, ¬ IsCircle table name chain := fun _ hc => hback hc.comesBack
    simp [hr, hback, hnone, hname]
  · have hback := htrail.not_comesBack hnodup hlast
    have hnone : ∀ chain, ¬ IsCircle table name chain := fun _ hc => hback hc.comesBack
    refine ⟨by simp [hr, hback], by simp [hr, hnone], by simp [hr, hname], fun value => ?_⟩
    rw [hr, Except.ok.injEq, Option.some.injEq]
    constructor
    · rintro rfl
      exact ⟨hname, ⟨front, htrail⟩, hlast⟩
    · rintro ⟨-, ⟨front', htrail'⟩, hvalue⟩
      exact htrail'.end_unique hvalue htrail hlast
  · have hname : table.get? name ≠ none :=
      hchain.get?_ne_none (isTrail_single table name) (List.mem_singleton_self name)
    refine ⟨by simp [hr, hchain.comesBack], fun fault => ?_, by simp [hr, hname], fun value => ?_⟩
    · rw [hr, Except.error.injEq]
      constructor
      · rintro rfl
        exact ⟨chain, rfl, hchain⟩
      · rintro ⟨chain', rfl, hchain'⟩
        rw [hchain.unique hchain']
    · simp only [hr, reduceCtorEq, false_iff]
      rintro ⟨-, ⟨front, htrail⟩, hvalue⟩
      exact hchain.get?_ne_none htrail (by simp) hvalue

/-- A tail that leads into a circle of two names, and a name beside them. -/
example : resolve (.ofList [("@a".toList, "@b".toList), ("@b".toList, "@c".toList),
    ("@c".toList, "@b".toList), ("@d".toList, "#111".toList)]) "@a".toList =
      .error (.cyclicVariable ["@a".toList, "@b".toList, "@c".toList, "@b".toList]) := by
  decide +kernel

end Variable
end ThemeSheet
