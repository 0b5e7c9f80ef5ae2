/-
# Brackets in the arguments of a call

A call ends with the bracket that closes its own.  Round brackets match in a text if
each one that opens is closed and the other way round; how many may be open at once is
bounded by a number, since what is found as a call has arguments in which brackets stand
inside no others.

A text is closed if every call that begins in it ends in it, and clear of the text behind
it if no call begins with letters of both.  Two such texts in a row are searched one after
the other.
-/

import Mathlib.Data.List.TakeWhile
import ThemeSheet.Proofs.Text.Boundary
import ThemeSheet.Theme.Fades

namespace ThemeSheet
namespace Fade

open Text

/-- **Round brackets match** in the text, with at most `n` of them open at once. -/
inductive Balanced : Nat → Text → Prop
  | nil {n : Nat} : Balanced n []
  | plain {n : Nat} {c : Char} {t : Text} : isRound c = false → Balanced n t → Balanced n (c :: t)
  | nested {n : Nat} {inner t : Text} : Balanced n inner → Balanced (n + 1) t →
      Balanced (n + 1) ('(' :: inner ++ ')' :: t)

/-- **A whole call:** `fade(`, arguments in which brackets match, and the bracket that closes it. -/
def IsWhole (call : Text) : Prop := ∃ n inner, Balanced n inner ∧ call = opening ++ inner ++ [')']

/-- A whole call in whose arguments brackets stand inside no others. -/
def IsShallow (call : Text) : Prop := ∃ inner, Balanced 1 inner ∧ call = opening ++ inner ++ [')']

/-- Does the text close a bracket that was open before it? -/
def Closes (t : Text) : Prop := ∃ n inner rest, Balanced n inner ∧ t = inner ++ ')' :: rest

/-- **Every call that begins in the text ends in it.** -/
def Closed (t : Text) : Prop := ∀ before behind, t = before ++ opening ++ behind → Closes behind

/-- **No call begins with letters of both texts.** -/
def Clear (s t : Text) : Prop :=
  ∀ front kept lost behind, s = front ++ kept → kept ≠ [] → opening = kept ++ lost → t = lost ++ behind →
    lost = []

variable {m n : Nat} {s t inner call : Text}

/-! ### Texts in which brackets match -/

/-- Another character is no round bracket. -/
theorem not_isRound_of_ne {c : Char} (ho : c ≠ '(') (hc : c ≠ ')') : isRound c = false := by
  simp [isRound, ho, hc]

namespace Balanced

/-- In a text without round brackets, they match. -/
theorem of_plain (h : ∀ c ∈ t, isRound c = false) : Balanced n t := by
  induction t with
  | nil => exact .nil
  | cons c t ih => exact .plain (h c (List.mem_cons_self ..)) (ih fun d hd => h d (List.mem_cons_of_mem _ hd))

/-- Where no bracket may be open, none stands in the text. -/
theorem plain_of_zero (h : Balanced 0 t) : ∀ c ∈ t, isRound c = false := by
  generalize hn : 0 = n at h
  induction h with
  | nil => simp
  | plain hc _ ih => exact List.forall_mem_cons.2 ⟨hc, ih hn⟩
  | nested => simp at hn

/-- In two texts in which brackets match, they match one behind the other. -/
theorem append (hs : Balanced n s) (ht : Balanced n t) : Balanced n (s ++ t) := by
  induction hs with
  | nil => exact ht
  | plain hc _ ih => exact .plain hc (ih ht)
  | nested hinner _ _ ih =>
    rw [List.append_assoc, List.cons_append, List.cons_append]
    exact .nested hinner (ih ht)

/-- How a text begins in which brackets match. -/
theorem of_cons {c : Char} (h : Balanced n (c :: t)) : isRound c = false ∧ Balanced n t ∨
    c = '(' ∧ ∃ k inner rest, n = k + 1 ∧ Balanced k inner ∧ Balanced n rest ∧ t = inner ++ ')' :: rest := by
  cases h with
  | plain hc ht => exact .inl ⟨hc, ht⟩
  | nested hinner ht => exact .inr ⟨rfl, _, _, _, rfl, hinner, ht, rfl⟩

/-- A text in which brackets match does not begin with a closing one. -/
theorem not_closing (h : Balanced n (')' :: t)) : False := by
  obtain ⟨hc, -⟩ | ⟨hc, -⟩ := of_cons h
  · exact absurd hc (by decide)
  · exact absurd hc (by decide)

/-- **The bracket that closes** is the only one that can: what stands before it is settled. -/
theorem closing_unique {s' r r' : Text} (hs : Balanced m s) (hs' : Balanced n s')
    (h : s ++ ')' :: r = s' ++ ')' :: r') : s = s' ∧ r = r' := by
  induction hs generalizing n s' r r' with
  | nil =>
    cases s' with
    | nil => exact ⟨rfl, (List.cons.inj h).2⟩
    | cons d s' => exact absurd ((List.cons.inj h).1 ▸ hs') not_closing
  | @plain k c t hc ht ih =>
    cases s' with
    | nil => exact absurd hc (by rw [(List.cons.inj h).1]; decide)
    | cons d s' =>
      obtain ⟨rfl, hrest⟩ := List.cons.inj h
      obtain ⟨-, ht'⟩ | ⟨rfl, -⟩ := of_cons hs'
      · exact (ih ht' hrest).imp (congrArg _) id
      · exact absurd hc (by decide)
  | @nested k inner t _ _ ihinner iht =>
    cases s' with
    | nil => exact absurd (List.cons.inj h).1 (by decide)
    | cons d s' =>
      rw [List.cons_append, List.cons_append, List.append_assoc] at h
      obtain ⟨rfl, hrest⟩ := List.cons.inj h
      obtain ⟨hc, -⟩ | ⟨-, l, inner', u, -, hinner', hu, rfl⟩ := of_cons hs'
      · exact absurd hc (by decide)
      · have hinside : inner ++ ')' :: (t ++ ')' :: r) = inner' ++ ')' :: (u ++ ')' :: r') := by
          simpa using hrest
        obtain ⟨rfl, hbehind⟩ := ihinner hinner' hinside
        obtain ⟨rfl, rfl⟩ := iht hu hbehind
        exact ⟨rfl, rfl⟩

/-- **A bracket that opens is closed in the text.** -/
theorem closes {before : Text} (h : Balanced n (before ++ '(' :: t)) : Closes t := by
  generalize hs : before ++ '(' :: t = s at h
  induction h generalizing before t with
  | nil => simp at hs
  | plain hc _ ih =>
    cases before with
    | nil => exact absurd hc (by rw [← (List.cons.inj hs).1]; decide)
    | cons c before => exact ih (List.cons.inj hs).2
  | @nested k inner t' hinner _ ihinner iht =>
    cases before with
    | nil => exact ⟨k, inner, t', hinner, (List.cons.inj hs).2⟩
    | cons c before =>
      rcases List.append_eq_append_iff.1 (List.cons.inj hs).2 with ⟨a, ha, hb⟩ | ⟨a, ha, hb⟩
      · -- the bracket stands between the first one and the one that closes it
        cases a with
        | nil => exact absurd (List.cons.inj hb).1 (by decide)
        | cons d a =>
          obtain ⟨rfl, rfl⟩ := List.cons.inj hb
          obtain ⟨l, i, r, hi, rfl⟩ := ihinner ha.symm
          exact ⟨l, i, r ++ ')' :: t', hi, by simp⟩
      · cases a with
        | nil => exact absurd (List.cons.inj hb).1 (by decide)
        | cons d a => exact iht (List.cons.inj hb).2.symm

/-- What stands behind a text in which brackets match is such a text if both together are. -/
theorem of_append (hs : Balanced m s) (h : Balanced n (s ++ t)) : Balanced n t := by
  induction hs with
  | nil => exact h
  | plain hc _ ih =>
    obtain ⟨-, h⟩ | ⟨rfl, -⟩ := of_cons h
    · exact ih h
    · exact absurd hc (by decide)
  | nested hinner _ _ ih =>
    rw [List.cons_append, List.cons_append, List.append_assoc] at h
    obtain ⟨hc, -⟩ | ⟨-, k, inner', rest, -, hinner', hrest, he⟩ := of_cons h
    · exact absurd hc (by decide)
    · obtain ⟨-, rfl⟩ := closing_unique hinner hinner' he
      exact ih hrest

end Balanced

/-! ### What is found as a call -/

/-- **Arguments are read to the bracket that closes the call,** if brackets stand inside no others. -/
theorem arguments?_append (h : Balanced 1 inner) (rest : Text) :
    arguments? (inner ++ ')' :: rest) = some (inner ++ [')'], rest) := by
  generalize hn : 1 = n at h
  induction h with
  | nil => rw [List.nil_append, arguments?, if_pos rfl, List.nil_append]
  | @plain k c t hc _ ih =>
    have hround := not_or.1 (by simpa [isRound] using hc : ¬ (c = '(' ∨ c = ')'))
    rw [List.cons_append, arguments?, if_neg hround.2, if_neg hround.1, ih hn]
    rfl
  | @nested k inner t hinner _ _ ih =>
    obtain rfl : k = 0 := by omega
    have hplain := hinner.plain_of_zero
    have htake : (inner ++ ')' :: (t ++ ')' :: rest)).takeWhile (!isRound ·) = inner := by
      rw [List.takeWhile_append_of_pos (by simpa using hplain)]
      simp [isRound]
    have hdrop : (inner ++ ')' :: (t ++ ')' :: rest)).dropWhile (!isRound ·) = ')' :: (t ++ ')' :: rest) := by
      rw [List.dropWhile_append_of_pos (by simpa using hplain)]
      simp [isRound]
    rw [List.append_assoc, List.cons_append, List.cons_append, arguments?, if_neg (by decide), if_pos rfl,
      hdrop]
    have hlength : (t ++ ')' :: rest).length ≤ (inner ++ ')' :: (t ++ ')' :: rest)).length := by
      simp only [List.length_append, List.length_cons]
      omega
    simp only [htake, ih hn, true_and, if_pos hlength, Option.map_some]
    simp

/-- The arguments that are read are shallow, and the closing bracket ends them. -/
theorem arguments?_eq_some {args rest : Text} (h : arguments? t = some (args, rest)) :
    ∃ inner, Balanced 1 inner ∧ args = inner ++ [')'] ∧ t = args ++ rest := by
  fun_induction arguments? t generalizing args rest with
  | case1 => simp at h
  | case2 t =>
    obtain ⟨rfl, rfl⟩ := Prod.mk.inj (Option.some.inj h)
    exact ⟨[], .nil, rfl, rfl⟩
  | case3 t d rest' hd hclose _ ih =>
    obtain ⟨⟨more, after⟩, hm, he⟩ := Option.map_eq_some_iff.1 h
    obtain ⟨rfl, rfl⟩ := Prod.mk.inj he
    obtain ⟨inner, hinner, rfl, hrest⟩ := ih hm
    obtain ⟨rfl, -⟩ := hclose
    refine ⟨'(' :: t.takeWhile (!isRound ·) ++ ')' :: inner, .nested ?_ hinner, by simp, ?_⟩
    · exact Balanced.of_plain fun c hc => by simpa using List.mem_takeWhile_imp hc
    · calc '(' :: t = '(' :: (t.takeWhile (!isRound ·) ++ t.dropWhile (!isRound ·)) := by
            rw [List.takeWhile_append_dropWhile]
        _ = _ := by rw [hd, hrest]; simp
  | case4 => simp at h
  | case5 => simp at h
  | case6 c t hclose hopen ih =>
    obtain ⟨⟨more, after⟩, hm, he⟩ := Option.map_eq_some_iff.1 h
    obtain ⟨rfl, rfl⟩ := Prod.mk.inj he
    obtain ⟨inner, hinner, rfl, rfl⟩ := ih hm
    exact ⟨c :: inner, .plain (not_isRound_of_ne hopen hclose) hinner, rfl, rfl⟩

/-- **What is found as a call** is a whole one in whose arguments brackets stand inside no others. -/
theorem call?_eq_some {rest : Text} : call? t = some (call, rest) ↔ IsShallow call ∧ t = call ++ rest := by
  constructor
  · intro h
    obtain ⟨behind, hb, h⟩ := Option.bind_eq_some_iff.1 h
    obtain ⟨⟨args, rest'⟩, ha, h⟩ := Option.bind_eq_some_iff.1 h
    obtain ⟨rfl, rfl⟩ := Prod.mk.inj (Option.some.inj h)
    obtain ⟨inner, hinner, rfl, rfl⟩ := arguments?_eq_some ha
    exact ⟨⟨inner, hinner, by simp⟩, by rw [dropPrefix?_eq_some.1 hb]; simp⟩
  · rintro ⟨⟨inner, hinner, rfl⟩, rfl⟩
    have hb : dropPrefix? opening (opening ++ inner ++ [')'] ++ rest) = some (inner ++ ')' :: rest) :=
      dropPrefix?_eq_some.2 (by simp)
    rw [call?, hb]
    simp [arguments?_append hinner]

/-! ### Texts that are searched one after the other -/

/-- A call begins with its word and a bracket. -/
theorem opening_eq : opening = ['f', 'a', 'd', 'e'] ++ ['('] := rfl

/-- A text that closes a bracket closes it whatever follows. -/
theorem Closes.append (h : Closes s) (t : Text) : Closes (s ++ t) := by
  obtain ⟨n, inner, rest, hinner, rfl⟩ := h
  exact ⟨n, inner, rest ++ t, hinner, by simp⟩

/-- In a text in which brackets match, every call ends. -/
theorem Balanced.closed (h : Balanced n t) : Closed t := by
  rintro before behind rfl
  rw [opening_eq, ← List.append_assoc, List.append_assoc, List.singleton_append] at h
  exact h.closes

/-- In a text without opening brackets, every call ends. -/
theorem closed_of_notMem (h : '(' ∉ t) : Closed t := by
  rintro before behind rfl
  simp [opening_eq] at h

/-- A call that begins in the first of two texts that are clear of each other has its first bracket there. -/
theorem Clear.opening_eq_append (h : Clear s t) {front kept behind : Text} (hs : s = front ++ kept)
    (hne : kept ≠ []) (hb : kept ++ t = opening ++ behind) :
    ∃ u, kept = opening ++ u ∧ u ++ t = behind := by
  rcases List.append_eq_append_iff.1 hb with ⟨lost, ho, ht⟩ | ⟨u, hk, hu⟩
  · obtain rfl := h front kept lost behind hs hne ho ht
    exact ⟨[], by simpa using ho.symm, by simpa using ht⟩
  · exact ⟨u, hk, hu.symm⟩

/-- **A call that begins in a closed text ends in it.** -/
theorem Closed.call_eq_append (hs : Closed s) (hc : Clear s t) (hcall : IsWhole call)
    {front kept rest : Text} (hf : s = front ++ kept) (hne : kept ≠ []) (h : kept ++ t = call ++ rest) :
    ∃ u, kept = call ++ u ∧ u ++ t = rest := by
  obtain ⟨n, inner, hinner, rfl⟩ := hcall
  rw [List.append_assoc, List.append_assoc] at h
  obtain ⟨u, rfl, hu⟩ := hc.opening_eq_append hf hne h
  obtain ⟨m, inner', rest', hinner', rfl⟩ := hs front u (by rw [hf, List.append_assoc])
  rw [List.append_assoc, List.cons_append, List.singleton_append] at hu
  obtain ⟨rfl, rfl⟩ := hinner'.closing_unique hinner hu
  exact ⟨rest', by simp, rfl⟩

/-- In the end of a text in which every call ends, every call ends. -/
theorem Closed.of_append (h : Closed (s ++ t)) : Closed t := by
  rintro before behind rfl
  exact h (s ++ before) behind (by simp)

/-- In two texts that are clear of each other, every call ends if it does in each. -/
theorem Closed.append (hs : Closed s) (ht : Closed t) (hc : Clear s t) : Closed (s ++ t) := by
  intro before behind h
  rw [List.append_assoc] at h
  rcases List.append_eq_append_iff.1 h with ⟨a, rfl, ha⟩ | ⟨kept, hk, hb⟩
  · exact ht a behind (by rw [ha, List.append_assoc])
  · by_cases hne : kept = []
    · subst hne
      exact ht [] behind (by simpa using hb.symm)
    · obtain ⟨u, rfl, rfl⟩ := hc.opening_eq_append hk hne hb.symm
      exact (hs before u (by rw [hk, List.append_assoc])).append t

/-- A text is clear of one that does not go on with the letters of `fade(` behind the first. -/
theorem clear_of_head (h : ∀ c u, t = c :: u → c ∉ ['a', 'd', 'e', '(']) : Clear s t := by
  rintro front kept lost behind - hne ho rfl
  obtain ⟨d, kept, rfl⟩ := List.exists_cons_of_ne_nil hne
  cases lost with
  | nil => rfl
  | cons c lost =>
    have hlost : ['a', 'd', 'e', '('] = kept ++ c :: lost := (List.cons.inj ho).2
    exact absurd (by rw [hlost]; simp) (h c _ rfl)

/-- A text is clear of what begins with a closing bracket. -/
theorem clear_cons_closing (s t : Text) : Clear s (')' :: t) := by
  refine clear_of_head fun c u hc => ?_
  obtain rfl : ')' = c := (List.cons.inj hc).1
  decide

/-- A text that ends with a bracket is clear of all others. -/
theorem clear_of_closing : Clear (s ++ [')']) t := by
  rintro front kept lost behind hs hne ho -
  have hlast : kept.getLast? = some ')' := by
    rw [← List.getLast?_append_of_ne_nil front hne, ← hs, List.getLast?_concat]
  have hmem : ')' ∈ opening := ho ▸ List.mem_append_left _ (List.mem_of_getLast? hlast)
  exact absurd hmem (by decide)

end Fade
end ThemeSheet
