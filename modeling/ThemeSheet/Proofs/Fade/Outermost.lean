/-
# Calls that stand inside no other call

Where brackets match, the search reaches every call that stands inside no other one.  It
finds the call whole if brackets in its arguments stand inside no others; if they do, it
finds nothing there and goes on inside, so only the calls in the arguments are found.

A call that has a color gives way to it as a whole, and the text before it and the text
behind it are treated as if they stood alone, unless a color ends in letters that
complete the beginning of a call behind it.
-/

import ThemeSheet.Proofs.Fade.RoundTrip
import ThemeSheet.Proofs.Fade.Sentinel

namespace ThemeSheet
namespace Fade

open Text

variable {m n : Nat} {s t call color before after inner : Text}

/-- **No other call has the call inside it.** -/
def Outermost (before call after : Text) : Prop :=
  ∀ front outer inner behind, before = front ++ outer → after = inner ++ behind →
    IsWhole (outer ++ call ++ inner) → outer = [] ∧ inner = []

/-- **Does the color end in letters that begin a call with letters that stand behind a bracket?** -/
def Completes (color t : Text) : Prop :=
  ∃ kept lost rest, color = kept ++ lost ∧ lost ≠ [] ∧ opening = lost ++ rest ∧ ')' :: rest <:+: t

/-! ### Whole calls -/

/-- A shallow call is whole. -/
theorem IsShallow.isWhole (h : IsShallow call) : IsWhole call := ⟨1, h⟩

/-- A whole call ends with a closing bracket. -/
theorem IsWhole.eq_append (h : IsWhole call) : ∃ front, call = front ++ [')'] := by
  obtain ⟨n, inner, -, rfl⟩ := h
  exact ⟨_, rfl⟩

/-- A whole call is not empty. -/
theorem IsWhole.ne_nil (h : IsWhole call) : call ≠ [] := by
  obtain ⟨front, rfl⟩ := h.eq_append
  simp

/-- A call with balanced arguments is balanced, one level deeper. -/
theorem balanced_call (h : Balanced n inner) : Balanced (n + 1) (opening ++ inner ++ [')']) := by
  rw [opening_eq, List.append_assoc, List.append_assoc]
  exact (Balanced.of_plain (by decide)).append (.nested h .nil)

/-- In a whole call, brackets match. -/
theorem IsWhole.balanced (h : IsWhole call) : ∃ n, Balanced n call := by
  obtain ⟨n, inner, hinner, rfl⟩ := h
  exact ⟨n + 1, balanced_call hinner⟩

/-- A whole call ends in itself. -/
theorem IsWhole.closed (h : IsWhole call) : Closed call := by
  obtain ⟨n, hn⟩ := h.balanced
  exact hn.closed

/-- No call begins with the end of a whole call. -/
theorem IsWhole.clear (h : IsWhole call) (t : Text) : Clear call t := by
  obtain ⟨front, rfl⟩ := h.eq_append
  exact clear_of_closing

/-- Text is clear of a call, since the letters behind the first one of `fade(` are other ones. -/
theorem IsWhole.clear_append (h : IsWhole call) (s t : Text) : Clear s (call ++ t) := by
  obtain ⟨n, inner, -, rfl⟩ := h
  refine clear_of_head fun c u hc => ?_
  obtain rfl : 'f' = c := (List.cons.inj hc).1
  decide

/-- A pass for a call leaves text alone in which no call can begin. -/
theorem IsWhole.replaceAll_skip (h : IsWhole call) {p : Text} (hp : 'f' ∉ p) (new t : Text) :
    replaceAll call new (p ++ t) = p ++ replaceAll call new t := by
  obtain ⟨n, inner, -, rfl⟩ := h
  refine replaceMatches_skip fun c hc u => ?_
  have hne : 'f' ≠ c := fun he => hp (he ▸ hc)
  simp [opening, dropPrefix?, hne]

/-- A whole call does not begin with a closing bracket. -/
theorem IsWhole.replaceAll_closing (h : IsWhole call) (new t : Text) :
    replaceAll call new (')' :: t) = ')' :: replaceAll call new t := by
  have hp : 'f' ∉ [')'] := by decide
  exact h.replaceAll_skip hp new t

/-- A call stands inside no other one if no call begins before it. -/
theorem outermost_of_notMem (h : 'f' ∉ before) (hcall : IsWhole call) : Outermost before call after := by
  rintro front outer y behind rfl rfl ⟨m, i, hi, he⟩
  cases outer with
  | cons c outer =>
    obtain rfl : c = 'f' := (List.cons.inj he).1
    simp at h
  | nil =>
    obtain ⟨n, inner, hinner, rfl⟩ := hcall
    have hunique : inner ++ ')' :: y = i ++ ')' :: [] := by
      simpa only [List.nil_append, List.append_assoc, List.append_cancel_left_eq,
        List.singleton_append] using he
    exact ⟨rfl, (hinner.closing_unique hi hunique).2⟩

/-! ### Searching one text after the other -/

/-- The matcher of calls finds in a closed text what it finds there alone, if it is clear of what follows. -/
theorem seesApart_call? (hs : Closed s) (hc : Clear s t) : SeesApart call? s t := by
  intro front kept hf hne
  refine Option.ext fun ⟨found, rest⟩ => ?_
  rw [call?_eq_some, Option.map_eq_some_iff]
  constructor
  · rintro ⟨hcall, hk⟩
    obtain ⟨u, rfl, rfl⟩ := hs.call_eq_append hc hcall.isWhole hf hne hk
    exact ⟨(found, u), call?_eq_some.2 ⟨hcall, rfl⟩, rfl⟩
  · rintro ⟨⟨found', u⟩, hu, he⟩
    obtain ⟨rfl, rfl⟩ := Prod.mk.inj he
    obtain ⟨hcall, rfl⟩ := call?_eq_some.1 hu
    exact ⟨hcall, List.append_assoc ..⟩

/-- The calls of two texts that are clear of each other are those of the one and those of the other. -/
theorem calls_append (hs : Closed s) (hc : Clear s t) : calls (s ++ t) = calls s ++ calls t :=
  allMatches_append_of_apart (fun _ x _ h => ⟨x, (call?_eq_some.1 h).2⟩) (seesApart_call? hs hc)

/-- A whole call is replaced in either of two texts that are clear of each other. -/
theorem replaceAll_append (hs : Closed s) (hc : Clear s t) (hcall : IsWhole call) (new : Text) :
    replaceAll call new (s ++ t) = replaceAll call new s ++ replaceAll call new t := by
  refine replaceMatches_append_of_apart ?_ fun front kept hf hne => ?_
  · intro u x r h
    obtain ⟨r', hr, he⟩ := Option.map_eq_some_iff.1 h
    obtain ⟨rfl, rfl⟩ := Prod.mk.inj he
    exact ⟨call, dropPrefix?_eq_some.1 hr⟩
  · cases hk : dropPrefix? call kept with
    | some u =>
      have hkt : dropPrefix? call (kept ++ t) = some (u ++ t) :=
        dropPrefix?_eq_some.2 (by rw [dropPrefix?_eq_some.1 hk, List.append_assoc])
      rw [hkt]
      rfl
    | none =>
      have hkt : dropPrefix? call (kept ++ t) = none := by
        refine Option.eq_none_iff_forall_ne_some.2 fun rest hr => ?_
        obtain ⟨u, rfl, -⟩ := hs.call_eq_append hc hcall hf hne (dropPrefix?_eq_some.1 hr)
        rw [dropPrefix?_eq_some.2 rfl] at hk
        exact Option.some_ne_none _ hk
      rw [hkt]
      rfl

/-! ### What is found of a call -/

/-- The empty text holds no call. -/
theorem calls_nil : calls [] = [] := by
  rw [calls, allMatches]

/-- Where no call begins, the calls are those behind the character. -/
theorem calls_cons {c : Char} (h : call? (c :: t) = none) : calls (c :: t) = calls t := by
  rw [calls, allMatches, h]
  rfl

/-- No call is found in text in which none can begin. -/
theorem calls_skip {p : Text} (hp : 'f' ∉ p) (t : Text) : calls (p ++ t) = calls t := by
  induction p with
  | nil => rfl
  | cons c p ih =>
    rw [List.mem_cons, not_or] at hp
    have hnone : call? (c :: (p ++ t)) = none := by simp [call?, opening, dropPrefix?, hp.1]
    rw [List.cons_append, calls_cons hnone, ih hp.2]

/-- A call in whose arguments brackets stand inside no others is found. -/
theorem IsShallow.calls_eq (h : IsShallow call) : calls call = [call] := by
  have hfound : call? call = some (call, []) := call?_eq_some.2 ⟨h, (List.append_nil _).symm⟩
  obtain ⟨c, u, rfl⟩ := List.exists_cons_of_ne_nil h.isWhole.ne_nil
  rw [calls, allMatches, hfound]
  simp [allMatches]

/-- **Of a deeper call, the calls in its arguments are found.** -/
theorem calls_of_not_isShallow (hcall : IsWhole (opening ++ inner ++ [')']))
    (h : ¬ IsShallow (opening ++ inner ++ [')'])) : calls (opening ++ inner ++ [')']) = calls inner := by
  obtain ⟨n, inner', hinner, he⟩ := hcall
  obtain rfl : inner = inner' := List.append_cancel_left (List.append_cancel_right he)
  have hhead : call? (opening ++ inner ++ [')']) = none := by
    refine Option.eq_none_iff_forall_ne_some.2 fun ⟨found, rest⟩ hf => h ?_
    obtain ⟨⟨i, hi, rfl⟩, hr⟩ := call?_eq_some.1 hf
    simp only [List.append_assoc, List.singleton_append] at hr
    obtain ⟨rfl, -⟩ := hinner.closing_unique hi (List.append_cancel_left hr)
    exact ⟨inner, hi, rfl⟩
  have hletters : opening ++ inner ++ [')'] = 'f' :: (['a', 'd', 'e', '('] ++ (inner ++ [')'])) := by
    simp [opening]
  rw [hletters] at hhead ⊢
  rw [calls_cons hhead, calls_skip (by decide), calls_append hinner.closed (clear_cons_closing _ _),
    ← List.append_nil [')'], calls_skip (by decide), calls_nil, List.append_nil]

/-- What stands before a bracket of a call leaves the call open, whatever stands before it. -/
theorem IsWhole.not_balanced_append (hcall : IsWhole (s ++ ')' :: t)) (before : Text) :
    ¬ Balanced n (before ++ s) := by
  intro h
  obtain ⟨m, i, hi, he⟩ := hcall
  obtain ⟨u, rfl, hu⟩ : ∃ u, s = opening ++ u ∧ i ++ [')'] = u ++ ')' :: t := by
    rw [List.append_assoc] at he
    rcases List.append_eq_append_iff.1 he with ⟨a, ho, ha⟩ | ⟨u, hs, hu⟩
    · cases a with
      | nil => exact ⟨[], by simpa using ho.symm, ha.symm⟩
      | cons d a =>
        have hmem : ')' ∈ opening := by rw [ho, (List.cons.inj ha).1]; simp
        exact absurd hmem (by decide)
    · exact ⟨u, hs, hu⟩
  obtain ⟨k, i', r, hi', rfl⟩ := h.closed before u (List.append_assoc ..).symm
  rw [List.append_assoc, List.cons_append] at hu
  exact absurd (hi.closing_unique hi' hu).2 (by simp)

/-- **Every call before an outermost one ends before it.** -/
theorem Outermost.closed (h : Outermost before call after) (hsource : Balanced n (before ++ call ++ after))
    (hcall : IsWhole call) : Closed before := by
  rintro front behind rfl
  obtain ⟨m, i, rest, hi, he⟩ := hsource.closed front (behind ++ call ++ after) (by simp)
  have hend : behind ++ (call ++ after) = (i ++ [')']) ++ rest := by simpa using he
  rcases append_eq_append_cases hend with ⟨v, rfl⟩ | ⟨w, hw, hiw, hca⟩
  · have hb : behind = i ++ [')'] ++ v :=
      List.append_cancel_right (hend.trans (List.append_assoc ..).symm)
    exact ⟨m, i, v, hi, by simpa using hb⟩
  · -- the bracket that closes the earlier call stands in the call or behind it
    rcases append_eq_append_cases hca with ⟨v, rfl⟩ | ⟨y, -, rfl, hy⟩
    · obtain ⟨w, last, rfl⟩ := List.eq_nil_or_concat w |>.resolve_left hw
      rw [List.concat_eq_append, ← List.append_assoc] at hiw
      obtain ⟨rfl, hlast⟩ := List.append_inj' hiw rfl
      obtain rfl := (List.cons.inj hlast).1
      have hc : call = w ++ ')' :: v := List.append_cancel_right (hca.trans (by simp))
      exact absurd hi (IsWhole.not_balanced_append (hc ▸ hcall) behind)
    · refine absurd (h front (opening ++ behind) y rest (by simp) hy ⟨m, i, hi, ?_⟩).1 (by simp [opening])
      rw [List.append_assoc opening i, hiw]
      simp

/-! ### One pass -/

section Pass

variable {new w : Text} (hcall : IsWhole call) (hnew : Color.isSixDigit new = true)

include hnew in
/-- A color holds the number sign and hexadecimal digits only. -/
theorem notMem_color {c : Char} (hhash : c ≠ '#') (hc : isHexDigit c = false) : c ∉ new := by
  obtain ⟨ds, rfl, -, hds⟩ := Color.isSixDigit_iff.1 hnew
  intro hmem
  rcases List.mem_cons.1 hmem with rfl | hmem
  · exact hhash rfl
  · rw [hds c hmem] at hc
    exact Bool.noConfusion hc

/-- What begins with a character that the first of two texts lacks stands in the second one. -/
theorem infix_of_infix_append {x : Char} (hx : x ∉ s) (h : x :: w <:+: s ++ t) : x :: w <:+: t := by
  induction s with
  | nil => exact h
  | cons c s ih =>
    rw [List.mem_cons, not_or] at hx
    rcases List.infix_cons_iff.1 h with ⟨r, hr⟩ | h
    · exact absurd (List.cons.inj hr).1 hx.1
    · exact ih hx.2 h

include hcall hnew

/-- Where a pass leaves letters in front, they stood there: a color begins with a number sign. -/
theorem prefix_of_replaceAll (hw : '#' ∉ w) (h : w <+: replaceAll call new t) : w <+: t := by
  obtain ⟨ds, rfl, -⟩ := Color.isSixDigit_iff.1 hnew
  exact replaceAll_prefix hcall.ne_nil hw h

/-- Where a pass leaves letters behind a bracket, they stood there. -/
theorem infix_of_replaceAll (hw : '#' ∉ w) (h : ')' :: w <:+: replaceAll call new t) : ')' :: w <:+: t := by
  revert h
  refine replaceAll_induction hcall.ne_nil (p := fun t u => ')' :: w <:+: u → ')' :: w <:+: t)
    (fun h => h) (fun t ih h => ?_) (fun c t hd ih h => ?_) t
  · have hbehind := infix_of_infix_append (notMem_color hnew (by decide) (by decide)) h
    exact (ih hbehind).trans (List.suffix_append ..).isInfix
  · rcases List.infix_cons_iff.1 h with hp | hi
    · rw [← replaceAll_cons hd] at hp
      exact (prefix_of_replaceAll hcall hnew (by simpa using hw) hp).isInfix
    · exact List.infix_cons (ih hi)

omit hcall hnew in
/-- A color that completes a call in a part of a text completes one in the text. -/
theorem Completes.mono (h : Completes color s) (hs : s <:+: t) : Completes color t := by
  obtain ⟨kept, lost, rest, hcolor, hne, ho, hi⟩ := h
  exact ⟨kept, lost, rest, hcolor, hne, ho, hi.trans hs⟩

/-- A pass brings no letters together that complete the beginning of a call. -/
theorem Completes.of_replaceAll (h : Completes color (replaceAll call new t)) : Completes color t := by
  obtain ⟨kept, lost, rest, hcolor, hne, ho, hi⟩ := h
  have hhash : '#' ∉ rest := fun hm => absurd (ho ▸ List.mem_append_right _ hm : '#' ∈ opening) (by decide)
  exact ⟨kept, lost, rest, hcolor, hne, ho, infix_of_replaceAll hcall hnew hhash hi⟩

omit hcall hnew in
/-- A color without the letter f completes no call. -/
theorem not_completes_of_notMem (h : 'f' ∉ color) : ¬ Completes color t := by
  rintro ⟨kept, lost, rest, rfl, hne, ho, -⟩
  obtain ⟨c, lost, rfl⟩ := List.exists_cons_of_ne_nil hne
  obtain rfl : 'f' = c := (List.cons.inj ho).1
  exact h (by simp)

omit hcall hnew in
/-- A color that completes no call is clear of the text behind it. -/
theorem clear_of_not_completes (h : ¬ Completes color (')' :: t)) : Clear color t := by
  rintro front kept lost behind rfl hne ho rfl
  exact absurd ⟨front, kept, lost, rfl, hne, ho, ⟨[], behind, rfl⟩⟩ h

/-- **A pass leaves matching brackets matching.** -/
theorem balanced_replaceAll (h : Balanced n t) : Balanced n (replaceAll call new t) := by
  obtain ⟨m, hbalanced⟩ := hcall.balanced
  have hplain : ∀ c ∈ new, isRound c = false := fun c hc => not_isRound_of_ne
    (fun he => notMem_color hnew (by decide) (by decide) (he ▸ hc))
    (fun he => notMem_color hnew (by decide) (by decide) (he ▸ hc))
  induction hlen : t.length using Nat.strongRecOn generalizing n t with
  | _ k ih =>
    subst hlen
    cases t with
    | nil => simpa [replaceAll, replaceMatches] using h
    | cons c t =>
      cases hd : dropPrefix? call (c :: t) with
      | some rest =>
        have he := dropPrefix?_eq_some.1 hd
        have hlen := congrArg List.length he
        have hpos := List.length_pos_iff.2 hcall.ne_nil
        rw [he, replaceAll_whole _ _ hcall.ne_nil]
        exact (Balanced.of_plain hplain).append
          (ih rest.length (by rw [hlen, List.length_append]; omega) (hbalanced.of_append (he ▸ h)) rfl)
      | none =>
        rw [replaceAll_cons hd]
        obtain ⟨hc, ht⟩ | ⟨rfl, l, inner, rest, rfl, hinner, hrest, rfl⟩ := h.of_cons
        · exact .plain hc (ih t.length (by simp) ht rfl)
        · rw [replaceAll_append hinner.closed (clear_cons_closing _ _) hcall, hcall.replaceAll_closing]
          have hlen : inner.length < ('(' :: (inner ++ ')' :: rest)).length ∧
              rest.length < ('(' :: (inner ++ ')' :: rest)).length := by
            simp only [List.length_cons, List.length_append]
            omega
          exact .nested (ih inner.length hlen.1 hinner rfl) (ih rest.length hlen.2 hrest rfl)

/-- **A pass leaves a closed text closed,** unless the color completes the beginning of a call. -/
theorem closed_replaceAll (h : Closed t) (hc : ¬ Completes new t) : Closed (replaceAll call new t) := by
  obtain ⟨front, hfront⟩ := hcall.eq_append
  revert h hc
  refine replaceAll_induction hcall.ne_nil (p := fun t u => Closed t → ¬ Completes new t → Closed u)
    (fun h _ => h) (fun t ih h hc => ?_) (fun c t hd ih h hc => ?_) t
  · have hbehind : ¬ Completes new (')' :: t) := fun hn => hc (hn.mono ⟨front, [], by rw [hfront]; simp⟩)
    have hclosed := ih h.of_append fun hn => hbehind (hn.mono (List.suffix_cons ..).isInfix)
    refine (closed_of_notMem (notMem_color hnew (by decide) (by decide))).append hclosed
      (clear_of_not_completes fun hn => hbehind (Completes.of_replaceAll hcall hnew ?_))
    rwa [hcall.replaceAll_closing]
  · intro before behind he
    cases before with
    | cons d before =>
      exact ih (h.of_append (s := [c])) (fun hn => hc (hn.mono (List.suffix_cons ..).isInfix)) before behind
        (List.cons.inj he).2
    | nil =>
      -- the call begins where one did before, and what closed that one closes it
      rw [List.nil_append] at he
      obtain ⟨u, hu⟩ : opening <+: c :: t := by
        refine prefix_of_replaceAll hcall hnew (by decide) ?_
        rw [replaceAll_cons hd, he]
        exact List.prefix_append ..
      obtain ⟨k, i, rest, hi, rfl⟩ := h [] u hu.symm
      have ht : t = ['a', 'd', 'e', '('] ++ (i ++ ')' :: rest) := (List.cons.inj hu).2.symm
      have hpass : replaceAll call new t = ['a', 'd', 'e', '('] ++
          (replaceAll call new i ++ ')' :: replaceAll call new rest) := by
        rw [ht, hcall.replaceAll_skip (by decide), replaceAll_append hi.closed (clear_cons_closing _ _) hcall,
          hcall.replaceAll_closing]
      rw [hpass, ← List.cons_append] at he
      exact ⟨k, _, _, balanced_replaceAll hcall hnew hi, (List.append_inj he rfl).2.symm⟩

omit hcall in
/-- Text is clear of a color, since no call goes on with a number sign. -/
theorem clear_color_append (s t : Text) : Clear s (new ++ t) := by
  obtain ⟨ds, rfl, -⟩ := Color.isSixDigit_iff.1 hnew
  refine clear_of_head fun c u hc => ?_
  obtain rfl : '#' = c := (List.cons.inj hc).1
  decide

/-- No call stands in a color. -/
theorem not_infix_color : ¬ call <:+: new := by
  obtain ⟨front, rfl⟩ := hcall.eq_append
  intro hin
  have hclosing : ')' ∈ new := hin.subset (List.mem_append_right front (List.mem_singleton_self ')'))
  exact notMem_color hnew (by decide) (by decide) hclosing

end Pass

/-! ### All passes -/

/-- **Text before and behind a place that passes do not reach over:** calls end in the one, and no color
completes the beginning of a call in either or right behind the place. -/
structure Beside (colors : List Text) (before after : Text) : Prop where
  closed : Closed before
  before : ∀ color ∈ colors, ¬ Completes color before
  after : ∀ color ∈ colors, ¬ Completes color (')' :: after)

namespace Beside

variable {colors : List Text} {new middle : Text} {pairs : List (Text × Text)}

/-- What no color completes in a source, none completes on either side of a call of it. -/
theorem of_call (hbefore : Closed before) (hcall : IsWhole call)
    (h : ∀ color ∈ colors, ¬ Completes color (before ++ call ++ after)) : Beside colors before after := by
  obtain ⟨front, rfl⟩ := hcall.eq_append
  refine ⟨hbefore, fun color hc hn => h color hc (hn.mono ?_), fun color hc hn => h color hc (hn.mono ?_)⟩
  · exact ⟨[], front ++ [')'] ++ after, by simp⟩
  · exact ⟨before ++ front, [], by simp⟩

/-- Replacing a call by a color on both sides leaves a place that passes do not reach over. -/
theorem replaceAll (h : Beside colors before after) (hcall : IsWhole call)
    (hnew : Color.isSixDigit new = true) (hm : new ∈ colors) :
    Beside colors (replaceAll call new before) (Text.replaceAll call new after) where
  closed := closed_replaceAll hcall hnew h.closed (h.before new hm)
  before := fun color hc hn => h.before color hc (hn.of_replaceAll hcall hnew)
  after := fun color hc hn => h.after color hc <| Completes.of_replaceAll hcall hnew <| by
    rwa [hcall.replaceAll_closing]

/-- **Passes leave alone what stands between,** and treat the text on either side as if it stood alone. -/
theorem passes_eq (h : Beside colors before after) (hclosed : Closed middle)
    (hbefore : ∀ s t, Clear s (middle ++ t))
    (hafter : ∀ t, (∀ color ∈ colors, ¬ Completes color (')' :: t)) → Clear middle t)
    (hp : ∀ e ∈ pairs, IsWhole e.1 ∧ Color.isSixDigit e.2 = true ∧ e.2 ∈ colors ∧ ¬ e.1 <:+: middle) :
    passes pairs (before ++ middle ++ after) = passes pairs before ++ middle ++ passes pairs after ∧
      Beside colors (passes pairs before) (passes pairs after) := by
  induction pairs generalizing before after with
  | nil => exact ⟨rfl, h⟩
  | cons e pairs ih =>
    obtain ⟨hcall, hnew, hm, hmiddle⟩ := hp e (List.mem_cons_self ..)
    have hpass : Text.replaceAll e.1 e.2 (before ++ middle ++ after) =
        Text.replaceAll e.1 e.2 before ++ middle ++ Text.replaceAll e.1 e.2 after := by
      rw [List.append_assoc, replaceAll_append h.closed (hbefore _ _) hcall,
        replaceAll_append hclosed (hafter _ h.after) hcall, replaceAll_eq_self hmiddle, List.append_assoc]
    obtain ⟨heq, hbeside⟩ := ih (h.replaceAll hcall hnew hm) fun e' he' => hp e' (List.mem_cons_of_mem _ he')
    refine ⟨?_, hbeside⟩
    rw [passes, List.foldl_cons, hpass]
    exact heq

/-- **A call gives way to its color as a whole,** and the text on either side is treated as if it stood
alone, if no shorter call has its turn before. -/
theorem passes_call {first rest : List (Text × Text)} (h : Beside colors before after)
    (hp : ∀ e ∈ first ++ (call, color) :: rest, IsWhole e.1 ∧ Color.isSixDigit e.2 = true ∧ e.2 ∈ colors)
    (hfirst : ∀ e ∈ first, e.1 ≠ call ∧ call.length ≤ e.1.length) :
    passes (first ++ (call, color) :: rest) (before ++ call ++ after) =
      passes (first ++ (call, color) :: rest) before ++ color ++
        passes (first ++ (call, color) :: rest) after := by
  obtain ⟨hcall, hcolor, hm⟩ : IsWhole call ∧ Color.isSixDigit color = true ∧ color ∈ colors :=
    hp (call, color) (by simp)
  -- a longer call does not stand in the call
  obtain ⟨heq, hbeside⟩ : passes first (before ++ call ++ after) = passes first before ++ call ++
      passes first after ∧ Beside colors (passes first before) (passes first after) := by
    refine h.passes_eq hcall.closed hcall.clear_append (fun t _ => hcall.clear t) fun e he => ?_
    obtain ⟨hw, hsix, hmem⟩ := hp e (List.mem_append_left _ he)
    refine ⟨hw, hsix, hmem, fun hin => (hfirst e he).1 ?_⟩
    exact hin.eq_of_length (Nat.le_antisymm hin.length_le (hfirst e he).2)
  have hpass (s t : Text) (hs : Closed s) : Text.replaceAll call color (s ++ call ++ t) =
      Text.replaceAll call color s ++ color ++ Text.replaceAll call color t := by
    rw [List.append_assoc, replaceAll_append hs (hcall.clear_append _ _) hcall,
      replaceAll_whole _ _ hcall.ne_nil, List.append_assoc]
  -- and no call stands in the color
  obtain ⟨heq', -⟩ := (hbeside.replaceAll hcall hcolor hm).passes_eq
    (closed_of_notMem (notMem_color hcolor (by decide) (by decide))) (clear_color_append hcolor)
    (fun t ht => clear_of_not_completes (ht color hm)) fun e (he : e ∈ rest) => by
      obtain ⟨hw, hsix, hmem⟩ := hp e (by simp [he])
      exact ⟨hw, hsix, hmem, not_infix_color hw hcolor⟩
  have hsplit (t : Text) : passes (first ++ (call, color) :: rest) t =
      passes rest (Text.replaceAll call color (passes first t)) := passes_append ..
  rw [hsplit, heq, hpass _ _ hbeside.closed, heq', ← hsplit, ← hsplit]

end Beside

end Fade

namespace FadeMap

open Text Fade

variable {d : Color.Draws} {reserved : List Text} {f : FadeMap} {n : Nat} {before call after color : Text}

/-- A call that has a color has its turn before all shorter ones. -/
theorem longestFirst_eq_append (f : FadeMap) (h : (call, color) ∈ f.sentinels.entries) :
    ∃ first rest, f.longestFirst = first ++ (call, color) :: rest ∧
      ∀ e ∈ first, e.1 ≠ call ∧ call.length ≤ e.1.length := by
  obtain ⟨first, rest, hsplit⟩ := List.append_of_mem (f.longestFirst_perm.mem_iff.2 h)
  have hkeys : (f.longestFirst.map Prod.fst).Nodup :=
    (f.longestFirst_perm.map _).nodup_iff.2 f.sentinels.nodup
  have hsorted : f.longestFirst.Pairwise fun a b => b.1.length ≤ a.1.length := by
    rw [longestFirst]
    refine (List.pairwise_mergeSort ?_ ?_ _).imp of_decide_eq_true
    · exact fun a b c hab hbc => decide_eq_true ((of_decide_eq_true hbc).trans (of_decide_eq_true hab))
    · exact fun a b => by simpa using Nat.le_total _ _
  rw [hsplit] at hkeys hsorted
  refine ⟨first, rest, hsplit, fun e he => ⟨fun heq => ?_, ?_⟩⟩
  · rw [List.map_append, List.nodup_append] at hkeys
    exact hkeys.2.2 _ (List.mem_map_of_mem he) _ (List.mem_map_of_mem (List.mem_cons_self ..)) heq
  · exact (List.pairwise_append.1 hsorted).2.2 e he _ (List.mem_cons_self ..)

/-- **A call that has a color gives way to it,** and the text on either side is treated as if it stood
alone. -/
theorem substitute_call {source : Text} (hf : (start d reserved).collect source = .ok f)
    (h : (call, color) ∈ f.sentinels.entries) (hbeside : Beside f.sentinels.values before after) :
    f.substitute (before ++ call ++ after) = f.substitute before ++ color ++ f.substitute after := by
  have hpairs : ∀ e ∈ f.longestFirst,
      IsWhole e.1 ∧ Color.isSixDigit e.2 = true ∧ e.2 ∈ f.sentinels.values := by
    intro e he
    have hmem := f.longestFirst_perm.mem_iff.1 he
    have hfound := ((mem_keys_collect hf).1 (List.mem_map_of_mem (f := Prod.fst) hmem)).1
    exact ⟨(of_mem_calls hfound).1.isWhole, ((sound_collect hf).color e hmem).six,
      List.mem_map_of_mem (f := Prod.snd) hmem⟩
  obtain ⟨first, rest, hsplit, hfirst⟩ := longestFirst_eq_append f h
  have hpasses := hbeside.passes_call (hsplit ▸ hpairs) hfirst
  rw [← hsplit] at hpasses
  exact hpasses

/-- **A call that stands inside no other one is given a color exactly if brackets in its arguments stand
inside no others.** Its color then takes its place, and the text on either side is treated as if it stood
alone, unless a color completes the beginning of a call.  Of a deeper call, only the calls in its arguments
are found. -/
theorem collect_outermost (d : Color.Draws) (reserved : List Text)
    (hsource : Balanced n (before ++ call ++ after)) (hcall : IsWhole call)
    (houter : Outermost before call after) (hdynamic : isStatic call = false) :
    (reserved.length + (Fade.calls (before ++ call ++ after)).length + 2 ≤ Color.total →
      ∃ f, (start d reserved).collect (before ++ call ++ after) = .ok f) ∧
    ∀ f, (start d reserved).collect (before ++ call ++ after) = .ok f →
      (call ∈ f.sentinels.keys ↔ IsShallow call) ∧
      (IsShallow call → (∀ color ∈ f.sentinels.values, ¬ Completes color (before ++ call ++ after)) →
        ∃ color, f.sentinels.get? call = some color ∧
          f.substitute (before ++ call ++ after) = f.substitute before ++ color ++ f.substitute after) ∧
      (¬ IsShallow call → ∀ inner, call = opening ++ inner ++ [')'] →
        Fade.calls (before ++ call ++ after) = Fade.calls before ++ Fade.calls inner ++ Fade.calls after) := by
  have hclosed := houter.closed hsource hcall
  have hcalls : Fade.calls (before ++ call ++ after) =
      Fade.calls before ++ Fade.calls call ++ Fade.calls after := by
    rw [List.append_assoc, calls_append hclosed (hcall.clear_append _ _),
      calls_append hcall.closed (hcall.clear _), List.append_assoc]
  refine ⟨exists_collect d reserved _, fun f hf => ?_⟩
  have hkeys : call ∈ f.sentinels.keys ↔ IsShallow call := by
    rw [mem_keys_collect hf]
    refine ⟨fun h => (of_mem_calls h.1).1, fun h => ⟨?_, hdynamic⟩⟩
    rw [hcalls, h.calls_eq]
    simp
  refine ⟨hkeys, fun hshallow hcompletes => ?_, fun hdeep inner hinner => ?_⟩
  · obtain ⟨e, he, rfl⟩ := List.mem_map.1 (hkeys.2 hshallow)
    exact ⟨e.2, (f.sentinels.mem_entries_iff).1 he,
      substitute_call hf he (.of_call hclosed hcall hcompletes)⟩
  · subst hinner
    rw [hcalls, calls_of_not_isShallow hcall hdeep]

/-- A call with a call of another function in its arguments. -/
def tinted : Text := "fade(tint(@a, 5%), 50%)".toList

/-- The call with a call of another function in it is shallow. -/
theorem isShallow_tinted : IsShallow tinted := by
  have harguments : Balanced 1 ("tint".toList ++ ('(' :: "@a, 5%".toList ++ ')' :: ", 50%".toList)) :=
    (Balanced.of_plain (by decide)).append
      (.nested (Balanced.of_plain (by decide)) (Balanced.of_plain (by decide)))
  exact ⟨_, harguments, by decide⟩

/-- In brackets, the call gets a color, and a pass replaces it and both sides by themselves. -/
theorem collect_outermost_tinted : ∃ f color,
    (start (.ofScript [0x123456]) []).collect (['('] ++ tinted ++ [')']) = .ok f ∧
      tinted ∈ f.sentinels.keys ∧ f.sentinels.get? tinted = some color ∧
      f.substitute (['('] ++ tinted ++ [')']) = f.substitute ['('] ++ color ++ f.substitute [')'] := by
  have hwhole := isShallow_tinted.isWhole
  have hsource : Balanced 3 (['('] ++ tinted ++ [')']) := by
    obtain ⟨inner, hinner, htinted⟩ := isShallow_tinted
    exact .nested (htinted ▸ balanced_call hinner) .nil
  obtain ⟨hexists, hall⟩ := collect_outermost (.ofScript [0x123456]) [] hsource hwhole
    (outermost_of_notMem (by decide) hwhole) (by decide)
  obtain ⟨f, hf⟩ := hexists (by decide +kernel)
  obtain ⟨hkeys, hshallow, -⟩ := hall f hf
  have hrun : ((start (.ofScript [0x123456]) []).collect (['('] ++ tinted ++ [')'])).toOption.any
      (·.sentinels.values == ["#123456".toList]) = true := by
    decide +kernel
  rw [hf] at hrun
  have hvalues : f.sentinels.values = ["#123456".toList] := by simpa [Except.toOption] using hrun
  have hcompletes : ∀ color ∈ f.sentinels.values, ¬ Completes color (['('] ++ tinted ++ [')']) := by
    rw [hvalues]
    intro color hcolor
    exact not_completes_of_notMem (List.mem_singleton.1 hcolor ▸ by decide)
  obtain ⟨color, hcolor, hsubstitute⟩ := hshallow isShallow_tinted hcompletes
  exact ⟨f, color, hf, hkeys.2 isShallow_tinted, hcolor, hsubstitute⟩

/-- A call with one in its arguments that stands in brackets of its own. -/
def nested : Text := "fade(tint(fade(@a, 10%), 5%), 20%)".toList

/-- The call with a bracket inside a bracket is `fade(` with balanced arguments. -/
theorem exists_balanced_nested :
    ∃ arguments, Balanced 2 arguments ∧ nested = opening ++ arguments ++ [')'] := by
  have hfade : Balanced 1 (opening ++ "@a, 10%".toList ++ [')'] ++ ", 5%".toList) :=
    (balanced_call (Balanced.of_plain (by decide))).append (Balanced.of_plain (by decide))
  have harguments : Balanced 2 ("tint".toList ++
      ('(' :: (opening ++ "@a, 10%".toList ++ [')'] ++ ", 5%".toList) ++ ')' :: ", 20%".toList)) :=
    (Balanced.of_plain (by decide)).append (.nested hfade (Balanced.of_plain (by decide)))
  exact ⟨_, harguments, by decide⟩

/-- **A call need not be given a color,** although it stands inside no other one. -/
theorem not_forall_collect_outermost :
    ¬ ∀ (d : Color.Draws) (reserved : List Text) (n : Nat) (before call after : Text) (f : FadeMap),
      Balanced n (before ++ call ++ after) → IsWhole call → Outermost before call after →
      isStatic call = false → (start d reserved).collect (before ++ call ++ after) = .ok f →
        call ∈ f.sentinels.keys ∧ ∃ color, f.sentinels.get? call = some color ∧
          f.substitute (before ++ call ++ after) = f.substitute before ++ color ++ f.substitute after := by
  intro hall
  obtain ⟨arguments, harguments, hnested⟩ := exists_balanced_nested
  have hwhole : IsWhole nested := ⟨2, arguments, harguments, hnested⟩
  have hsource : Balanced 3 ([] ++ nested ++ []) := by
    rw [List.nil_append, List.append_nil, hnested]
    exact balanced_call harguments
  obtain ⟨f, hf⟩ := exists_collect (.ofScript [0x123456]) [] ([] ++ nested ++ []) (by decide +kernel)
  obtain ⟨hkey, -⟩ := hall _ _ 3 [] nested [] f hsource hwhole
    (outermost_of_notMem List.not_mem_nil hwhole) (by decide) hf
  exact absurd ((mem_keys_collect hf).1 hkey).1 (by decide +kernel)

end FadeMap
end ThemeSheet
