/-
# Putting calls back in place of colors

A pass that puts one call back finds its color exactly where it stands whole: no
color is made of source text, and none begins inside a call.  So the passes in
the order of ranks give the source back if every color has lost letters only to
colors of lower ranks, and leave a color behind if not.
-/

import ThemeSheet.Proofs.Fade.Layout

namespace ThemeSheet
namespace Fade

open Text Unicode

variable {pairs : List (Text × Text)} {rank : Text → Nat} {k : Nat} {l : List Cell}

/-! ### Marks -/

/-- A first cell that stands for a call is the mark of it. -/
theorem headCall?_eq_some {call : Text} (h : headCall? l = some call) :
    ∃ kept lost l', l = .mark call kept lost :: l' := by
  unfold headCall? at h
  split at h
  · obtain rfl := Option.some.inj h
    exact ⟨_, _, _, rfl⟩
  · simp at h

/-- What the first cell of a layout stands for is a call. -/
theorem WellLaid.isCall_of_headCall? (hp : Standing pairs) (h : WellLaid pairs l) {call : Text}
    (hc : headCall? l = some call) : IsCall call := by
  obtain ⟨kept, lost, l', rfl⟩ := headCall?_eq_some hc
  exact hp.call _ h.1

/-- What is left of a color is a number sign and digits, and what is lost is digits. -/
theorem WellLaid.mark_digits (hp : Standing pairs) {call kept lost : Text}
    (h : WellLaid pairs (.mark call kept lost :: l)) :
    ∃ ds, kept = '#' :: ds ∧ (∀ d ∈ ds, isHexDigit d = true) ∧ (∀ d ∈ lost, isHexDigit d = true) ∧
      ds.length + lost.length = 6 := by
  obtain ⟨hm, hlost, hl'⟩ := h
  obtain ⟨ds, hd, hl, hds⟩ := Color.isSixDigit_iff.1 (hp.color _ hm).six
  cases kept with
  | nil =>
    -- a color that has lost everything would have lost its number sign to the first letter of a call
    rcases hlost with rfl | ⟨call', rest, hcall', rfl⟩
    · simp at hd
    · obtain ⟨more, hmore⟩ := (hl'.isCall_of_headCall? hp hcall').eq_cons
      rw [show lost = '#' :: ds from hd, List.cons_append] at hmore
      exact absurd (List.cons.inj hmore).1 (by decide)
  | cons c kept =>
    simp only [List.cons_append, List.cons.injEq] at hd
    obtain ⟨rfl, rfl⟩ := hd
    exact ⟨kept, rfl, fun d h => hds d (List.mem_append_left _ h),
      fun d h => hds d (List.mem_append_right _ h),
      by simpa using hl⟩

/-- The letters that a color has lost begin the text behind it. -/
theorem WellLaid.original_lost {call kept lost : Text}
    (h : WellLaid pairs (.mark call kept lost :: l)) :
    ∃ x, original l = lost ++ x ∧ original (.mark call kept lost :: l) = call ++ x := by
  obtain ⟨-, hlost, -⟩ := h
  rcases hlost with rfl | ⟨call', rest, hcall', rfl⟩
  · exact ⟨original l, rfl, rfl⟩
  · obtain ⟨kept', lost', l', rfl⟩ := headCall?_eq_some hcall'
    exact ⟨rest ++ (original l').drop lost'.length, by simp [original], by simp [original]⟩

/-- A color that does not occur in a text does not occur in what the cells behind the first one
stand for. -/
theorem WellLaid.absent_tail (hp : Standing pairs) {cell : Cell} (h : WellLaid pairs (cell :: l))
    {color : Text} (hc : Color.isSixDigit color = true)
    (ho : occursAnyCase color (original (cell :: l)) = false) :
    occursAnyCase color (original l) = false := by
  cases cell with
  | plain c => exact (occursAnyCase_cons ho).2
  | mark call kept lost =>
    obtain ⟨x, hx, ho'⟩ := h.original_lost
    obtain ⟨ds, -, -, hlost, -⟩ := h.mark_digits hp
    rw [ho'] at ho
    rw [hx, Color.occursAnyCase_skip hc (hash_notMem hlost)]
    exact occursAnyCase_of_append ho

/-! ### Texts on the way back -/

/-- A settled color whose turn has come gives way to its call, which brings its lost letters back. -/
theorem restored_mark_of_settled {call kept lost : Text} (hk : rank call < k)
    (hs : isSettled rank (.mark call kept lost :: l) = true) :
    restored rank k (.mark call kept lost :: l) = call ++ (restored rank k l).drop lost.length := by
  rw [restored, if_pos ⟨hk, hs⟩]

/-- Before any call is looked for, the text is the one with colors. -/
theorem restored_zero (rank : Text → Nat) (l : List Cell) : restored rank 0 l = colored l := by
  induction l with
  | nil => rfl
  | cons cell l ih => cases cell <;> simp [restored, colored, ih]

/-- Where the calls are back that a color has lost letters to, these letters stand behind it. -/
theorem restored_lost {call kept lost : Text} (h : WellLaid pairs (.mark call kept lost :: l))
    (hk : rank call ≤ k) (hs : isSettled rank (.mark call kept lost :: l) = true) :
    ∃ x, restored rank k l = lost ++ x := by
  obtain ⟨-, hlost, -⟩ := h
  rcases hlost with rfl | ⟨call', rest, hcall', rfl⟩
  · exact ⟨_, rfl⟩
  · obtain ⟨kept', lost', l', rfl⟩ := headCall?_eq_some hcall'
    rw [isSettled, Bool.or_eq_true, Bool.and_eq_true] at hs
    rcases hs with hs | ⟨hr, hs⟩
    · rw [List.isEmpty_iff.1 hs]
      exact ⟨_, rfl⟩
    · have hr : rank (lost ++ rest) < rank call := by simpa [headCall?] using hr
      rw [restored_mark_of_settled (by omega) hs]
      exact ⟨_, List.append_assoc ..⟩

/-- **Digits in front of a text on the way back stand in front of the source:** a color that is
still there begins with a number sign, and a call begins with digits of its own. -/
theorem digits_of_restored (hp : Standing pairs) (h : WellLaid pairs l) {q r : Text}
    (hq : ∀ d ∈ q, isHexDigit d = true) (hr : restored rank k l = q ++ r) :
    ∃ u, original l = q ++ u := by
  induction l generalizing q with
  | nil =>
    obtain ⟨rfl, -⟩ := List.append_eq_nil_iff.1 hr.symm
    exact ⟨[], rfl⟩
  | cons cell l ih =>
    cases q with
    | nil => exact ⟨_, rfl⟩
    | cons d q =>
      cases cell with
      | plain c =>
        obtain ⟨rfl, hrest⟩ := List.cons.inj hr
        obtain ⟨u, hu⟩ := ih h (fun e he => hq e (List.mem_cons_of_mem _ he)) hrest
        exact ⟨u, by rw [original, hu]; rfl⟩
      | mark call kept lost =>
        rw [restored] at hr
        split at hr
        · obtain ⟨more, rfl⟩ := (hp.call _ h.1).eq_cons
          obtain ⟨u, hu, -⟩ := digits_before (c := '(') (a := ['f', 'a', 'd', 'e'])
            (b := more ++ (restored rank k l).drop lost.length) hq (by decide) (by rw [← hr]; simp)
          exact ⟨u ++ '(' :: more ++ (original l).drop lost.length, by rw [original, hu]; simp⟩
        · obtain ⟨ds, rfl, -⟩ := h.mark_digits hp
          have hd := hq d (List.mem_cons_self ..)
          rw [← (List.cons.inj hr).1] at hd
          exact absurd hd (by decide)

/-- **A color stands where its call is not back yet,** and the letters it has lost stand behind what is
left of it. -/
theorem mark_of_begins_restored (rank : Text → Nat) (k : Nat) (hp : Standing pairs)
    (h : WellLaid pairs l) {e : Text × Text} (he : e ∈ pairs)
    (ho : occursAnyCase e.2 (original l) = false)
    (hb : beginsAnyCase e.2 (restored rank k l) = true) :
    ∃ kept lost l' x, l = .mark e.1 kept lost :: l' ∧ e.2 = kept ++ lost ∧
      restored rank k l' = lost ++ x := by
  have hc := (hp.color e he).six
  obtain ⟨q, r, hq, ht⟩ := beginsAnyCase_iff.1 hb
  obtain ⟨ds, rfl, hlen, hds⟩ := Color.isSixDigit_iff.1 (Color.isSixDigit_of_sameText hc hq)
  cases l with
  | nil => simp [restored] at ht
  | cons cell l =>
    cases cell with
    | plain c =>
      obtain ⟨rfl, hrest⟩ := List.cons.inj ht
      obtain ⟨u, hu⟩ := digits_of_restored (l := l) hp h hds hrest
      have : beginsAnyCase e.2 (original (.plain '#' :: l)) = true :=
        beginsAnyCase_iff.2 ⟨'#' :: ds, u, hq, by rw [original, hu]; rfl⟩
      exact absurd this (by rw [original, (occursAnyCase_cons ho).1]; simp)
    | mark call kept lost =>
      obtain ⟨es, rfl, hes, hlost, hl⟩ := h.mark_digits hp
      rw [restored] at ht
      split at ht
      · obtain ⟨more, rfl⟩ := (hp.call _ h.1).eq_cons
        exact absurd (List.cons.inj ht).1 (by decide)
      · -- the digits behind what is left are the ones that were lost
        have ht : es ++ restored rank k l = ds ++ r := (List.cons.inj ht).2
        obtain ⟨v, rfl, hv⟩ : ∃ v, ds = es ++ v ∧ restored rank k l = v ++ r := by
          rcases List.append_eq_append_iff.1 ht with ⟨v, hv, hr⟩ | ⟨v, hv, hr⟩
          · exact ⟨v, hv, hr⟩
          · have hvl := congrArg List.length hv
            have hvnil : v = [] := List.eq_nil_of_length_eq_zero (by simp at hvl; omega)
            exact ⟨[], by simp [hv, hvnil], by simp [hr, hvnil]⟩
        obtain ⟨u, hu⟩ := digits_of_restored hp h.2.2
          (fun d hd => hds d (List.mem_append_right _ hd)) hv
        obtain ⟨x, hx, -⟩ := h.original_lost
        have hvlost : v = lost :=
          (List.append_inj (hu.symm.trans hx) (by simp at hlen; omega)).1
        subst hvlost
        -- colors that are equal but for case are the same color, and stand for the same call
        have hcolor : '#' :: es ++ v = e.2 := (hp.color _ h.1).eq_of_sameText (hp.color e he) hq
        have := List.inj_on_of_nodup_map hp.distinct h.1 he hcolor
        obtain rfl : call = e.1 := congrArg Prod.fst this
        exact ⟨_, v, l, r, rfl, hcolor.symm, hv⟩

/-- **A color that has its lost letters back is settled:** the call it lost them to has a lower rank. -/
theorem isSettled_of_restored_lost (hp : Standing pairs) {call kept lost x : Text}
    (h : WellLaid pairs (.mark call kept lost :: l)) (hx : restored rank (rank call) l = lost ++ x) :
    isSettled rank (.mark call kept lost :: l) = true := by
  rw [isSettled, Bool.or_eq_true, List.isEmpty_iff, Bool.and_eq_true]
  cases lost with
  | nil => exact .inl rfl
  | cons d lost =>
    refine .inr ?_
    obtain ⟨-, -, -, hlost, -⟩ := h.mark_digits hp
    obtain hn | ⟨call', rest, hcall', -⟩ := h.2.1
    · exact absurd hn (List.cons_ne_nil _ _)
    · obtain ⟨kept', lost', l', rfl⟩ := headCall?_eq_some hcall'
      rw [restored] at hx
      split at hx
      · next hs => exact ⟨by simpa [headCall?] using hs.1, hs.2⟩
      · obtain ⟨ds, rfl, -⟩ := h.2.2.mark_digits hp
        have hd := hlost d (List.mem_cons_self ..)
        rw [← (List.cons.inj hx).1] at hd
        exact absurd hd (by decide)

/-! ### One call -/

/-- A call whose turn has not come, or that has letters in other places, is not back. -/
theorem restored_mark_of_waiting {call kept lost : Text}
    (h : ¬ (rank call < k ∧ isSettled rank (.mark call kept lost :: l) = true)) :
    restored rank k (.mark call kept lost :: l) = kept ++ restored rank k l := by
  rw [restored, if_neg h]

/-- **A pass for one call puts it back where its color is whole, and changes nothing else.** -/
theorem replaceAnyCase_restored (hp : Standing pairs) {e : Text × Text} (he : e ∈ pairs)
    (hi : ∀ e' ∈ pairs, rank e'.1 = rank e.1 → e' = e) (h : WellLaid pairs l)
    (ho : occursAnyCase e.2 (original l) = false) :
    replaceAnyCase e.2 e.1 (restored rank (rank e.1) l) = restored rank (rank e.1 + 1) l := by
  have hc := (hp.color e he).six
  induction l with
  | nil => simp [restored, replaceAnyCase, replaceMatches]
  | cons cell l ih =>
    have ho' := h.absent_tail hp hc ho
    have hmark := mark_of_begins_restored rank (rank e.1) hp h he ho
    cases cell with
    | plain c =>
      have hb : beginsAnyCase e.2 (c :: restored rank (rank e.1) l) = false := by
        by_contra hb
        obtain ⟨kept, lost, l', x, hl, -⟩ := hmark (by simpa [restored] using hb)
        simp at hl
      rw [restored, restored, ← ih h ho', replaceAnyCase_cons hb]
    | mark call kept lost =>
      have ih := ih h.2.2 ho'
      obtain ⟨ds, rfl, hds, hlost, -⟩ := h.mark_digits hp
      by_cases hback : rank call < rank e.1 ∧ isSettled rank (.mark call ('#' :: ds) lost :: l) = true
      · obtain ⟨x, hx⟩ := restored_lost h (Nat.le_of_lt hback.1) hback.2
        rw [restored_mark_of_settled hback.1 hback.2,
          restored_mark_of_settled (Nat.lt_succ_of_lt hback.1) hback.2,
          ← ih, hx, replaceAnyCase_skip_digits _ _ hc hlost, List.drop_left, List.drop_left,
          replaceAnyCase_skip _ _ hc (hp.call _ h.1).eq_append (hp.absent e he _ h.1)]
      · by_cases hturn : rank call = rank e.1 ∧ isSettled rank (.mark call ('#' :: ds) lost :: l) = true
        · obtain rfl := hi _ h.1 hturn.1
          obtain ⟨x, hx⟩ := restored_lost h (Nat.le_refl _) hturn.2
          rw [restored_mark_of_waiting hback,
            restored_mark_of_settled (Nat.lt_succ_self _) hturn.2, ← ih, hx,
            replaceAnyCase_skip_digits _ _ hc hlost, List.drop_left, ← List.append_assoc,
            replaceAnyCase_whole _ _ (by simp)]
        · -- the color of this pass would be settled if it stood here
          have hb : beginsAnyCase e.2 ('#' :: (ds ++ restored rank (rank e.1) l)) = false := by
            by_contra hb
            obtain ⟨kept, lost', l', x, hl, -, hx⟩ := hmark (by simpa [restored, hback] using hb)
            obtain ⟨⟨rfl, -, rfl⟩, rfl⟩ := (List.cons.inj hl).imp (Cell.mark.inj · ) id
            exact hturn ⟨rfl, isSettled_of_restored_lost hp h hx⟩
          have hwait : ¬ (rank call < rank e.1 + 1 ∧
              isSettled rank (.mark call ('#' :: ds) lost :: l) = true) :=
            fun hn => (Nat.lt_succ_iff_lt_or_eq.1 hn.1).elim (hback ⟨·, hn.2⟩) (hturn ⟨·, hn.2⟩)
          rw [restored_mark_of_waiting hback, restored_mark_of_waiting hwait, ← ih, List.cons_append,
            replaceAnyCase_cons hb, replaceAnyCase_skip_digits _ _ hc hds]
          rfl

/-! ### All calls -/

/-- **The passes for calls of consecutive ranks put all of them back.** -/
theorem foldl_replaceAnyCase_restored (hp : Standing pairs) (es : List (Text × Text))
    (hes : ∀ e ∈ es, e ∈ pairs) (hr : es.map (rank ·.1) = List.range' k es.length)
    (hi : ∀ e ∈ pairs, ∀ e' ∈ pairs, rank e'.1 = rank e.1 → e' = e) (h : WellLaid pairs l)
    (ho : ∀ e ∈ pairs, occursAnyCase e.2 (original l) = false) :
    es.foldl (fun t e => replaceAnyCase e.2 e.1 t) (restored rank k l) =
      restored rank (k + es.length) l := by
  induction es generalizing k with
  | nil => rfl
  | cons e es ih =>
    rw [List.map_cons, List.length_cons, List.range'_succ] at hr
    obtain ⟨hk, hr⟩ := List.cons.inj hr
    have he := hes e (List.mem_cons_self ..)
    subst hk
    rw [List.foldl_cons, replaceAnyCase_restored hp he (hi e he) h (ho e he),
      ih (fun e' he' => hes e' (List.mem_cons_of_mem _ he')) hr, List.length_cons]
    congr 1
    omega

/-- A layout whose colors have lost letters to lower ranks only is settled. -/
theorem Descending.isSettled (h : Descending rank l) : isSettled rank l = true := by
  induction l with
  | nil => rfl
  | cons cell l ih =>
    cases cell with
    | plain c => rfl
    | mark call kept lost =>
      obtain ⟨hlost, hl⟩ := h
      rw [Fade.isSettled, Bool.or_eq_true, List.isEmpty_iff, Bool.and_eq_true]
      refine hlost.imp id ?_
      rintro ⟨call', hcall', hr⟩
      exact ⟨by simpa [hcall'] using hr, ih hl⟩

/-- Such a layout is restored to the text with every call in its place. -/
theorem restored_of_descending (hk : ∀ e ∈ pairs, rank e.1 < k) (h : WellLaid pairs l)
    (hd : Descending rank l) : restored rank k l = original l := by
  induction l with
  | nil => rfl
  | cons cell l ih =>
    cases cell with
    | plain c => rw [restored, original, ih h hd]
    | mark call kept lost =>
      rw [restored_mark_of_settled (hk _ h.1) hd.isSettled, original, ih h.2.2 hd.2]

/-- **Where a color has lost letters to one of no lower rank, a color is left.** -/
theorem exists_color_of_not_descending (hp : Standing pairs) (hk : ∀ e ∈ pairs, rank e.1 < k)
    (h : WellLaid pairs l) (hd : ¬ Descending rank l) :
    ∃ e ∈ pairs, occursAnyCase e.2 (restored rank k l) = true := by
  induction l with
  | nil => exact absurd trivial hd
  | cons cell l ih =>
    cases cell with
    | plain c =>
      obtain ⟨e, he, ho⟩ := ih h hd
      exact ⟨e, he, by rw [restored, occursAnyCase, ho, Bool.or_true]⟩
    | mark call kept lost =>
      obtain ⟨-, -, -, hlost, -⟩ := h.mark_digits hp
      by_cases hdl : Descending rank l
      · -- the letters that this color has lost are back behind it
        obtain ⟨x, hx, -⟩ := h.original_lost
        have hwait : ¬ (rank call < k ∧ isSettled rank (.mark call kept lost :: l) = true) := by
          rintro ⟨-, hs⟩
          refine hd ⟨?_, hdl⟩
          rw [isSettled, Bool.or_eq_true, List.isEmpty_iff, Bool.and_eq_true, Option.any_eq_true] at hs
          refine hs.imp id ?_
          rintro ⟨⟨call', hcall', hr⟩, -⟩
          exact ⟨call', hcall', by simpa using hr⟩
        have hback : restored rank k (.mark call kept lost :: l) = kept ++ lost ++ x := by
          rw [restored_mark_of_waiting hwait, restored_of_descending hk h.2.2 hdl, hx,
            List.append_assoc]
        exact ⟨_, h.1, occursAnyCase_iff.2 ⟨[], _, rfl,
          beginsAnyCase_iff.2 ⟨kept ++ lost, x, rfl, hback⟩⟩⟩
      · obtain ⟨e, he, ho⟩ := ih h.2.2 hdl
        refine ⟨e, he, ?_⟩
        by_cases hs : isSettled rank (.mark call kept lost :: l) = true
        · obtain ⟨x, hx⟩ := restored_lost h (Nat.le_of_lt (hk _ h.1)) hs
          rw [hx, Color.occursAnyCase_skip (hp.color e he).six (hash_notMem hlost)] at ho
          obtain ⟨before, rest, rfl, hb⟩ := occursAnyCase_iff.1 ho
          rw [restored_mark_of_settled (hk _ h.1) hs, hx, List.drop_left]
          exact occursAnyCase_iff.2 ⟨call ++ before, rest, by simp, hb⟩
        · obtain ⟨before, rest, hr, hb⟩ := occursAnyCase_iff.1 ho
          rw [restored_mark_of_waiting fun hn => hs hn.2, hr]
          exact occursAnyCase_iff.2 ⟨kept ++ before, rest, by simp, hb⟩

/-- **The source is back exactly where every color has lost letters to colors of lower ranks only.** -/
theorem restored_eq_original_iff (hp : Standing pairs) (hk : ∀ e ∈ pairs, rank e.1 < k)
    (h : WellLaid pairs l) (ho : ∀ e ∈ pairs, occursAnyCase e.2 (original l) = false) :
    restored rank k l = original l ↔ Descending rank l := by
  refine ⟨fun heq => ?_, restored_of_descending hk h⟩
  by_contra hd
  obtain ⟨e, he, hc⟩ := exists_color_of_not_descending hp hk h hd
  rw [heq, ho e he] at hc
  exact Bool.noConfusion hc

end Fade
end ThemeSheet
