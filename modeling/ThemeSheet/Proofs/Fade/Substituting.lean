/-
# Putting colors in the place of calls

A pass that puts one color in keeps a layout: a call that it finds stands in source
text, or begins in the last letters of a color that was put in before and goes on in
source text.  No other color is touched, since a call ends with a bracket and holds
no color.
-/

import ThemeSheet.Proofs.Fade.Restoring

namespace ThemeSheet
namespace Fade

open Text Unicode

variable {pairs : List (Text × Text)} {rank : Text → Nat} {l : List Cell}

/-- Does the text begin with the color, and a call in the last letters of it? -/
def BeginsInside (call color t : Text) : Prop :=
  ∃ kept lost rest after, color = kept ++ lost ∧ lost ≠ [] ∧ call = lost ++ rest ∧
    t = color ++ rest ++ after

/-- Does a call begin somewhere in the last letters of the color? -/
def OccursInside (call color t : Text) : Prop :=
  ∃ before behind, t = before ++ behind ∧ BeginsInside call color behind

/-- The pairs without some of them. -/
theorem Standing.of_sublist {pairs' : List (Text × Text)} (hp : Standing pairs)
    (h : pairs'.Sublist pairs) : Standing pairs' where
  call := fun e he => hp.call e (h.subset he)
  color := fun e he => hp.color e (h.subset he)
  distinct := hp.distinct.sublist (h.map _)
  absent := fun e he e' he' => hp.absent e (h.subset he) e' (h.subset he')

/-! ### Where a call begins in the last letters of a color -/

/-- A call that begins in a color does so behind a further beginning. -/
theorem OccursInside.append {call color t : Text} (before : Text) (h : OccursInside call color t) :
    OccursInside call color (before ++ t) := by
  obtain ⟨front, behind, rfl, hb⟩ := h
  exact ⟨before ++ front, behind, (List.append_assoc ..).symm, hb⟩

/-- A call begins in a color at the beginning of the text, or behind its first character. -/
theorem occursInside_cons {call color t : Text} {c : Char} (h : OccursInside call color (c :: t)) :
    BeginsInside call color (c :: t) ∨ OccursInside call color t := by
  obtain ⟨before, behind, ht, hb⟩ := h
  cases before with
  | nil => exact .inl (by rw [ht]; exact hb)
  | cons d before => exact .inr ⟨before, behind, (List.cons.inj ht).2, hb⟩

/-- Where a call begins in a color, the color stands. -/
theorem BeginsInside.begins {call color t : Text} (h : BeginsInside call color t) :
    beginsAnyCase color t = true := by
  obtain ⟨kept, lost, rest, after, rfl, -, -, rfl⟩ := h
  exact beginsAnyCase_iff.2 ⟨_, rest ++ after, rfl, List.append_assoc ..⟩

/-- In the empty text, no call begins in a color. -/
theorem occursInside_nil {call color : Text} : ¬ OccursInside call color [] := by
  rintro ⟨before, behind, ht, kept, lost, rest, after, rfl, hlost, -, rfl⟩
  simp [hlost] at ht

/-- No color begins in digits. -/
theorem occursInside_skip_digits {call color q t : Text} (hc : Color.isSixDigit color = true)
    (hq : ∀ d ∈ q, isHexDigit d = true) (h : OccursInside call color (q ++ t)) :
    OccursInside call color t := by
  induction q with
  | nil => exact h
  | cons d q ih =>
    refine ih (fun e he => hq e (List.mem_cons_of_mem _ he))
      ((occursInside_cons h).resolve_left fun hb => ?_)
    have hd := ne_of_mem_of_not_mem (List.mem_cons_self ..) (hash_notMem hq)
    exact Bool.noConfusion ((Color.beginsAnyCase_color_cons hc hd).symm.trans hb.begins)

/-- A text that ends with a bracket and holds no color is passed over. -/
theorem occursInside_skip {call color w t : Text} (hc : Color.isSixDigit color = true)
    (hw : ∃ front, w = front ++ [')']) (ho : occursAnyCase color w = false)
    (h : OccursInside call color (w ++ t)) : OccursInside call color t := by
  obtain ⟨front, rfl⟩ := hw
  induction front with
  | nil =>
    refine (occursInside_cons h).resolve_left fun hb => ?_
    exact Bool.noConfusion ((Color.beginsAnyCase_color_cons hc (by decide)).symm.trans hb.begins)
  | cons c front ih =>
    obtain ⟨hb, ht⟩ := occursAnyCase_cons ho
    refine ih ht ((occursInside_cons h).resolve_left fun hn => ?_)
    refine Bool.noConfusion (hb.symm.trans (begins_of_begins_append (w := c :: front) (x := t) hc ?_))
    simpa using hn.begins

/-! ### Where a call is found -/

/-- **In front of a text, digits are left alone or end with the first letters of a call.** -/
theorem replaceAll_digits {call ds : Text} (hcall : IsCall call) (hds : ∀ d ∈ ds, isHexDigit d = true)
    (new t : Text) :
    (∃ q p rest after, ds = q ++ p ∧ p ≠ [] ∧ call = p ++ rest ∧ t = rest ++ after ∧
      replaceAll call new (ds ++ t) = q ++ new ++ replaceAll call new after) ∨
    (∀ q p rest after, ds = q ++ p → p ≠ [] → call = p ++ rest → t ≠ rest ++ after) ∧
      replaceAll call new (ds ++ t) = ds ++ replaceAll call new t := by
  induction ds with
  | nil =>
    refine .inr ⟨?_, rfl⟩
    rintro q p rest after hqp hp
    exact absurd (List.append_eq_nil_iff.1 hqp.symm).2 hp
  | cons d ds ih =>
    obtain ⟨more, hmore⟩ := hcall.eq_cons
    cases hd : dropPrefix? call (d :: ds ++ t) with
    | some after =>
      rw [dropPrefix?_eq_some] at hd
      rw [hd, replaceAll_whole _ _ (by rw [hmore]; simp)]
      obtain ⟨u, hu, rfl⟩ := digits_before (c := '(') (a := ['f', 'a', 'd', 'e']) (b := more ++ after)
        hds (by decide) (by rw [hd, hmore]; simp)
      exact .inl ⟨[], d :: ds, u ++ '(' :: more, after,
        rfl, by simp, by rw [hmore, hu]; simp, by simp, rfl⟩
    | none =>
      rw [List.cons_append] at hd ⊢
      rw [replaceAll_cons hd]
      rcases ih fun e he => hds e (List.mem_cons_of_mem _ he) with
        ⟨q, p, rest, after, rfl, hp, hc, rfl, hr⟩ | ⟨hnone, hr⟩
      · exact .inl ⟨d :: q, p, rest, after, rfl, hp, hc, rfl, by rw [hr]; rfl⟩
      · refine .inr ⟨?_, by rw [hr]; rfl⟩
        intro q p rest after hqp hp hc ht
        cases q with
        | nil =>
          obtain rfl : d :: ds = p := hqp
          rw [ht, ← List.cons_append, ← List.append_assoc, ← hc, dropPrefix?_eq_some.2 rfl] at hd
          simp at hd
        | cons e q =>
          obtain ⟨rfl, hqp'⟩ := List.cons.inj hqp
          exact hnone q p rest after hqp' hp hc ht

/-- A text that ends with a bracket at a mark holds a color. -/
theorem exists_color_of_mark (hp : Standing pairs) (h : WellLaid pairs l) {call w x : Text}
    (hc : headCall? l = some call) (hw : w ++ ')' :: x = colored l) :
    ∃ e ∈ pairs, occursAnyCase e.2 (w ++ [')']) = true := by
  induction l generalizing call w with
  | nil => simp [headCall?] at hc
  | cons cell l ih =>
    cases cell with
    | plain c => simp [headCall?] at hc
    | mark call' kept lost =>
      obtain ⟨ds, rfl, hds, -⟩ := h.mark_digits hp
      rw [colored] at hw
      cases w with
      | nil => exact absurd (List.cons.inj hw).1 (by decide)
      | cons c w =>
        obtain ⟨rfl, hw'⟩ := List.cons.inj hw
        obtain ⟨u, rfl, hu⟩ := digits_before hds (by decide) hw'.symm
        rcases h.2.1 with rfl | ⟨call'', rest, hcall'', -⟩
        · refine ⟨_, h.1, occursAnyCase_iff.2 ⟨[], _, rfl,
            beginsAnyCase_iff.2 ⟨'#' :: ds, u ++ [')'], ?_, ?_⟩⟩⟩
          · simp
          · simp
        · obtain ⟨e, he, ho⟩ := ih h.2.2 hcall'' hu.symm
          obtain ⟨before, behind, hb, hbe⟩ := occursAnyCase_iff.1 ho
          exact ⟨e, he, occursAnyCase_iff.2 ⟨'#' :: ds ++ before, behind, by simp [hb], hbe⟩⟩

/-- **A text that ends with a bracket and holds no color stands in source text.** -/
theorem plain_of_colored (hp : Standing pairs) (h : WellLaid pairs l) {w x : Text}
    (hw : ∃ front, w = front ++ [')']) (ho : ∀ e ∈ pairs, occursAnyCase e.2 w = false)
    (hx : w ++ x = colored l) : ∃ l', l = w.map .plain ++ l' ∧ x = colored l' := by
  obtain ⟨front, rfl⟩ := hw
  induction l generalizing front with
  | nil => simp [colored] at hx
  | cons cell l ih =>
    cases cell with
    | mark call kept lost =>
      obtain ⟨e, he, hc⟩ := exists_color_of_mark (w := front) (x := x) hp h rfl (by rw [← hx]; simp)
      rw [ho e he] at hc
      exact Bool.noConfusion hc
    | plain c =>
      rw [colored] at hx
      cases front with
      | nil =>
        obtain ⟨rfl, rfl⟩ := List.cons.inj hx
        exact ⟨l, rfl, rfl⟩
      | cons d front =>
        obtain ⟨rfl, hx'⟩ := List.cons.inj hx
        obtain ⟨l', rfl, rfl⟩ := ih h _ (fun e he => (occursAnyCase_cons (ho e he)).2) hx'
        exact ⟨l', rfl, rfl⟩

/-- A call goes on behind its first letters, and ends with its bracket. -/
theorem IsCall.rest_eq_append {call p rest : Text} (h : IsCall call) (hc : call = p ++ rest)
    (hp : ∀ d ∈ p, isHexDigit d = true) : ∃ front, rest = front ++ [')'] := by
  obtain ⟨front, hfront⟩ := h.eq_append
  rcases rest.eq_nil_or_concat with rfl | ⟨init, c, rfl⟩
  · have := hp ')' (by rw [← List.append_nil p, ← hc, hfront]; simp)
    exact absurd this (by decide)
  · rw [hfront, List.concat_eq_append, ← List.append_assoc] at hc
    have hlast := (List.append_inj' hc rfl).2
    exact ⟨init, by rw [List.concat_eq_append, ← hlast]⟩

/-! ### Source text in a layout -/

/-- Plain characters at the beginning stand there with the colors. -/
theorem colored_plain (w : Text) : colored (w.map .plain ++ l) = w ++ colored l := by
  induction w with
  | nil => rfl
  | cons c w ih => simp [colored, ih]

/-- Plain characters at the beginning stand there with the calls. -/
theorem original_plain (w : Text) : original (w.map .plain ++ l) = w ++ original l := by
  induction w with
  | nil => rfl
  | cons c w ih => simp [original, ih]

/-- Plain characters at the beginning lose nothing. -/
theorem descending_plain (w : Text) : Descending rank (w.map .plain ++ l) ↔ Descending rank l := by
  induction w with
  | nil => rfl
  | cons c w ih => simpa [Descending] using ih

/-- Plain characters at the beginning do not matter to the layout. -/
theorem wellLaid_plain (w : Text) : WellLaid pairs (w.map .plain ++ l) ↔ WellLaid pairs l := by
  induction w with
  | nil => rfl
  | cons c w ih => simpa [WellLaid] using ih

/-! ### One call -/

/-- **A color at the beginning of a text with colors is a whole one that was put in.** -/
theorem mark_of_begins_colored (hp : Standing pairs) (h : WellLaid pairs l) {e : Text × Text}
    (he : e ∈ pairs) (ho : occursAnyCase e.2 (original l) = false)
    (hb : beginsAnyCase e.2 (colored l) = true) :
    ∃ l', l = .mark e.1 e.2 [] :: l' := by
  rw [← restored_zero fun _ => 0] at hb
  obtain ⟨kept, lost, l', x, rfl, hcolor, hx⟩ := mark_of_begins_restored _ _ hp h he ho hb
  cases lost with
  | nil => exact ⟨l', by rw [hcolor, List.append_nil]⟩
  | cons d lost =>
    -- the mark behind it would begin with a number sign, and not with a digit
    obtain hn | ⟨call', rest, hcall', -⟩ := h.2.1
    · exact absurd hn (List.cons_ne_nil _ _)
    · obtain ⟨kept', lost', l'', rfl⟩ := headCall?_eq_some hcall'
      obtain ⟨ds, rfl, -⟩ := h.2.2.mark_digits hp
      obtain ⟨-, -, -, hlost, -⟩ := h.mark_digits hp
      rw [restored_zero] at hx
      have hd := hlost d (List.mem_cons_self ..)
      rw [← (List.cons.inj hx).1] at hd
      exact absurd hd (by decide)

/-- **What a pass for one call does to a layout.** -/
structure Pass (rank : Text → Nat) (pairs : List (Text × Text)) (e : Text × Text)
    (l l' : List Cell) : Prop where
  laid : WellLaid (pairs ++ [e]) l'
  colored_eq : colored l' = replaceAll e.1 e.2 (colored l)
  original_eq : original l' = original l
  head : ∀ call, headCall? l = some call → headCall? l' = some call
  descending : Descending rank l' ↔
    Descending rank l ∧ ∀ e' ∈ pairs, OccursInside e.1 e'.2 (colored l) → rank e.1 < rank e'.1

namespace Pass

variable {e : Text × Text} {l l' : List Cell}

/-- Text in front of which no call begins inside a color adds nothing to what is asked of the ranks. -/
theorem inside_append (before : Text) {t : Text}
    (hs : ∀ e' ∈ pairs, OccursInside e.1 e'.2 (before ++ t) → OccursInside e.1 e'.2 t) :
    (∀ e' ∈ pairs, OccursInside e.1 e'.2 (before ++ t) → rank e.1 < rank e'.1) ↔
      ∀ e' ∈ pairs, OccursInside e.1 e'.2 t → rank e.1 < rank e'.1 :=
  ⟨fun h e' he' ho => h e' he' (ho.append before), fun h e' he' ho => h e' he' (hs e' he' ho)⟩

/-- A pass leaves the empty layout as it is. -/
theorem nil : Pass rank pairs e [] [] where
  laid := trivial
  colored_eq := by simp [colored, replaceAll, replaceMatches]
  original_eq := rfl
  head := fun _ h => h
  descending := ⟨fun _ => ⟨trivial, fun _ _ h => absurd h occursInside_nil⟩, fun _ => trivial⟩

/-- A character at which the call does not begin stays. -/
theorem plain {c : Char} (hp : Standing pairs) (h : WellLaid pairs (.plain c :: l))
    (ho : ∀ e' ∈ pairs, occursAnyCase e'.2 (original (.plain c :: l)) = false)
    (hn : dropPrefix? e.1 (c :: colored l) = none) (hpass : Pass rank pairs e l l') :
    Pass rank pairs e (.plain c :: l) (.plain c :: l') where
  laid := hpass.laid
  colored_eq := by rw [colored, colored, replaceAll_cons hn, hpass.colored_eq]
  original_eq := by rw [original, original, hpass.original_eq]
  head := fun _ h => absurd h (by simp [headCall?])
  descending := by
    refine hpass.descending.trans (and_congr_right fun _ => (inside_append [c] ?_).symm)
    refine fun e' he' hi => (occursInside_cons hi).resolve_left fun hb => ?_
    obtain ⟨l'', hl⟩ := mark_of_begins_colored hp h he' (ho e' he') hb.begins
    simp at hl

/-- A call in source text gives way to its color. -/
theorem call (hp : Standing (pairs ++ [e])) (hpass : Pass rank pairs e l l') :
    Pass rank pairs e (e.1.map .plain ++ l) (.mark e.1 e.2 [] :: l') where
  laid := ⟨by simp, .inl rfl, hpass.laid⟩
  colored_eq := by
    obtain ⟨more, hmore⟩ := (hp.call e (by simp)).eq_cons
    rw [colored_plain, replaceAll_whole _ _ (by rw [hmore]; simp), colored, hpass.colored_eq]
  original_eq := by rw [original_plain, original, hpass.original_eq]; rfl
  head := fun call h => by
    obtain ⟨more, hmore⟩ := (hp.call e (by simp)).eq_cons
    rw [hmore] at h
    simp [headCall?] at h
  descending := by
    rw [descending_plain, colored_plain]
    refine Iff.trans ?_ (hpass.descending.trans (and_congr_right fun _ => (inside_append _ ?_).symm))
    · simp [Descending]
    · intro e' he' hi
      have hmem : e' ∈ pairs ++ [e] := List.mem_append_left _ he'
      have hself : e ∈ pairs ++ [e] := by simp
      exact occursInside_skip (hp.color e' hmem).six (hp.call e hself).eq_append
        (hp.absent e' hmem e hself) hi

/-- A color in whose last letters the call does not begin stays as it is. -/
theorem mark {call kept lost : Text} (hp : Standing (pairs ++ [e]))
    (h : WellLaid pairs (.mark call kept lost :: l))
    (ho : ∀ e' ∈ pairs, occursAnyCase e'.2 (original (.mark call kept lost :: l)) = false)
    (hn : ∀ q p rest after, kept = q ++ p → p ≠ [] → e.1 = p ++ rest → colored l ≠ rest ++ after)
    (hr : replaceAll e.1 e.2 (kept ++ colored l) = kept ++ replaceAll e.1 e.2 (colored l))
    (hpass : Pass rank pairs e l l') :
    Pass rank pairs e (.mark call kept lost :: l) (.mark call kept lost :: l') where
  laid := by
    refine ⟨List.mem_append_left _ h.1, h.2.1.imp id ?_, hpass.laid⟩
    rintro ⟨call', rest, hcall', hrest⟩
    exact ⟨call', rest, hpass.head _ hcall', hrest⟩
  colored_eq := by rw [colored, colored, hr, hpass.colored_eq]
  original_eq := by rw [original, original, hpass.original_eq]
  head := fun _ h => h
  descending := by
    have hp' := hp.of_sublist (List.sublist_append_left pairs [e])
    have hhead : (lost = [] ∨ ∃ call', headCall? l' = some call' ∧ rank call' < rank call) ↔
        (lost = [] ∨ ∃ call', headCall? l = some call' ∧ rank call' < rank call) := by
      rcases h.2.1 with hl | ⟨call', rest, hcall', -⟩
      · simp [hl]
      · simp [hcall', hpass.head _ hcall']
    rw [Descending, Descending, hhead, hpass.descending, and_assoc]
    refine and_congr_right fun _ => and_congr_right fun _ => (inside_append kept ?_).symm
    intro e' he' hi
    obtain ⟨ds, rfl, hds, -⟩ := h.mark_digits hp'
    refine occursInside_skip_digits (hp'.color e' he').six hds
      ((occursInside_cons hi).resolve_left fun hb => ?_)
    -- the color that begins here is the one of the mark, in which no call begins
    obtain ⟨l'', hl⟩ := mark_of_begins_colored hp' h he' (ho e' he') hb.begins
    obtain ⟨hmark, rfl⟩ := List.cons.inj hl
    obtain ⟨-, hkept, -⟩ := Cell.mark.inj hmark
    obtain ⟨q, p, rest, after, hcolor, hne, hc, ht⟩ := hb
    refine hn q p rest after (hkept.trans hcolor) hne hc ?_
    rw [← hkept, List.append_assoc] at ht
    exact List.append_cancel_left (show '#' :: ds ++ colored l = '#' :: ds ++ (rest ++ after) from ht)

/-- A color in whose last letters the call begins loses them to it. -/
theorem inside {call q p rest : Text} (hp : Standing (pairs ++ [e]))
    (h : WellLaid pairs (.mark call (q ++ p) [] :: (rest.map .plain ++ l)))
    (ho : ∀ e' ∈ pairs,
      occursAnyCase e'.2 (original (.mark call (q ++ p) [] :: (rest.map .plain ++ l))) = false)
    (hc : e.1 = p ++ rest) (hne : p ≠ []) (hw : ∃ front, rest = front ++ [')'])
    (hr : replaceAll e.1 e.2 (q ++ p ++ (rest ++ colored l)) =
      q ++ e.2 ++ replaceAll e.1 e.2 (colored l))
    (hpass : Pass rank pairs e l l') :
    Pass rank pairs e (.mark call (q ++ p) [] :: (rest.map .plain ++ l))
      (.mark call q p :: .mark e.1 e.2 [] :: l') where
  laid := ⟨List.mem_append_left _ (by simpa using h.1), .inr ⟨e.1, rest, rfl, hc⟩, by simp,
      .inl rfl, hpass.laid⟩
  colored_eq := calc
    q ++ (e.2 ++ colored l') = q ++ e.2 ++ replaceAll e.1 e.2 (colored l) := by
      rw [hpass.colored_eq, List.append_assoc]
    _ = replaceAll e.1 e.2 (q ++ p ++ (rest ++ colored l)) := hr.symm
    _ = _ := by rw [← colored_plain]; rfl
  original_eq := by
    rw [original, original, original, original_plain, hpass.original_eq, hc]
    simp
  head := fun _ h => h
  descending := by
    have hp' := hp.of_sublist (List.sublist_append_left pairs [e])
    have hself : e ∈ pairs ++ [e] := by simp
    have hhere : OccursInside e.1 (q ++ p) (q ++ p ++ (rest ++ colored l)) :=
      ⟨[], _, rfl, q, p, rest, colored l, rfl, hne, hc, by simp⟩
    have hnext : Descending rank (.mark call q p :: .mark e.1 e.2 [] :: l') ↔
        rank e.1 < rank call ∧ Descending rank l' := by
      simp [Descending, headCall?, hne]
    rw [hnext, hpass.descending, Descending, descending_plain, colored, colored_plain]
    constructor
    · rintro ⟨hrank, hd, hi⟩
      refine ⟨⟨.inl rfl, hd⟩, fun e' he' hocc => ?_⟩
      obtain ⟨ds, hds, hdigits, -⟩ := h.mark_digits hp'
      rw [hds, List.cons_append] at hocc
      rcases occursInside_cons hocc with hb | hocc
      · have hb := hb.begins
        rw [← List.cons_append, ← hds, ← colored_plain] at hb
        obtain ⟨l'', hl⟩ := mark_of_begins_colored hp' h he' (ho e' he') hb
        exact (Cell.mark.inj (List.cons.inj hl).1).1 ▸ hrank
      · have hmem : e' ∈ pairs ++ [e] := List.mem_append_left _ he'
        have habs : occursAnyCase e'.2 rest = false :=
          occursAnyCase_of_append (hc ▸ hp.absent e' hmem e hself)
        have hsix := (hp.color e' hmem).six
        exact hi e' he' (occursInside_skip hsix hw habs (occursInside_skip_digits hsix hdigits hocc))
    · rintro ⟨⟨-, hd⟩, hi⟩
      refine ⟨hi (call, q ++ p) (by simpa using h.1) hhere, hd, fun e' he' hocc => ?_⟩
      exact hi e' he' ((hocc.append rest).append (q ++ p))

end Pass

/-- **Every pass keeps a layout:** what it finds is laid out again, and the rest stays. -/
theorem exists_pass (rank : Text → Nat) {e : Text × Text} (hp : Standing (pairs ++ [e]))
    (h : WellLaid pairs l) (ho : ∀ e' ∈ pairs, occursAnyCase e'.2 (original l) = false) :
    ∃ l', Pass rank pairs e l l' := by
  have hp' := hp.of_sublist (List.sublist_append_left pairs [e])
  have hself : e ∈ pairs ++ [e] := by simp
  have hcall := hp.call e hself
  have habsent {w : Text} (p : Text) (hw : e.1 = p ++ w) : ∀ e' ∈ pairs, occursAnyCase e'.2 w = false :=
    fun e' he' => occursAnyCase_of_append (hw ▸ hp.absent e' (List.mem_append_left _ he') e hself)
  obtain ⟨more, hmore⟩ := hcall.eq_cons
  -- a call that is found takes several cells at once
  induction hlen : l.length using Nat.strongRecOn generalizing l with
  | _ n ih =>
    subst hlen
    cases l with
    | nil => exact ⟨[], .nil⟩
    | cons cell l =>
      cases cell with
      | plain c =>
        cases hd : dropPrefix? e.1 (c :: colored l) with
        | none =>
          obtain ⟨l', hpass⟩ :=
            ih l.length (by simp) (l := l) h (fun e' he' => (occursAnyCase_cons (ho e' he')).2) rfl
          exact ⟨_, hpass.plain hp' h ho hd⟩
        | some x =>
          obtain ⟨l₂, hl, rfl⟩ := plain_of_colored hp' h hcall.eq_append (habsent [] rfl)
            (dropPrefix?_eq_some.1 hd).symm
          rw [hl] at h ho ih ⊢
          rw [wellLaid_plain] at h
          obtain ⟨l', hpass⟩ := ih l₂.length (by simp [hmore]; omega) h
            (fun e' he' => occursAnyCase_of_append (original_plain (l := l₂) e.1 ▸ ho e' he')) rfl
          exact ⟨_, hpass.call hp⟩
      | mark call kept lost =>
        have hol : ∀ e' ∈ pairs, occursAnyCase e'.2 (original l) = false :=
          fun e' he' => h.absent_tail hp' (hp'.color e' he').six (ho e' he')
        obtain ⟨ds, rfl, hds, -⟩ := h.mark_digits hp'
        have hhash : replaceAll e.1 e.2 ('#' :: ds ++ colored l) =
            '#' :: replaceAll e.1 e.2 (ds ++ colored l) :=
          replaceAll_cons (by rw [hmore]; rfl)
        rcases replaceAll_digits hcall hds e.2 (colored l) with
          ⟨q, p, rest, after, rfl, hne, hc, ht, hr⟩ | ⟨hn, hr⟩
        · -- the call begins in the color and goes on in source text
          have hdigits : ∀ d ∈ p, isHexDigit d = true := fun d hd => hds d (List.mem_append_right _ hd)
          have hw := hcall.rest_eq_append hc hdigits
          obtain ⟨l₂, rfl, rfl⟩ := plain_of_colored hp' h.2.2 hw (habsent p hc) ht.symm
          obtain rfl : lost = [] := by
            rcases h.2.1 with hl | ⟨call', rest', hcall', -⟩
            · exact hl
            · obtain ⟨front, rfl⟩ := hw
              obtain ⟨kept', lost', l', hl⟩ := headCall?_eq_some hcall'
              cases front <;> simp at hl
          obtain ⟨l', hpass⟩ :=
            ih l₂.length (by simp only [List.length_append, List.length_cons]; omega)
              ((wellLaid_plain rest).1 h.2.2)
            (fun e' he' => occursAnyCase_of_append (original_plain (l := l₂) rest ▸ hol e' he')) rfl
          refine ⟨_, hpass.inside (q := '#' :: q) hp h ho hc hne hw ?_⟩
          rw [← colored_plain, List.cons_append, hhash, hr]
          rfl
        · obtain ⟨l', hpass⟩ := ih l.length (by simp) h.2.2 hol rfl
          refine ⟨_, hpass.mark hp h ho ?_ (by rw [hhash, hr]; rfl)⟩
          intro q p rest after hqp hne hc
          cases q with
          | nil =>
            -- a call begins with no number sign
            obtain rfl : '#' :: ds = p := hqp
            rw [hmore] at hc
            exact absurd (List.cons.inj hc).1 (by decide)
          | cons d q => exact hn q p rest after (List.cons.inj hqp).2 hne hc

/-- **All passes one after another:** the source with its colors is laid out, and the order of ranks
is the one to put the calls back unless a call was found inside a color of a higher rank. -/
theorem exists_layout (rank : Text → Nat) {done todo : List (Text × Text)}
    (hp : Standing (done ++ todo)) (h : WellLaid done l)
    (ho : ∀ e ∈ done ++ todo, occursAnyCase e.2 (original l) = false) :
    ∃ l', WellLaid (done ++ todo) l' ∧
      colored l' = todo.foldl (fun t e => replaceAll e.1 e.2 t) (colored l) ∧ original l' = original l ∧
      (Descending rank l' ↔ Descending rank l ∧ ∀ before e after, todo = before ++ e :: after →
        ∀ e' ∈ done ++ before,
          OccursInside e.1 e'.2 (before.foldl (fun t e => replaceAll e.1 e.2 t) (colored l)) →
          rank e.1 < rank e'.1) := by
  induction todo generalizing done l with
  | nil => exact ⟨l, by simpa using h, rfl, rfl, by simp⟩
  | cons e todo ih =>
    obtain ⟨l₁, hpass⟩ := exists_pass (e := e) rank (hp.of_sublist (by simp)) h
      fun e' he' => ho e' (List.mem_append_left _ he')
    obtain ⟨l', hl, hc, horig, hd⟩ := ih
      (show Standing ((done ++ [e]) ++ todo) by simpa using hp) hpass.laid
      (by simpa [hpass.original_eq] using ho)
    refine ⟨l', by simpa using hl, ?_, horig.trans hpass.original_eq, ?_⟩
    · rw [hc, hpass.colored_eq, List.foldl_cons]
    · rw [hd, hpass.descending, hpass.colored_eq, and_assoc]
      refine and_congr_right fun _ => ?_
      constructor
      · rintro ⟨hfirst, hlater⟩ before e₁ after hsplit
        cases before with
        | nil =>
          obtain ⟨rfl, rfl⟩ := List.cons.inj hsplit
          simpa using hfirst
        | cons e₂ before =>
          obtain ⟨rfl, hsplit'⟩ := List.cons.inj hsplit
          simpa using hlater before e₁ after hsplit'
      · intro hall
        refine ⟨by simpa using hall [] e todo rfl, fun before e₁ after hsplit => ?_⟩
        simpa using hall (e :: before) e₁ after (by rw [hsplit]; rfl)

end Fade
end ThemeSheet
