/-
# One pass after another

The colors of a palette are looked for in as many passes, each over the result of the
last.  Between two passes some colors have given way and others wait for their turn;
the plain characters stay.  A pass finds its color where it waits and nowhere else, so
the passes of a palette leave what its reading writes out.
-/

import ThemeSheet.Proofs.Theme.Palette

namespace ThemeSheet
namespace Theme

open Text

/-- **A text between two passes:** a color stands where its turn has not come, and what it stands for
where it has.  Of equal colors the first one counts. -/
inductive Stands (done todo : Palette) : List Piece → Text → Prop
  | nil : Stands done todo [] []
  | plain {c : Char} {l : List Piece} {t : Text} (h : Stands done todo l t) :
      Stands done todo (.plain c :: l) (c :: t)
  | waiting {e : StandIn × Text} {q : Text} {l : List Piece} {t : Text}
      (hq : todo.find? (fun e => e.1.isSame e.2 q) = some e) (h : Stands done todo l t) :
      Stands done todo (.standIn e.1 :: l) (q ++ t)
  | written {e : StandIn × Text} {l : List Piece} {t : Text} (he : e ∈ done)
      (h : Stands done todo l t) : Stands done todo (.standIn e.1 :: l) (e.1.written ++ t)

namespace Palette

variable {p : Palette} {t rest : Text} {s : StandIn} {l : List Piece}

/-! ### What is read -/

/-- No color of the palette is spelled by plain characters. -/
def Clear (p : Palette) (l : List Piece) : Prop :=
  ∀ e ∈ p, ∀ q, e.1.isSame e.2 q = true → ∀ before rest, l ≠ before ++ q.map .plain ++ rest

/-- Pieces stay clear without the first. -/
theorem Clear.tail {x : Piece} (h : p.Clear (x :: l)) : p.Clear l :=
  fun e he q hq before rest hl => h e he q hq (x :: before) rest (by rw [hl]; rfl)

/-- A character at which no color begins is read as itself. -/
theorem read_cons_of_none {c : Char} (h : p.first? (c :: t) = none) :
    p.read (c :: t) = .plain c :: p.read t := by
  rw [read, h]

/-- A color at the beginning is read as what it stands for. -/
theorem read_of_some (hp : p.Sound) (h : p.first? t = some (s, rest)) :
    p.read t = .standIn s :: p.read rest := by
  obtain ⟨before, color, after, q, rfl, hq, rfl, -⟩ := first?_eq_some h
  obtain ⟨c, tail, rfl, -⟩ := (hp.isColor (e := (s, color)) (by simp) hq).eq_cons
  rw [List.cons_append] at h ⊢
  rw [read, h]
  exact if_pos (by simp)

/-- What is read behind some pieces is read of a text of its own. -/
theorem exists_read_eq (hp : p.Sound) {before : List Piece} (h : p.read t = before ++ l) :
    ∃ u, p.read u = l := by
  induction before generalizing t with
  | nil => exact ⟨t, h⟩
  | cons x before ih =>
    cases t with
    | nil => simp [read] at h
    | cons c t =>
      cases hf : p.first? (c :: t) with
      | none =>
        rw [read_cons_of_none hf] at h
        exact ih (List.cons.inj h).2
      | some m =>
        rw [read_of_some hp hf] at h
        exact ih (List.cons.inj h).2

/-- Plain characters that are read stand in the text. -/
theorem exists_eq_append_of_read (hp : p.Sound) {q : Text} (h : p.read t = q.map .plain ++ l) :
    ∃ u, t = q ++ u := by
  induction q generalizing t with
  | nil => exact ⟨t, rfl⟩
  | cons d q ih =>
    cases t with
    | nil => simp [read] at h
    | cons c t =>
      cases hf : p.first? (c :: t) with
      | none =>
        rw [read_cons_of_none hf] at h
        obtain ⟨hc, h⟩ := List.cons.inj h
        obtain ⟨u, rfl⟩ := ih h
        exact ⟨u, by rw [Piece.plain.inj hc]; rfl⟩
      | some m =>
        rw [read_of_some hp hf] at h
        simp at h

/-- **A reading leaves no color unread.** -/
theorem clear_read (hp : p.Sound) (t : Text) : p.Clear (p.read t) := by
  intro e he q hq before rest h
  rw [List.append_assoc] at h
  obtain ⟨u, hu⟩ := exists_read_eq hp h
  obtain ⟨v, rfl⟩ := exists_eq_append_of_read hp hu
  obtain ⟨c, tail, rfl, -⟩ := (hp.isColor he hq).eq_cons
  cases hf : p.first? (c :: tail ++ v) with
  | some m =>
    rw [read_of_some hp hf] at hu
    simp at hu
  | none =>
    have hnone := first?_eq_none.1 hf e he
    rw [hp.rest?_append he he hq, if_pos hq] at hnone
    simp at hnone

/-- **Before the first pass every color that is read waits.** -/
theorem stands_read (hp : p.Sound) (t : Text) : Stands [] p (p.read t) t := by
  induction hlen : t.length using Nat.strongRecOn generalizing t with
  | _ n ih =>
    subst hlen
    cases t with
    | nil => rw [read]; exact .nil
    | cons c t =>
      cases hf : p.first? (c :: t) with
      | none =>
        rw [read_cons_of_none hf]
        exact .plain (ih t.length (by simp) t rfl)
      | some m =>
        obtain ⟨s, rest⟩ := m
        rw [read_of_some hp hf]
        obtain ⟨before, color, after, q, hp', hq, ht, hbefore⟩ := first?_eq_some hf
        have hm : (s, color) ∈ p := by rw [hp']; simp
        have hfind : p.find? (fun e => e.1.isSame e.2 q) = some (s, color) := by
          refine List.find?_eq_some_iff_append.2 ⟨hq, before, after, hp', fun e he => ?_⟩
          have hnone := hbefore e he
          rw [ht, hp.rest?_append hm (by rw [hp']; simp [he]) hq] at hnone
          simpa using hnone
        obtain ⟨d, tail, rfl, -⟩ := (hp.isColor hm hq).eq_cons
        have hshort : rest.length < (c :: t).length := by
          rw [ht, List.length_append, List.length_cons]
          omega
        rw [ht]
        exact .waiting hfind (ih rest.length hshort rest rfl)

end Palette

namespace Stands

variable {done todo : Palette} {l : List Piece} {t q r : Text}

/-- What a color is found to stand for is an entry that waits, and the color one of its spellings. -/
theorem waiting_mem {e : StandIn × Text} (hq : todo.find? (fun e => e.1.isSame e.2 q) = some e) :
    e ∈ todo ∧ e.1.isSame e.2 q = true :=
  ⟨List.mem_of_find?_eq_some hq, by simpa using List.find?_some hq⟩

/-- **Digits in front of the text are plain characters** if a digit stands before them or they are six:
no color begins with a digit, nothing written begins with six, and none stands behind a digit. -/
theorem plain_digits (hp : (done ++ todo).Sound) (h : Stands done todo l t) {behind : Bool}
    (ha : isApart behind l = true) (hq : ∀ d ∈ q, isHexDigit d = true)
    (hl : behind = true ∨ 6 ≤ q.length) (ht : t = q ++ r) : ∃ l', l = q.map .plain ++ l' := by
  induction q generalizing l t behind with
  | nil => exact ⟨l, rfl⟩
  | cons d q ih =>
    have hd := hq d (List.mem_cons_self ..)
    cases h with
    | nil => simp at ht
    | plain h =>
      rw [List.cons_append] at ht
      obtain ⟨rfl, hrest⟩ := List.cons.inj ht
      rw [isApart, hd] at ha
      obtain ⟨l', rfl⟩ := ih h ha (fun x hx => hq x (List.mem_cons_of_mem _ hx)) (.inl rfl) hrest
      exact ⟨l', rfl⟩
    | waiting hfind h =>
      obtain ⟨he, hsame⟩ := waiting_mem hfind
      obtain ⟨c, tail, rfl, hc, -⟩ := (hp.isColor (List.mem_append_right _ he) hsame).eq_cons
      rw [(List.cons.inj ht).1, Color.isStart_eq_false_of_isHexDigit hd] at hc
      exact Bool.noConfusion hc
    | written he h =>
      rename_i e l t
      rw [isApart, Bool.and_eq_true, Bool.not_eq_true'] at ha
      obtain ⟨front, c, back, hw, hlen, hc⟩ :=
        (hp.written _ (List.mem_append_left _ he)).exists_break
      have hsix := hl.resolve_left (by rw [ha.1]; simp)
      rw [hw, List.append_assoc, List.cons_append] at ht
      obtain ⟨u, hu, -⟩ := Fade.digits_before hq hc ht.symm
      have := congrArg List.length hu
      simp only [List.length_append, List.length_cons] at this hsix
      omega

/-- **The characters of a computed color in front of the text are plain characters:** no color begins
with one of them, and no call does. -/
theorem plain_numerals (hp : (done ++ todo).Sound) (h : Stands done todo l t)
    (hcalls : ∀ e ∈ done, e.1.isCall = true)
    (hq : ∀ d ∈ q, Color.isStart d = false ∧ d ≠ 'f') (ht : t = q ++ r) :
    ∃ l', l = q.map .plain ++ l' := by
  induction q generalizing l t with
  | nil => exact ⟨l, rfl⟩
  | cons d q ih =>
    obtain ⟨hstart, hf⟩ := hq d (List.mem_cons_self ..)
    rw [List.cons_append] at ht
    cases h with
    | nil => simp at ht
    | plain h =>
      obtain ⟨rfl, hrest⟩ := List.cons.inj ht
      obtain ⟨l', rfl⟩ := ih h (fun x hx => hq x (List.mem_cons_of_mem _ hx)) hrest
      exact ⟨l', rfl⟩
    | waiting hfind h =>
      obtain ⟨he, hsame⟩ := waiting_mem hfind
      obtain ⟨c, tail, rfl, hc, -⟩ := (hp.isColor (List.mem_append_right _ he) hsame).eq_cons
      rw [(List.cons.inj ht).1, hstart] at hc
      exact Bool.noConfusion hc
    | written he h =>
      have hcall := hp.written _ (List.mem_append_left _ he)
      rw [StandIn.IsWritten, if_pos (hcalls _ he)] at hcall
      obtain ⟨rest, hrest⟩ := Fade.IsCall.eq_cons hcall
      rw [hrest] at ht
      exact absurd (List.cons.inj ht).1.symm hf

/-- **A color that begins at a plain character is spelled by plain characters.** -/
theorem exists_eq_append_of_begins {c : Char} (hp : (done ++ todo).Sound)
    (h : Stands done todo l t) {behind : Bool} (ha : isApart behind (.plain c :: l) = true)
    {e : StandIn × Text} (he : e ∈ done ++ todo) (hcalls : e.1.isComputed = true → ∀ e' ∈ done, e'.1.isCall = true)
    (hq : e.1.isSame e.2 q = true) (ht : c :: t = q ++ r) :
    ∃ l', .plain c :: l = q.map .plain ++ l' := by
  have hform := (hp.color e he).of_isSame hq
  unfold StandIn.HasColor at hform
  rw [isApart] at ha
  split at hform
  · next hcomputed =>
    obtain ⟨tail, rfl, htail⟩ := hform.eq_cons
    obtain ⟨rfl, hrest⟩ := List.cons.inj ht
    obtain ⟨l', rfl⟩ := h.plain_numerals hp (hcalls hcomputed) htail hrest
    exact ⟨l', rfl⟩
  · obtain ⟨ds, rfl, hlen, hds⟩ := Color.isSixDigit_iff.1 hform
    obtain ⟨rfl, hrest⟩ := List.cons.inj ht
    obtain ⟨l', rfl⟩ := h.plain_digits hp ha hds (.inr (by omega)) hrest
    exact ⟨l', rfl⟩

/-- **At a plain character no color begins.** -/
theorem rest?_eq_none {c : Char} (hp : (done ++ todo).Sound)
    (hclear : (done ++ todo).Clear (.plain c :: l)) {behind : Bool}
    (ha : isApart behind (.plain c :: l) = true) (h : Stands done todo l t) {e : StandIn × Text}
    (he : e ∈ done ++ todo) (hcalls : e.1.isComputed = true → ∀ e' ∈ done, e'.1.isCall = true) :
    e.1.rest? e.2 (c :: t) = none := by
  by_contra hn
  obtain ⟨r, hr⟩ := Option.ne_none_iff_exists'.1 hn
  obtain ⟨q, hq, ht⟩ := StandIn.rest?_eq_some.1 hr
  obtain ⟨l', hl'⟩ := h.exists_eq_append_of_begins hp ha he hcalls hq ht
  exact hclear e he q hq [] l' hl'

end Stands

/-! ### A pass -/

namespace Stands

variable {done todo : Palette} {l : List Piece} {t : Text}

/-- **A pass puts one more color back,** and leaves the others alone. -/
theorem pass {e : StandIn × Text} (hp : (done ++ e :: todo).Sound)
    (hclear : (done ++ e :: todo).Clear l) {behind : Bool} (ha : isApart behind l = true)
    (h : Stands done (e :: todo) l t) : Stands (done ++ [e]) todo l (StandIn.pass t e) := by
  have he : e ∈ done ++ e :: todo := by simp
  have hcalls : e.1.isComputed = true → ∀ e' ∈ done, e'.1.isCall = true := fun hc e' he' =>
    (List.pairwise_append.1 hp.order).2.2 e' he' e (List.mem_cons_self ..) hc
  induction h generalizing behind with
  | nil => rw [StandIn.pass, replaceMatches]; exact .nil
  | @plain c l t h ih =>
    rw [StandIn.pass, replaceMatches_of_none (by rw [h.rest?_eq_none hp hclear ha he hcalls]; rfl)]
    exact .plain (ih hclear.tail (by rw [isApart] at ha; exact ha))
  | @waiting e' q l t hfind h ih =>
    rw [isApart, Bool.and_eq_true] at ha
    have hrest := ih hclear.tail ha.2
    obtain ⟨he', hsame⟩ := waiting_mem hfind
    have hm : e' ∈ done ++ e :: todo := List.mem_append_right _ he'
    obtain ⟨c, tail, hcons, -, htail⟩ := (hp.isColor hm hsame).eq_cons
    by_cases hq : e.1.isSame e.2 q = true
    · -- its turn has come
      rw [List.find?_cons, hq] at hfind
      obtain rfl := Option.some.inj hfind
      rw [StandIn.pass, replaceMatches_of_some (by simp [hcons])
        (by rw [hp.rest?_append he he hq, if_pos hq]; rfl)]
      exact .written (by simp) hrest
    · have hfalse : e.1.isSame e.2 q = false := by simpa using hq
      rw [List.find?_cons, hfalse] at hfind
      have hskip : StandIn.pass (q ++ t) e = q ++ StandIn.pass t e := by
        refine replaceMatches_skip_of_none fun front back hw hb => ?_
        cases front with
        | nil =>
          rw [← List.nil_append back, ← hw, hp.rest?_append hm he hsame, if_neg hq]
          rfl
        | cons d front =>
          obtain ⟨x, back, rfl⟩ := List.exists_cons_of_ne_nil hb
          have hx : x ∈ tail := by
            rw [hcons] at hw
            rw [(List.cons.inj hw).2]
            simp
          rw [List.cons_append, hp.rest?_of_not_isStart he (htail x hx)]
          rfl
      rw [hskip]
      exact .waiting hfind hrest
  | @written e' l t he' h ih =>
    rw [isApart, Bool.and_eq_true] at ha
    have hskip : StandIn.pass (e'.1.written ++ t) e = e'.1.written ++ StandIn.pass t e :=
      replaceMatches_skip_of_none fun front back hw hb => by
        rw [hp.rest?_written he (List.mem_append_left _ he') (fun hc => hcalls hc e' he') hw hb]
        rfl
    rw [hskip]
    exact .written (List.mem_append_left _ he') (ih hclear.tail ha.2)

/-- **The passes of a palette leave nothing waiting.** -/
theorem foldl_pass (hp : (done ++ todo).Sound) (hclear : (done ++ todo).Clear l) {behind : Bool}
    (ha : isApart behind l = true) (h : Stands done todo l t) :
    Stands (done ++ todo) [] l (todo.foldl StandIn.pass t) := by
  induction todo generalizing done t with
  | nil => rwa [List.append_nil]
  | cons e todo ih =>
    have hsplit : done ++ e :: todo = done ++ [e] ++ todo := by simp
    have hpass := h.pass hp hclear ha
    rw [hsplit] at hp hclear ⊢
    exact ih hp hclear hpass

/-- Where nothing waits, everything is written. -/
theorem eq_writeOut {p : Palette} (h : Stands p [] l t) : t = writeOut l := by
  induction h with
  | nil => rfl
  | plain h ih => rw [ih]; rfl
  | waiting hq h ih => simp at hq
  | written he h ih => rw [ih]; rfl

/-- **No color in digits is left.** -/
theorem occurs_eq_false {p : Palette} (hp : p.Sound) (hclear : p.Clear l) {behind : Bool}
    (ha : isApart behind l = true) (h : Stands p [] l t) {e : StandIn × Text} (he : e ∈ p)
    (hdigits : e.1.isComputed = false) : e.1.occurs e.2 t = false := by
  have hnot : ¬ e.1.isComputed = true := by rw [hdigits]; simp
  have hp' : (p ++ []).Sound := by rwa [List.append_nil]
  induction h generalizing behind with
  | nil => rfl
  | @plain c l t h ih =>
    have hnone := h.rest?_eq_none hp' (by rwa [List.append_nil]) ha (List.mem_append_left _ he)
      fun hc => absurd hc hnot
    rw [StandIn.occurs, hnone, ih hclear.tail (by rw [isApart] at ha; exact ha)]
    rfl
  | waiting hq h ih => simp at hq
  | @written e' l t he' h ih =>
    rw [isApart, Bool.and_eq_true] at ha
    rw [StandIn.occurs_append_of_none fun front back hw hb =>
      hp.rest?_written he he' (fun hc => absurd hc hnot) hw hb t]
    exact ih hclear.tail ha.2

end Stands

namespace Palette

/-- **The passes write what a single reading finds,** and no color in digits is left. -/
theorem foldl_pass_eq {p : Palette} (hp : p.Sound) {t : Text} (ha : isApart false (p.read t) = true) :
    p.foldl StandIn.pass t = writeOut (p.read t) ∧
      ∀ e ∈ p, e.1.isComputed = false → e.1.occurs e.2 (writeOut (p.read t)) = false := by
  have h := (stands_read hp t).foldl_pass (by rwa [List.nil_append])
    (by rw [List.nil_append]; exact clear_read hp t) ha
  rw [List.nil_append] at h
  have heq := h.eq_writeOut
  refine ⟨heq, fun e he hdigits => ?_⟩
  rw [heq] at h
  exact h.occurs_eq_false hp (clear_read hp t) ha he hdigits

end Palette

end Theme
end ThemeSheet
