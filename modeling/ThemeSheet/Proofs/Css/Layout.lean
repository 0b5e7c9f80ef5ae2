/-
# The passes that shorten a style sheet

Dropping blank lines and joining lines only touches blanks, and only behind a few
characters: a line feed, an opening brace, a semicolon, a comma.  The four passes that
join lines are spacings, and together they are one spacing that leaves its own result
alone; it empties no line.
-/

import ThemeSheet.Css.Minify
import ThemeSheet.Proofs.Text.Spacing
import ThemeSheet.Proofs.Text.Split

namespace ThemeSheet
namespace Css

open Text

/-! ### Tightening -/

/-- The second text is the first with blanks left out, or a space put in, behind the characters
`joints` only.  The character before both texts is given. -/
inductive Tightens (joints : List Char) : Char → Text → Text → Prop
  | nil {p : Char} : Tightens joints p [] []
  | keep {p c : Char} {t u : Text} : Tightens joints c t u → Tightens joints p (c :: t) (c :: u)
  | drop {p c : Char} {t u : Text} : p ∈ joints → isBlank c = true → Tightens joints p t u →
      Tightens joints p (c :: t) u
  | put {p : Char} {t u : Text} : p ∈ joints → Tightens joints ' ' t u → Tightens joints p t (' ' :: u)

section Tightens
variable {joints : List Char} {p : Char} {t u : Text}

/-- A run that stays, whatever stands before it. -/
theorem Tightens.keepAll (h : ∀ p, Tightens joints p t u) (run : Text) (p : Char) :
    Tightens joints p (run ++ t) (run ++ u) := by
  induction run generalizing p with
  | nil => exact h p
  | cons c run ih => exact .keep (ih c)

/-- A text tightens to itself. -/
theorem Tightens.refl (t : Text) (p : Char) : Tightens joints p t t := by
  induction t generalizing p with
  | nil => exact .nil
  | cons c t ih => exact .keep (ih c)

/-- A run of blanks that goes. -/
theorem Tightens.dropAll (hp : p ∈ joints) {run : Text} (hrun : ∀ c ∈ run, isBlank c = true)
    (h : Tightens joints p t u) : Tightens joints p (run ++ t) u := by
  induction run with
  | nil => exact h
  | cons c run ih =>
    exact .drop hp (hrun c (List.mem_cons_self ..)) (ih fun d hd => hrun d (List.mem_cons_of_mem _ hd))

/-- **A spacing that leaves a run, drops it behind a joint or puts one space there tightens.** -/
theorem tightens_respace {f : Spacing}
    (hf : ∀ before run behind, f before run behind = run ∨
      ∃ p ∈ joints, before = some p ∧ (f before run behind = [] ∨ f before run behind = [' ']))
    (t : Text) : Tightens joints ' ' t (respace f t) := by
  -- What happens to a run, once the text behind it is tightened whatever stands before.
  have hrun : ∀ (before : Option Char) (run : Text) (behind : Option Char) {t u : Text},
      (∀ c ∈ run, isBlank c = true) → (∀ p, Tightens joints p t u) →
      Tightens joints (before.getD ' ') (run ++ t) (f before run behind ++ u) := by
    intro before run behind t u hblank h
    rcases hf before run behind with he | ⟨p, hp, rfl, he | he⟩ <;> rw [he]
    · exact .keepAll h run _
    · exact .dropAll hp hblank (h p)
    · exact .dropAll hp hblank (.put hp (h ' '))
  suffices h : ∀ (before : Option Char) (run : Text), (∀ c ∈ run, isBlank c = true) →
      Tightens joints (before.getD ' ') (run ++ t) (respaceFrom f before run t) from
    h none [] (List.forall_mem_nil _)
  induction t with
  | nil =>
    intro before run hblank
    have := hrun before run none hblank fun _ => Tightens.nil
    rwa [List.append_nil (f before run none)] at this
  | cons c t ih =>
    intro before run hblank
    cases hc : isBlank c with
    | true =>
      rw [respaceFrom_of_blank hc]
      have := ih before (run ++ [c]) (List.forall_mem_append.2 ⟨hblank, List.forall_mem_singleton.2 hc⟩)
      rwa [List.append_assoc] at this
    | false =>
      rw [respaceFrom_of_not_blank hc]
      exact hrun before run (some c) hblank fun _ => .keep (ih (some c) [] (List.forall_mem_nil _))

end Tightens

/-! ### Blank lines -/

/-- Every line but the last holds a character that is no blank; `fresh` when the characters before
the text on its first line, if any, are blanks. -/
def Filled (fresh : Bool) : Text → Prop
  | [] => True
  | c :: t => if c = '\n' then fresh = false ∧ Filled true t else Filled (fresh && isBlank c) t

section Filled
variable {fresh : Bool} {t u : Text}

/-- A line that ends must hold a character that is no blank. -/
theorem filled_lineFeed : Filled fresh ('\n' :: t) ↔ fresh = false ∧ Filled true t := by
  rw [Filled, if_pos rfl]

/-- A character that is no line feed belongs to the line. -/
theorem filled_cons {c : Char} (hc : c ≠ '\n') : Filled fresh (c :: t) ↔ Filled (fresh && isBlank c) t := by
  rw [Filled, if_neg hc]

/-- A text that is filled from the beginning of a line is filled behind other characters. -/
theorem Filled.weaken (h : Filled true t) : Filled false t := by
  induction t with
  | nil => trivial
  | cons c t ih =>
    by_cases hc : c = '\n'
    · rw [hc, filled_lineFeed] at h
      exact absurd h.1 (by simp)
    · rw [filled_cons hc, Bool.true_and] at h
      rw [filled_cons hc, Bool.false_and]
      cases hb : isBlank c <;> rw [hb] at h
      · exact h
      · exact ih h

/-- **Joints that are no blanks empty no line.** -/
theorem Filled.tightens {joints : List Char} {p : Char} (hjoints : ∀ c ∈ joints, isBlank c = false)
    (h : Tightens joints p t u) (hfresh : p ∈ joints → fresh = false) (ht : Filled fresh t) :
    Filled fresh u := by
  induction h generalizing fresh with
  | nil => trivial
  | @keep p c t u _ ih =>
    by_cases hc : c = '\n'
    · rw [hc, filled_lineFeed] at ht ⊢
      exact ⟨ht.1, ih (fun hm => absurd (hjoints c hm) (by rw [hc]; decide)) ht.2⟩
    · rw [filled_cons hc] at ht ⊢
      exact ih (fun hm => by rw [hjoints c hm, Bool.and_false]) ht
  | @drop p c t u hp _ _ ih =>
    obtain rfl := hfresh hp
    by_cases hc : c = '\n'
    · rw [hc, filled_lineFeed] at ht
      exact ih (fun _ => rfl) ht.2.weaken
    · exact ih (fun _ => rfl) ((filled_cons hc).1 ht)
  | put hp _ ih =>
    obtain rfl := hfresh hp
    exact (filled_cons (by decide)).2 (ih (fun _ => rfl) ht)

/-- A text on one line is filled. -/
theorem filled_of_notMem (h : '\n' ∉ t) : Filled fresh t := by
  induction t generalizing fresh with
  | nil => trivial
  | cons c t ih =>
    exact (filled_cons (List.ne_of_not_mem_cons h).symm).2 (ih (List.not_mem_of_not_mem_cons h))

/-- A line is filled exactly if it is not blank. -/
theorem filled_line {line : Text} (h : '\n' ∉ line) :
    Filled fresh (line ++ '\n' :: t) ↔ (fresh && allBlank line) = false ∧ Filled true t := by
  induction line generalizing fresh with
  | nil => rw [List.nil_append, filled_lineFeed, allBlank, List.all_nil, Bool.and_true]
  | cons c line ih =>
    rw [List.cons_append, filled_cons (List.ne_of_not_mem_cons h).symm, ih (List.not_mem_of_not_mem_cons h),
      allBlank, allBlank, List.all_cons, Bool.and_assoc]

end Filled

/-- Leaving out blank lines leaves a line, since the last one stays. -/
theorem dropBlank_ne_nil {ls : List Text} (h : ls ≠ []) : dropBlank ls ≠ [] := by
  fun_induction dropBlank ls with
  | case1 => exact h
  | case2 => simp
  | case3 line next ls hb ih => exact ih (by simp)
  | case4 => simp

/-- Two or more lines, the first of them apart. -/
theorem join_lines (line : Text) {ls : List Text} (h : ls ≠ []) :
    join ['\n'] (line :: ls) = line ++ '\n' :: join ['\n'] ls := by
  obtain ⟨next, ls, rfl⟩ := List.exists_cons_of_ne_nil h
  rw [join, List.append_assoc]
  rfl

/-- **Dropping blank lines tightens behind line feeds.** -/
theorem tightens_withoutBlankLines (t : Text) : Tightens ['\n'] '\n' t (withoutBlankLines t) := by
  suffices h : ∀ ls, Tightens ['\n'] '\n' (join ['\n'] ls) (join ['\n'] (dropBlank ls)) by
    have := h (lines t)
    rwa [lines, join_splitOn] at this
  intro ls
  have hmem : '\n' ∈ ['\n'] := List.mem_singleton_self _
  fun_induction dropBlank ls with
  | case1 => exact .nil
  | case2 line => exact .refl line _
  | case3 line next ls hb ih =>
    rw [join_lines line (by simp)]
    exact .dropAll hmem (List.all_eq_true.1 hb) (.drop hmem rfl ih)
  | case4 line next ls hb ih =>
    rw [join_lines line (by simp), join_lines line (dropBlank_ne_nil (by simp))]
    exact .keepAll (fun _ => .keep ih) line _

/-- Without blank lines, every line but the last is filled. -/
theorem filled_withoutBlankLines (t : Text) : Filled true (withoutBlankLines t) := by
  suffices h : ∀ ls : List Text, (∀ line ∈ ls, '\n' ∉ line) → Filled true (join ['\n'] (dropBlank ls)) from
    h (lines t) fun _ hl => (mem_splitOn hl).1
  intro ls hls
  fun_induction dropBlank ls with
  | case1 => trivial
  | case2 line => exact filled_of_notMem (hls line (List.mem_singleton_self _))
  | case3 line next ls hb ih => exact ih fun l hl => hls l (List.mem_cons_of_mem _ hl)
  | case4 line next ls hb ih =>
    rw [join_lines line (dropBlank_ne_nil (by simp)), filled_line (hls line (List.mem_cons_self ..))]
    exact ⟨by simpa using hb, ih fun l hl => hls l (List.mem_cons_of_mem _ hl)⟩

/-- **A text whose lines are filled has no blank lines to drop.** -/
theorem withoutBlankLines_of_filled {t : Text} (h : Filled true t) : withoutBlankLines t = t := by
  suffices hls : ∀ ls : List Text, (∀ line ∈ ls, '\n' ∉ line) → Filled true (join ['\n'] ls) → dropBlank ls = ls by
    rw [withoutBlankLines, hls (lines t) (fun _ hl => (mem_splitOn hl).1)]
    · exact join_splitOn '\n' t
    · rwa [lines, join_splitOn]
  intro ls hls hf
  fun_induction dropBlank ls with
  | case1 => rfl
  | case2 line => rfl
  | case3 line next ls hb ih =>
    rw [join_lines line (by simp), filled_line (hls line (List.mem_cons_self ..))] at hf
    exact absurd hf.1 (by simp [hb])
  | case4 line next ls hb ih =>
    rw [join_lines line (by simp), filled_line (hls line (List.mem_cons_self ..))] at hf
    rw [ih (fun l hl => hls l (List.mem_cons_of_mem _ hl)) hf.2]

/-! ### Joining lines -/

/-- Behind `mark`, a run of at least two blanks that begins with a line end goes. -/
def behind (mark : Char) : Spacing := fun before run _ =>
  if before = some mark ∧ (lineEnd? run).isSome ∧ 2 ≤ run.length then [] else run

/-- A line end alone between `a` and `b` gives way. -/
def between (a b : Char) (new : Text) : Spacing := fun before run behind =>
  if before = some a ∧ behind = some b ∧ lineEnd? run = some [] then new else run

section Run
variable {run t : Text}

/-- No line ends at another character. -/
theorem lineEnd?_of_ne {c : Char} (hn : c ≠ '\n') (hr : c ≠ '\r') (t : Text) : lineEnd? (c :: t) = none := by
  simp [lineEnd?, hn, hr]

/-- A carriage return alone ends a line. -/
theorem lineEnd?_return (ht : t.head? ≠ some '\n') : lineEnd? ('\r' :: t) = some t := by
  cases t with
  | nil => rfl
  | cons c t =>
    have hc : c ≠ '\n' := fun h => ht (by rw [h]; rfl)
    simp [lineEnd?, hc]

/-- A line end is found alike when what follows does not begin with a blank. -/
theorem lineEnd?_append (ht : ∀ c, t.head? = some c → isBlank c = false) :
    lineEnd? (run ++ t) = (lineEnd? run).map (· ++ t) := by
  have hn : t.head? ≠ some '\n' := fun h => absurd (ht _ h) (by decide)
  cases run with
  | nil =>
    cases t with
    | nil => rfl
    | cons d t =>
      exact lineEnd?_of_ne (fun h => hn (by rw [h]; rfl)) (by rintro rfl; exact absurd (ht _ rfl) (by decide)) t
  | cons c run =>
    by_cases hfeed : c = '\n'
    · rw [hfeed]; rfl
    by_cases hreturn : c = '\r'
    · subst hreturn
      cases run with
      | nil => exact lineEnd?_return hn
      | cons d run =>
        by_cases hd : d = '\n'
        · rw [hd]; rfl
        · rw [lineEnd?_return (by simpa using hd), List.cons_append, lineEnd?_return (by simpa using hd)]
          rfl
    · rw [lineEnd?_of_ne hfeed hreturn, List.cons_append, lineEnd?_of_ne hfeed hreturn]
      rfl

/-- What follows a line end is an end of the text. -/
theorem lineEnd?_suffix {s : Text} (h : lineEnd? t = some s) : s <:+ t := by
  unfold lineEnd? at h
  split at h
  · exact Option.some.inj h ▸ ⟨['\r', '\n'], rfl⟩
  · exact Option.some.inj h ▸ ⟨['\r'], rfl⟩
  · exact Option.some.inj h ▸ ⟨['\n'], rfl⟩
  · exact absurd h (by simp)

/-- A line end in front of a character that is no blank is the whole run before it. -/
theorem lineEnd?_run (hrun : ∀ c ∈ run, isBlank c = true) (ht : ∀ c, t.head? = some c → isBlank c = false)
    {b : Char} (hb : isBlank b = false) {after : Text} :
    lineEnd? (run ++ t) = some (b :: after) ↔ lineEnd? run = some [] ∧ t = b :: after := by
  rw [lineEnd?_append ht]
  constructor
  · intro h
    obtain ⟨rest, hrest, he⟩ := Option.map_eq_some_iff.1 h
    cases rest with
    | nil => exact ⟨hrest, he⟩
    | cons d rest =>
      have hd : isBlank d = true := hrun d ((lineEnd?_suffix hrest).mem (List.mem_cons_self ..))
      rw [(List.cons.inj he).1, hb] at hd
      exact absurd hd (by simp)
  · rintro ⟨hrest, rfl⟩
    rw [hrest]
    rfl

end Run

/-- **Joining behind a mark is a spacing.** -/
theorem joinBehind_eq_respace {mark : Char} (hmark : isBlank mark = false) (t : Text) :
    joinBehind mark t = respace (behind mark) t := by
  refine Spaces.replaceMatches_eq ⟨fun c t hc => if_neg ?_, fun run _ => if_neg (by simp), ?_⟩ t
  · rintro ⟨rfl, -⟩
    exact absurd (hc.symm.trans hmark) (by simp)
  · intro c run t _ hrun ht
    by_cases h : c = mark ∧ (lineEnd? run).isSome ∧ 2 ≤ run.length
    · right
      refine ⟨[], t, rfl, List.forall_mem_nil _, ?_⟩
      rw [behind, if_pos ⟨congrArg some h.1, h.2⟩]
      simp only [takeWhile_run hrun ht, dropWhile_run hrun ht, if_pos h]
      rw [h.1]
      rfl
    · left
      rw [behind, if_neg fun h' => h ⟨Option.some.inj h'.1, h'.2⟩]
      simp only [takeWhile_run hrun ht, if_neg h, and_self]

/-- **Joining between two marks is a spacing.** -/
theorem joinBetween_eq_respace {a b : Char} (ha : isBlank a = false) (hb : isBlank b = false) (hab : b ≠ a)
    (new t : Text) : joinBetween a b new t = respace (between a b new) t := by
  refine Spaces.replaceMatches_eq ⟨fun c t hc => if_neg ?_, fun run _ => if_neg (by simp), ?_⟩ t
  · rintro rfl
    exact absurd (hc.symm.trans ha) (by simp)
  · intro c run t _ hrun ht
    by_cases h : c = a ∧ t.head? = some b ∧ lineEnd? run = some []
    · obtain ⟨rfl, htb, hline⟩ := h
      obtain ⟨after, rfl⟩ : ∃ after, t = b :: after := List.head?_eq_some_iff.1 htb
      right
      refine ⟨[b], after, rfl, List.forall_mem_singleton.2 fun u => if_neg hab, ?_⟩
      rw [between, if_pos ⟨rfl, htb, hline⟩]
      simp only [(lineEnd?_run hrun ht hb).2 ⟨hline, rfl⟩, if_true, List.cons_append]
    · left
      rw [between, if_neg fun h' => h ⟨Option.some.inj h'.1, h'.2⟩]
      refine ⟨?_, rfl⟩
      by_cases hc : c = a
      · cases hline : lineEnd? (run ++ t) with
        | none => simp only [hline, ite_self]
        | some s =>
          cases s with
          | nil => simp only [hline, ite_self]
          | cons d after =>
            have hd : d ≠ b := by
              rintro rfl
              obtain ⟨hrun', rfl⟩ := (lineEnd?_run hrun ht hb).1 hline
              exact h ⟨hc, rfl, hrun'⟩
            simp only [hline, if_neg hd, ite_self]
      · exact if_neg hc

/-- The four passes that join lines. -/
def joins : Spacing :=
  (((behind '\x7b').andThen (between ';' '\x7d' [])).andThen (behind ';')).andThen (between ',' '.' [' '])

/-- The characters behind which lines are joined. -/
def joinMarks : List Char := ['\x7b', ';', ',']

/-- Behind a mark, only blanks are left of blanks. -/
theorem isBlank_behind (mark : Char) : (behind mark).IsBlank := by
  intro before run after h
  rw [behind]
  split
  · exact List.forall_mem_nil _
  · exact h

/-- Between two marks, only blanks are left of blanks. -/
theorem isBlank_between (a b : Char) {new : Text} (hnew : ∀ c ∈ new, isBlank c = true) :
    (between a b new).IsBlank := by
  intro before run after h
  rw [between]
  split
  · exact hnew
  · exact h

/-- The passes that join lines leave only blanks of blanks. -/
theorem isBlank_joins : joins.IsBlank :=
  (((isBlank_behind _).andThen (isBlank_between _ _ (List.forall_mem_nil _))).andThen (isBlank_behind _)).andThen
    (isBlank_between _ _ (by decide))

/-- **The short layout is one spacing** of what has no comments and no blank lines. -/
theorem minify_eq_respace (t : Text) : minify t = respace joins (withoutBlankLines (withoutComments t)) := by
  have hbrace := isBlank_behind '\x7b'
  have hclose := hbrace.andThen (isBlank_between ';' '\x7d' (List.forall_mem_nil _))
  rw [minify, joinBehind_eq_respace (by decide), joinBetween_eq_respace (by decide) (by decide) (by decide),
    joinBehind_eq_respace (by decide), joinBetween_eq_respace (by decide) (by decide) (by decide),
    respace_respace hbrace, respace_respace hclose, respace_respace (hclose.andThen (isBlank_behind ';'))]
  rfl

/-- The passes that join lines, one after the other. -/
theorem joins_eq (before : Option Char) (run : Text) (after : Option Char) :
    joins before run after =
      between ',' '.' [' '] before
        (behind ';' before (between ';' '\x7d' [] before (behind '\x7b' before run after) after) after) after :=
  rfl

/-- Behind another character than a mark nothing is joined. -/
theorem joins_of_notMem {before : Option Char} (h : ∀ p ∈ joinMarks, before ≠ some p) (run : Text)
    (after : Option Char) : joins before run after = run := by
  simp only [joinMarks, List.forall_mem_cons] at h
  simp only [joins_eq, behind, between, h, false_and, if_false]

/-- Where no line ends at the beginning of a run, nothing is joined. -/
theorem joins_of_lineEnd?_eq_none {run : Text} (hnone : lineEnd? run = none) (before after : Option Char) :
    joins before run after = run := by
  have hbehind (mark : Char) : behind mark before run after = run :=
    if_neg fun h => absurd h.2.1 (by simp [hnone])
  have hbetween (a b : Char) (new : Text) : between a b new before run after = run :=
    if_neg fun h => absurd (hnone.symm.trans h.2.2) (by simp)
  rw [joins_eq, hbehind, hbetween, hbehind, hbetween]

/-- **What joining puts in the place of a run**: the run, nothing or a space, and both only behind a mark. -/
theorem joins_cases (before : Option Char) (run : Text) (after : Option Char) :
    joins before run after = run ∨
      ∃ p ∈ joinMarks, before = some p ∧ (joins before run after = [] ∨ joins before run after = [' ']) := by
  by_cases h : ∃ p ∈ joinMarks, before = some p
  · obtain ⟨p, hp, rfl⟩ := h
    have : joins (some p) run after = run ∨ joins (some p) run after = [] ∨ joins (some p) run after = [' '] := by
      grind [joins_eq, behind, between]
    exact this.imp id fun he => ⟨p, hp, rfl, he⟩
  · exact .inl (joins_of_notMem (fun p hp he => h ⟨p, hp, he⟩) run after)

/-- **Joining what has been joined changes nothing**: no pass finds a line end in what another has put in. -/
theorem joins_andThen_joins : joins.andThen joins = joins := by
  have hnil : lineEnd? [] = none := rfl
  have hspace : lineEnd? [' '] = none := rfl
  funext before run after
  by_cases h : ∃ p ∈ joinMarks, before = some p
  · obtain ⟨p, hp, rfl⟩ := h
    grind [joins_eq, Spacing.andThen, behind, between, joinMarks]
  · rw [Spacing.andThen, joins_of_notMem fun p hp he => h ⟨p, hp, he⟩]

end Css
end ThemeSheet
