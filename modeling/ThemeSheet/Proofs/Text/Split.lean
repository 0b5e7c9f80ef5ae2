/-
# Cutting texts apart and joining them

The run at the beginning of a text, where a text occurs in another, the pieces of a
text between separators, texts joined with a separator, and texts without the blanks
at their ends, each for texts that are put together.
-/

import Mathlib.Data.List.TakeWhile
import ThemeSheet.Text.Blank

namespace ThemeSheet
namespace Text

/-! ### Runs -/

section Run
variable {α : Type} {p : α → Bool} {run l : List α}

/-- **The run that is taken** in front of what ends it. -/
theorem takeWhile_run (hrun : ∀ a ∈ run, p a = true) (hl : ∀ a, l.head? = some a → p a = false) :
    (run ++ l).takeWhile p = run := by
  rw [List.takeWhile_append_of_pos hrun]
  cases l with
  | nil => exact List.append_nil run
  | cons a l => rw [List.takeWhile_cons_of_neg (by simp [hl a rfl]), List.append_nil]

/-- Leaving out a run stops where the run ends. -/
theorem dropWhile_run (hrun : ∀ a ∈ run, p a = true) (hl : ∀ a, l.head? = some a → p a = false) :
    (run ++ l).dropWhile p = l := by
  rw [List.dropWhile_append_of_pos hrun]
  cases l with
  | nil => rfl
  | cons a l => rw [List.dropWhile_cons_of_neg (by simp [hl a rfl])]

/-- A run is taken where one begins. -/
theorem takeWhile_ne_nil (h : l.head?.any p = true) : l.takeWhile p ≠ [] := by
  obtain ⟨a, ha, hp⟩ := (Option.any_eq_true ..).1 h
  obtain ⟨l, rfl⟩ := List.head?_eq_some_iff.1 ha
  rw [List.takeWhile_cons_of_pos hp]
  exact List.cons_ne_nil a _

/-- A run that is not empty begins with its property. -/
theorem head?_any_run (hne : run ≠ []) (hrun : ∀ a ∈ run, p a = true) (l : List α) :
    (run ++ l).head?.any p = true := by
  obtain ⟨a, run, rfl⟩ := List.exists_cons_of_ne_nil hne
  exact hrun a (List.mem_cons_self ..)

/-- A run ends at what ends it, whatever follows. -/
theorem dropWhile_stop {p : Char → Bool} {c : Char} (hc : p c = false) (t z : Text) :
    (t ++ c :: z).dropWhile p = t.dropWhile p ++ c :: z := by
  induction t with
  | nil => simp [hc]
  | cons d t ih => cases hd : p d <;> simp [hd, ih]

end Run

/-- **A text is taken up to its first mark.** -/
theorem takeWhile_mark {x : Char} {w : Text} (hw : x ∉ w) (rest : Text) :
    (w ++ x :: rest).takeWhile (· != x) = w :=
  takeWhile_run (fun y hy => by rw [bne_iff_ne]; rintro rfl; exact hw hy) (by simp)

/-- Leaving out a text without a mark stops at the mark. -/
theorem dropWhile_mark {x : Char} {w : Text} (hw : x ∉ w) (rest : Text) :
    (w ++ x :: rest).dropWhile (· != x) = x :: rest :=
  dropWhile_run (fun y hy => by rw [bne_iff_ne]; rintro rfl; exact hw hy) (by simp)

/-- **Two readings of a text up to its first mark** are the same. -/
theorem append_mark_inj {x : Char} {a b c d : Text} (ha : x ∉ a) (hc : x ∉ c)
    (h : a ++ x :: b = c ++ x :: d) : a = c ∧ b = d := by
  have hfront : a = c := by rw [← takeWhile_mark ha b, h, takeWhile_mark hc d]
  subst hfront
  exact ⟨rfl, (List.cons.inj (List.append_cancel_left h)).2⟩

/-! ### Occurrences -/

/-- A needle occurs in a text exactly if the text is the needle with something on both sides. -/
theorem occursIn_iff {needle t : Text} : occursIn needle t = true ↔ ∃ a b, t = a ++ needle ++ b := by
  induction t with
  | nil =>
    rw [occursIn, beginsWith_iff]
    constructor
    · rintro ⟨r, hr⟩
      exact ⟨[], r, by simpa using hr⟩
    · rintro ⟨a, b, h⟩
      exact ⟨[], by simp_all⟩
  | cons c t ih =>
    rw [occursIn, Bool.or_eq_true, beginsWith_iff, ih]
    constructor
    · rintro (⟨r, hr⟩ | ⟨a, b, rfl⟩)
      · exact ⟨[], r, by simpa using hr⟩
      · exact ⟨c :: a, b, rfl⟩
    · rintro ⟨a, b, h⟩
      cases a with
      | nil => exact .inl ⟨b, by simpa using h⟩
      | cons d a => exact .inr ⟨a, b, (List.cons.inj h).2⟩

/-- A text without a certain character lies on one side of it. -/
theorem infix_of_infix_mark {x : Char} {d a b : Text} (hx : x ∉ d) (h : d <:+: a ++ x :: b) :
    d <:+: a ∨ d <:+: b := by
  obtain ⟨front, back, h⟩ := h
  rcases List.append_eq_append_iff.1 h with ⟨w, rfl, -⟩ | ⟨w, hd, hb⟩
  · exact .inl ⟨front, w, rfl⟩
  · cases w with
    | nil => exact .inl ⟨front, [], by rw [hd, List.append_nil, List.append_nil]⟩
    | cons y w =>
      obtain ⟨rfl, rfl⟩ := List.cons.inj hb
      rcases List.append_eq_append_iff.1 hd with ⟨v, -, rfl⟩ | ⟨v, rfl, hv⟩
      · exact absurd (by simp) hx
      · cases v with
        | nil => exact absurd ((show _ = d from hv) ▸ List.mem_cons_self ..) hx
        | cons y v => exact .inr ⟨v, back, by rw [(List.cons.inj hv).2]; rfl⟩

/-! ### Pieces -/

/-- A text without separators is its only part. -/
theorem splitOn_of_notMem {sep : Char} {t : Text} (h : sep ∉ t) : splitOn sep t = [t] := by
  induction t with
  | nil => rfl
  | cons c t ih =>
    have hc : ¬ c = sep := fun he => h (he ▸ List.mem_cons_self ..)
    rw [splitOn, if_neg hc, ih fun hm => h (List.mem_cons_of_mem _ hm)]

/-- What stands before the first separator is the first part. -/
theorem splitOn_append {sep : Char} {t : Text} (h : sep ∉ t) (rest : Text) :
    splitOn sep (t ++ sep :: rest) = t :: splitOn sep rest := by
  induction t with
  | nil => rw [List.nil_append, splitOn, if_pos rfl]
  | cons c t ih =>
    have hc : ¬ c = sep := fun he => h (he ▸ List.mem_cons_self ..)
    rw [List.cons_append, splitOn, if_neg hc, ih fun hm => h (List.mem_cons_of_mem _ hm)]

/-- **The last piece ends as the text does.** -/
theorem splitOn_append_last {sep : Char} {s : Text} (h : sep ∉ s) (t : Text) :
    ∃ front piece, splitOn sep (t ++ s) = front ++ [piece ++ s] := by
  induction t with
  | nil => exact ⟨[], [], splitOn_of_notMem h⟩
  | cons c t ih =>
    obtain ⟨front, piece, hs⟩ := ih
    rw [List.cons_append, splitOn, hs]
    split
    · exact ⟨[] :: front, piece, rfl⟩
    · cases front with
      | nil => exact ⟨[], c :: piece, rfl⟩
      | cons first front => exact ⟨(c :: first) :: front, piece, rfl⟩

/-- **A piece holds no separator,** and nothing that is not in the text. -/
theorem mem_splitOn {sep : Char} {t piece : Text} (h : piece ∈ splitOn sep t) :
    sep ∉ piece ∧ ∀ c ∈ piece, c ∈ t := by
  induction t generalizing piece with
  | nil =>
    rw [splitOn, List.mem_singleton] at h
    simp [h]
  | cons c t ih =>
    obtain ⟨first, rest, hs⟩ := List.exists_cons_of_ne_nil (splitOn_ne_nil sep t)
    rw [splitOn] at h
    split at h
    · rcases List.mem_cons.1 h with rfl | h
      · simp
      · exact ⟨(ih h).1, fun d hd => List.mem_cons_of_mem _ ((ih h).2 d hd)⟩
    · next hc =>
      rw [hs] at h ih
      rcases List.mem_cons.1 h with rfl | h
      · have hfirst := ih (List.mem_cons_self ..)
        exact ⟨fun hm => (List.mem_cons.1 hm).elim (fun he => hc he.symm) hfirst.1,
          fun d hd => List.mem_cons.2 ((List.mem_cons.1 hd).imp id (hfirst.2 d))⟩
      · have hrest := ih (List.mem_cons_of_mem _ h)
        exact ⟨hrest.1, fun d hd => List.mem_cons_of_mem _ (hrest.2 d hd)⟩

/-! ### Joining -/

/-- **Splitting undoes joining** where no text holds the separator. -/
theorem splitOn_join {sep : Char} {l : List Text} (hne : l ≠ []) (h : ∀ t ∈ l, sep ∉ t) :
    splitOn sep (join [sep] l) = l := by
  induction l with
  | nil => exact absurd rfl hne
  | cons t l ih =>
    have ht := h t (List.mem_cons_self ..)
    cases l with
    | nil => exact splitOn_of_notMem ht
    | cons u l =>
      rw [join, List.append_assoc, List.singleton_append, splitOn_append ht,
        ih (by simp) fun v hv => h v (List.mem_cons_of_mem _ hv)]

/-- Texts with the separator behind each of them. -/
theorem join_append (sep : Text) (front : List Text) {l : List Text} (h : l ≠ []) :
    join sep (front ++ l) = front.flatMap (· ++ sep) ++ join sep l := by
  induction front with
  | nil => rfl
  | cons t front ih =>
    obtain ⟨u, rest, hu⟩ := List.exists_cons_of_ne_nil (show front ++ l ≠ [] by simp [h])
    rw [List.cons_append, hu, join, ← hu, ih]
    simp

/-- Parts joined and closed by the separator are parts closed one by one. -/
theorem join_end (sep : Text) {l : List Text} (h : l ≠ []) :
    join sep l ++ sep = l.flatMap (· ++ sep) := by
  induction l with
  | nil => exact absurd rfl h
  | cons t l ih =>
    cases l with
    | nil => simp [join]
    | cons u l =>
      rw [join, List.append_assoc, ih (by simp)]
      simp

/-- Texts with the separator before each of them. -/
theorem join_begin (sep : Text) {l : List Text} (h : l ≠ []) :
    sep ++ join sep l = l.flatMap (sep ++ ·) := by
  induction l with
  | nil => exact absurd rfl h
  | cons t l ih =>
    cases l with
    | nil => simp [join]
    | cons u l =>
      rw [join, List.append_assoc t, ih (by simp)]
      simp

/-- What is joined holds nothing but the texts and the separator. -/
theorem mem_join {sep : Text} {l : List Text} {c : Char} (h : c ∈ join sep l) :
    c ∈ sep ∨ ∃ t ∈ l, c ∈ t := by
  induction l with
  | nil => exact absurd h List.not_mem_nil
  | cons t l ih =>
    have ht := List.mem_cons_self (a := t) (l := l)
    cases l with
    | nil => exact .inr ⟨t, ht, h⟩
    | cons u l =>
      rw [join, List.append_assoc, List.mem_append, List.mem_append] at h
      rcases h with h | h | h
      · exact .inr ⟨t, ht, h⟩
      · exact .inl h
      · rcases ih h with h | ⟨v, hv, hc⟩
        · exact .inl h
        · exact .inr ⟨v, List.mem_cons_of_mem _ hv, hc⟩

/-- **A text without the separator lies in one of the texts that are joined.** -/
theorem exists_infix_of_infix_join {sep : Char} {d : Text} {l : List Text} (hd : sep ∉ d) (hne : d ≠ [])
    (h : d <:+: join [sep] l) : ∃ t ∈ l, d <:+: t := by
  induction l with
  | nil => exact absurd (List.infix_nil.1 h) hne
  | cons t l ih =>
    cases l with
    | nil => exact ⟨t, List.mem_cons_self .., h⟩
    | cons u l =>
      rw [join, List.append_assoc, List.singleton_append] at h
      rcases infix_of_infix_mark hd h with h | h
      · exact ⟨t, List.mem_cons_self .., h⟩
      · obtain ⟨v, hv, h⟩ := ih h
        exact ⟨v, List.mem_cons_of_mem _ hv, h⟩

/-- A part stands in the joined text. -/
theorem infix_join {sep : Text} {t : Text} {l : List Text} (h : t ∈ l) : t <:+: join sep l := by
  induction l with
  | nil => exact absurd h List.not_mem_nil
  | cons u l ih =>
    cases l with
    | nil =>
      obtain rfl := List.mem_singleton.1 h
      exact List.infix_refl t
    | cons v l =>
      rw [join]
      rcases List.mem_cons.1 h with rfl | h
      · exact ⟨[], sep ++ join sep (v :: l), by simp⟩
      · exact (ih h).trans (List.suffix_append (u ++ sep) _).isInfix

/-- Joining what has been joined with the same separator. -/
theorem join_map_join (sep : Text) {ls : List (List Text)} (h : ∀ l ∈ ls, l ≠ []) :
    join sep (ls.map (join sep)) = join sep ls.flatten := by
  induction ls with
  | nil => rfl
  | cons l ls ih =>
    have ih := ih fun m hm => h m (List.mem_cons_of_mem _ hm)
    cases ls with
    | nil => simp [join]
    | cons m ls =>
      have hrest : (m :: ls).flatten ≠ [] := by
        simp [h m (List.mem_cons_of_mem _ (List.mem_cons_self ..))]
      have hl := h l (List.mem_cons_self ..)
      rw [List.flatten_cons, join_append sep l hrest, ← join_end sep hl, ← ih]
      rfl

/-! ### Blanks at the ends -/

/-- Blanks behind a text are dropped from the end up to its last character. -/
theorem dropWhile_reverse_append {a t b : Text} (ht : ∀ c ∈ t, isBlank c = false) (hne : t ≠ [])
    (hb : ∀ c ∈ b, isBlank c = true) : (a ++ t ++ b).reverse.dropWhile isBlank = (a ++ t).reverse := by
  rcases t.eq_nil_or_concat with rfl | ⟨t, e, rfl⟩
  · exact absurd rfl hne
  · have he : isBlank e = false := ht e (by simp)
    rw [List.reverse_append, List.dropWhile_append_of_pos fun d hd => hb d (List.mem_reverse.1 hd)]
    simp [he]

/-- Blanks on both sides of a text without blanks are left out. -/
theorem strip_append {a t b : Text} (ha : ∀ c ∈ a, isBlank c = true) (ht : ∀ c ∈ t, isBlank c = false)
    (hne : t ≠ []) (hb : ∀ c ∈ b, isBlank c = true) : strip (a ++ t ++ b) = t := by
  obtain ⟨c, t, rfl⟩ := List.exists_cons_of_ne_nil hne
  have hfront : (a ++ c :: t ++ b).dropWhile isBlank = [] ++ c :: t ++ b := by
    rw [List.append_assoc, List.dropWhile_append_of_pos ha, List.cons_append]
    simp [ht c (List.mem_cons_self ..)]
  rw [strip, trim, hfront, dropWhile_reverse_append ht hne hb, List.reverse_reverse, List.nil_append]

/-- **A text that ends with a word and blanks ends with the word when the blanks are gone.** -/
theorem strip_append_last {t b : Text} (ht : ∀ c ∈ t, isBlank c = false) (hne : t ≠ [])
    (hb : ∀ c ∈ b, isBlank c = true) (a : Text) : ∃ a', strip (a ++ t ++ b) = a' ++ t := by
  obtain ⟨a', ha'⟩ : ∃ a', (a ++ t ++ b).dropWhile isBlank = a' ++ t ++ b := by
    induction a with
    | nil =>
      obtain ⟨c, t, rfl⟩ := List.exists_cons_of_ne_nil hne
      exact ⟨[], by simp [ht c (List.mem_cons_self ..)]⟩
    | cons c a ih =>
      cases hc : isBlank c with
      | true => simpa [hc] using ih
      | false => exact ⟨c :: a, by simp [hc]⟩
  exact ⟨a', by rw [strip, trim, ha', dropWhile_reverse_append ht hne hb, List.reverse_reverse]⟩

end Text
end ThemeSheet
