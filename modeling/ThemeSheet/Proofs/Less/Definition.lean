/-
# Definitions in front of a text

A text that does not end in the middle of a definition is split into its definitions
and the rest before the text behind it is: no definition reaches over the line end
between them.
-/

import ThemeSheet.Proofs.Less.Import
import ThemeSheet.Proofs.Text.Lines
import ThemeSheet.Proofs.Text.Split

namespace ThemeSheet
namespace Less
namespace Evaluator

open Text

/-! ### Runs in front of a stop -/

/-- A text is a run of blanks, or a run of blanks and a character that is none. -/
theorem blank_cases (t : Text) :
    (∀ c ∈ t, isBlank c = true) ∨
      ∃ blanks c rest, t = blanks ++ c :: rest ∧ (∀ d ∈ blanks, isBlank d = true) ∧
        isBlank c = false := by
  induction t with
  | nil => exact .inl (by simp)
  | cons c t ih =>
    cases hc : isBlank c with
    | false => exact .inr ⟨[], c, t, rfl, by simp, hc⟩
    | true =>
      rcases ih with h | ⟨blanks, d, rest, rfl, hb, hd⟩
      · exact .inl (by simpa [hc] using h)
      · exact .inr ⟨c :: blanks, d, rest, rfl, by simpa [hc] using hb, hd⟩

/-- Leaving out the blanks at the beginning stops at the first other character. -/
theorem dropWhile_blanks {blanks rest : Text} {c : Char} (hb : ∀ d ∈ blanks, isBlank d = true)
    (hc : isBlank c = false) : (blanks ++ c :: rest).dropWhile isBlank = c :: rest :=
  dropWhile_run hb fun _ hd => Option.some.inj hd ▸ hc

/-- The blanks at the beginning go up to the first other character. -/
theorem takeWhile_blanks {blanks rest : Text} {c : Char} (hb : ∀ d ∈ blanks, isBlank d = true)
    (hc : isBlank c = false) : (blanks ++ c :: rest).takeWhile isBlank = blanks :=
  takeWhile_run hb fun _ hd => Option.some.inj hd ▸ hc

/-! ### Comments -/

/-- Does a line begin with two slashes, blanks aside?  `lineStart` when a line begins here. -/
def hasLineComment (lineStart : Bool) : Text → Bool
  | [] => false
  | c :: t => (lineStart && beginsWith "//".toList ((c :: t).dropWhile isBlank)) ||
    hasLineComment (c = '\n') t

/-- A text without comment lines stays as it is. -/
theorem dropLineComments_of_none {b : Bool} {t : Text} (h : hasLineComment b t = false) :
    dropLineComments b t = t := by
  induction t generalizing b with
  | nil => simp [dropLineComments]
  | cons c t ih =>
    rw [hasLineComment, Bool.or_eq_false_iff, Bool.and_eq_false_iff] at h
    have hnone : (if b then dropPrefix? "//".toList ((c :: t).dropWhile isBlank) else none) = none := by
      cases b with
      | false => rfl
      | true =>
        have := h.1.resolve_left (by simp)
        rwa [beginsWith, Option.isSome_eq_false_iff, Option.isNone_iff_eq_none] at this
    rw [dropLineComments, hnone, ih h.2]

/-- No line comment is made by a text without slashes. -/
theorem beginsWith_slashes_append {s z : Text} (hz : '/' ∉ z)
    (hs : beginsWith "//".toList (s.dropWhile isBlank) = false) :
    beginsWith "//".toList ((s ++ z).dropWhile isBlank) = false := by
  rw [show "//".toList = ['/', '/'] from rfl] at hs ⊢
  by_contra hn
  obtain ⟨r, hr⟩ := beginsWith_iff.1 ((Bool.not_eq_false _).mp hn)
  rcases blank_cases s with hb | ⟨blanks, c, rest, rfl, hb, hc⟩
  · rw [List.dropWhile_append_of_pos hb] at hr
    exact hz ((List.dropWhile_sublist _).subset (by rw [hr]; simp))
  · rw [List.append_assoc, List.cons_append, dropWhile_blanks hb hc] at hr
    rw [dropWhile_blanks hb hc] at hs
    cases rest with
    | nil => exact hz (by rw [show z = '/' :: r from (List.cons.inj hr).2]; simp)
    | cons d rest =>
      obtain ⟨rfl, hr'⟩ := List.cons.inj hr
      obtain ⟨rfl, -⟩ := List.cons.inj hr'
      simp [beginsWith, dropPrefix?] at hs

/-- Without slashes, there are no comment lines. -/
theorem hasLineComment_of_noSlash {b : Bool} {z : Text} (hz : '/' ∉ z) :
    hasLineComment b z = false := by
  induction z generalizing b with
  | nil => rfl
  | cons c z ih =>
    have hfirst := beginsWith_slashes_append (s := []) hz rfl
    rw [List.nil_append] at hfirst
    rw [hasLineComment, hfirst, Bool.and_false, Bool.false_or,
      ih fun hm => hz (List.mem_cons_of_mem _ hm)]

/-- **A text without slashes adds no line comment.** -/
theorem hasLineComment_append {b : Bool} {t z : Text} (h : hasLineComment b t = false) (hz : '/' ∉ z) :
    hasLineComment b (t ++ z) = false := by
  induction t generalizing b with
  | nil => exact hasLineComment_of_noSlash hz
  | cons c t ih =>
    rw [hasLineComment, Bool.or_eq_false_iff, Bool.and_eq_false_iff] at h
    rw [List.cons_append, hasLineComment, ih h.2, Bool.or_false, Bool.and_eq_false_iff]
    exact h.1.imp id (beginsWith_slashes_append hz)

/-! ### Definitions -/

/-- Is a colon the last character that is no blank? -/
def endsOpen (t : Text) : Bool := (t.reverse.dropWhile isBlank).head? == some ':'

/-- **The last character that is no blank decides:** a text that ends with a semicolon or a curly
bracket and blanks does not end open. -/
theorem endsOpen_append {front blanks : Text} {c : Char} (hc : isBlank c = false)
    (hb : ∀ d ∈ blanks, isBlank d = true) : endsOpen (front ++ c :: blanks) = (c == ':') := by
  have : (front ++ c :: blanks).reverse.dropWhile isBlank = c :: front.reverse := by
    rw [List.reverse_append, List.reverse_cons, List.append_assoc,
      List.dropWhile_append_of_pos fun d hd => hb d (List.mem_reverse.1 hd)]
    simp [hc]
  rw [endsOpen, this]
  rfl

/-- Where a colon is not the last character of a text, it is not that of its end. -/
theorem endsOpen_tail {c : Char} {t : Text} (h : endsOpen (c :: t) = false) : endsOpen t = false := by
  by_contra hn
  rw [Bool.not_eq_false, endsOpen, beq_iff_eq] at hn
  obtain ⟨rest, hrest⟩ := List.head?_eq_some_iff.1 hn
  have : t.reverse = t.reverse.takeWhile isBlank ++ ':' :: rest := by
    rw [← hrest, List.takeWhile_append_dropWhile]
  have ht : c :: t = (c :: rest.reverse) ++ ':' :: (t.reverse.takeWhile isBlank).reverse := by
    rw [← t.reverse_reverse]
    conv => lhs; rw [this]
    simp
  rw [ht, endsOpen_append (by decide) fun d hd => List.mem_takeWhile_imp (List.mem_reverse.1 hd)] at h
  exact Bool.noConfusion h

/-- The same for a longer beginning that is left out. -/
theorem endsOpen_of_append {p t : Text} (h : endsOpen (p ++ t) = false) : endsOpen t = false := by
  induction p with
  | nil => exact h
  | cons c p ih => exact ih (endsOpen_tail h)

/-! What the readers of definitions leave is an end of what they look at. -/

/-- The end of a definition takes a character at least. -/
theorem endOfDefinition?_eq_some {t rest : Text} {b : Bool} (h : endOfDefinition? t = some (b, rest)) :
    ∃ p, p ≠ [] ∧ t = p ++ rest := by
  unfold endOfDefinition? at h
  split at h
  · next t =>
    have ht : t = t.takeWhile isBlank ++ t.dropWhile isBlank := (List.takeWhile_append_dropWhile).symm
    dsimp only at h
    split at h
    · obtain ⟨-, rfl⟩ := Prod.mk.inj (Option.some.inj h)
      exact ⟨';' :: t, by simp, by simp⟩
    · obtain ⟨⟨before, after⟩, hcut, he⟩ := Option.map_eq_some_iff.1 h
      obtain ⟨-, rfl⟩ := Prod.mk.inj he
      obtain ⟨u, hu, hc⟩ := lastCut?_eq_some hcut
      rw [dropPrefix?_eq_some.1 hc] at hu
      refine ⟨';' :: before, by simp, ?_⟩
      conv => lhs; rw [ht, hu]
      simp
  · simp at h

/-- The value of a definition takes a character at least. -/
theorem definedValue?_eq_some {t value rest : Text} {b : Bool}
    (h : definedValue? t = some (value, b, rest)) : ∃ p, p ≠ [] ∧ t = p ++ rest := by
  induction t generalizing value with
  | nil => simp [definedValue?] at h
  | cons c t ih =>
    rw [definedValue?] at h
    split at h
    · next after hafter =>
      obtain ⟨-, rfl⟩ := Prod.mk.inj (Option.some.inj h)
      exact endOfDefinition?_eq_some hafter
    · split at h
      · simp at h
      · obtain ⟨⟨value', after⟩, hv, he⟩ := Option.map_eq_some_iff.1 h
        obtain ⟨-, rfl⟩ := Prod.mk.inj he
        obtain ⟨p, -, rfl⟩ := ih hv
        exact ⟨c :: p, by simp, rfl⟩

/-- A definition takes a character at least. -/
theorem definition?_eq_some {t rest : Text} {found : Text × Text} {b : Bool}
    (h : definition? t = some (found, b, rest)) : ∃ p, p ≠ [] ∧ t = p ++ rest := by
  unfold definition? at h
  split at h
  · next s hs =>
    dsimp only at h
    split at h
    · next rest' hcolon =>
      split at h
      · simp at h
      · obtain ⟨⟨value, after⟩, hv, he⟩ := Option.map_eq_some_iff.1 h
        obtain ⟨-, rfl⟩ := Prod.mk.inj he
        obtain ⟨p, hp, hrest⟩ := definedValue?_eq_some hv
        have hvalue : rest' = rest'.takeWhile isBlank ++ (p ++ rest) := by
          rw [← hrest, List.takeWhile_append_dropWhile]
        have hname : s = s.takeWhile isNameChar ++
            ((s.dropWhile isNameChar).takeWhile isBlank ++ ':' :: rest') := by
          rw [← hcolon, List.takeWhile_append_dropWhile, List.takeWhile_append_dropWhile]
        have hstart : t = t.takeWhile isBlank ++ '@' :: s := by
          rw [← hs, List.takeWhile_append_dropWhile]
        refine ⟨t.takeWhile isBlank ++ '@' :: s.takeWhile isNameChar ++
          (s.dropWhile isNameChar).takeWhile isBlank ++ ':' :: rest'.takeWhile isBlank ++ p,
          by simp, ?_⟩
        conv => lhs; rw [hstart, hname, hvalue]
        simp
    · simp at h
  · simp at h

/-- The end of a definition in front of a line end leaves the line end and what follows it. -/
theorem endOfDefinition?_append {t z rest : Text} {b : Bool} {d : Char} (hd : isBlank d = false)
    (h : endOfDefinition? (';' :: (t ++ '\n' :: d :: z)) = some (b, rest)) :
    ∃ v, rest = v ++ '\n' :: d :: z := by
  rcases blank_cases t with hb | ⟨blanks, c, s, rfl, hb, hc⟩
  · have hall : ∀ e ∈ t ++ ['\n'], isBlank e = true := by
      intro e he
      rcases List.mem_append.1 he with he | he
      · exact hb e he
      · rw [List.mem_singleton.1 he]; decide
    have hsplit : t ++ '\n' :: d :: z = (t ++ ['\n']) ++ d :: z := by simp
    rw [hsplit, endOfDefinition?] at h
    simp only [takeWhile_blanks hall hd, dropWhile_blanks hall hd, lastCut?_last, Option.map_some,
      Option.some.injEq, Prod.mk.injEq] at h
    exact ⟨[], by rw [← h.2]; rfl⟩
  · rw [List.append_assoc, List.cons_append, endOfDefinition?] at h
    simp only [takeWhile_blanks hb hc, dropWhile_blanks hb hc] at h
    obtain ⟨⟨before, after⟩, -, he⟩ := Option.map_eq_some_iff.1 h
    obtain ⟨-, rfl⟩ := Prod.mk.inj he
    exact ⟨'\n' :: after ++ c :: s, by simp⟩

/-- A value that ends in front of a line end leaves the line end and what follows it. -/
theorem definedValue?_append {t z value rest : Text} {b : Bool} {d : Char} (hd : isBlank d = false)
    (h : definedValue? (t ++ '\n' :: d :: z) = some (value, b, rest)) :
    ∃ v, rest = v ++ '\n' :: d :: z := by
  induction t generalizing value with
  | nil => simp [definedValue?, endOfDefinition?] at h
  | cons c t ih =>
    rw [List.cons_append, definedValue?] at h
    split at h
    · next after hafter =>
      obtain ⟨-, rfl⟩ := Prod.mk.inj (Option.some.inj h)
      by_cases hc : c = ';'
      · subst hc
        exact endOfDefinition?_append hd hafter
      · rw [endOfDefinition?.eq_2 _ (by simpa using hc)] at hafter
        simp at hafter
    · split at h
      · simp at h
      · obtain ⟨⟨value', after⟩, hv, he⟩ := Option.map_eq_some_iff.1 h
        obtain ⟨-, rfl⟩ := Prod.mk.inj he
        exact ih hv

/-- A line feed is no name character. -/
theorem isNameChar_lineEnd : isNameChar '\n' = false := by decide

/-- **A definition that begins in a text ends in it,** if the text does not end with a colon. -/
theorem definition?_append {t z rest : Text} {found : Text × Text} {b : Bool} (ht : endsOpen t = false)
    (h : definition? (t ++ '\n' :: '@' :: z) = some (found, b, rest)) :
    (∀ c ∈ t, isBlank c = true) ∨ ∃ v, rest = v ++ '\n' :: '@' :: z := by
  rcases blank_cases t with hb | ⟨blanks, c, s, rfl, hb, hc⟩
  · exact .inl hb
  refine .inr ?_
  rw [List.append_assoc, List.cons_append, definition?, dropWhile_blanks hb hc] at h
  split at h
  · next s' hs =>
    obtain ⟨rfl, rfl⟩ := List.cons.inj hs
    dsimp only at h
    rw [dropWhile_stop isNameChar_lineEnd] at h
    have hat : isBlank '@' = false := by decide
    split at h
    · next rest' hcolon =>
      split at h
      · simp at h
      · obtain ⟨⟨value, after⟩, hv, he⟩ := Option.map_eq_some_iff.1 h
        obtain ⟨-, rfl⟩ := Prod.mk.inj he
        -- the colon stands in the text, and so does something behind it
        rcases blank_cases (s.dropWhile isNameChar) with hb' | ⟨blanks', c', s', hs', hb', hc'⟩
        · rw [List.dropWhile_append_of_pos hb'] at hcolon
          simp [show isBlank '\n' = true by decide, hat] at hcolon
        · rw [hs', List.append_assoc, List.cons_append, dropWhile_blanks hb' hc'] at hcolon
          obtain ⟨rfl, rfl⟩ := List.cons.inj hcolon
          have hs : s = s.takeWhile isNameChar ++ (blanks' ++ ':' :: s') := by
            rw [← hs', List.takeWhile_append_dropWhile]
          rcases blank_cases s' with hb'' | ⟨blanks'', c'', s'', rfl, hb'', hc''⟩
          · rw [hs] at ht
            rw [show blanks ++ '@' :: (s.takeWhile isNameChar ++ (blanks' ++ ':' :: s')) =
              (blanks ++ '@' :: s.takeWhile isNameChar ++ blanks') ++ ':' :: s' by simp,
              endsOpen_append (by decide) hb''] at ht
            exact Bool.noConfusion ht
          · rw [List.append_assoc, List.cons_append, dropWhile_blanks hb'' hc''] at hv
            exact definedValue?_append (t := c'' :: s'') hat hv
    · simp at h
  · simp at h

/-- A definition at the beginning of a line comes first among the definitions. -/
theorem splitDefinitions_of_some {b : Bool} {c : Char} {t rest : Text} {found : Text × Text}
    (h : definition? (c :: t) = some (found, b, rest)) :
    splitDefinitions true (c :: t) = (found :: (splitDefinitions b rest).1,
      (splitDefinitions b rest).2) := by
  obtain ⟨p, hp, ht⟩ := definition?_eq_some h
  have hlen : rest.length ≤ t.length := by
    have := congrArg List.length ht
    have := List.length_pos_iff.2 hp
    simp at *
    omega
  rw [splitDefinitions, if_pos rfl, h]
  exact if_pos hlen

/-- A character at which no definition begins stays. -/
theorem splitDefinitions_of_none {b : Bool} {c : Char} {t : Text}
    (h : (if b then definition? (c :: t) else none) = none) :
    splitDefinitions b (c :: t) =
      ((splitDefinitions (c = '\n') t).1, c :: (splitDefinitions (c = '\n') t).2) := by
  rw [splitDefinitions, h]

/-- **The definitions of two texts are those of the first and those of the second.** -/
theorem splitDefinitions_append {t : Text} (ht : endsOpen t = false) (z : Text) (b : Bool) :
    ∃ pairs body, splitDefinitions b (t ++ '\n' :: '@' :: z) =
      (pairs ++ (splitDefinitions true ('@' :: z)).1,
        body ++ (splitDefinitions true ('@' :: z)).2) := by
  have hblank : ∀ s : Text, (∀ c ∈ s, isBlank c = true) →
      definition? (s ++ '\n' :: '@' :: z) = definition? ('@' :: z) := by
    intro s hs
    have : (s ++ '\n' :: '@' :: z).dropWhile isBlank = ('@' :: z).dropWhile isBlank := by
      rw [List.dropWhile_append_of_pos hs]
      simp [show isBlank '\n' = true by decide]
    rw [definition?, definition?, this]
  induction hlen : t.length using Nat.strongRecOn generalizing t b with
  | _ n ih =>
    subst hlen
    obtain ⟨c, s, hcs⟩ : ∃ c s, t ++ '\n' :: '@' :: z = c :: s := by
      cases t <;> exact ⟨_, _, rfl⟩
    cases hd : (if b then definition? (c :: s) else none) with
    | none =>
      rw [hcs, splitDefinitions_of_none hd]
      cases t with
      | nil =>
        obtain ⟨rfl, rfl⟩ := List.cons.inj hcs
        exact ⟨[], ['\n'], rfl⟩
      | cons d t =>
        obtain ⟨rfl, rfl⟩ := List.cons.inj hcs
        obtain ⟨pairs, body, hs⟩ := ih t.length (by simp) (endsOpen_tail ht) (d = '\n') rfl
        refine ⟨pairs, d :: body, ?_⟩
        rw [List.append_eq, hs]
        rfl
    | some m =>
      obtain ⟨found, b', rest⟩ := m
      obtain ⟨rfl, hfound⟩ := Option.ite_none_right_eq_some.1 hd
      rw [hcs, splitDefinitions_of_some hfound]
      rw [← hcs] at hfound
      rcases definition?_append ht hfound with hb | ⟨v, rfl⟩
      · -- only blanks are left: it is the first definition of the second text
        rw [hblank t hb] at hfound
        exact ⟨[], [], by rw [splitDefinitions_of_some hfound]; rfl⟩
      · obtain ⟨p, hp, hpv⟩ := definition?_eq_some hfound
        rw [← List.append_assoc] at hpv
        obtain rfl := List.append_cancel_right hpv
        have hshort : v.length < (p ++ v).length := by
          have := List.length_pos_iff.2 hp
          simp
          omega
        obtain ⟨pairs, body, hs⟩ := ih v.length hshort (endsOpen_of_append ht) b' rfl
        exact ⟨found :: pairs, body, by rw [hs]; rfl⟩

end Evaluator
end Less
end ThemeSheet
