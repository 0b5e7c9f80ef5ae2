/-
# Paths and their written forms

A path is read back from its written form: a text names a path whose names are not
empty, are no single dots and hold no slashes, and such a path is the one that its
written form names.  A suffix that is put behind a text goes to the last name of the
path, as long as the text ends with a name, and so does one that is put behind the
written form.
-/

import ThemeSheet.Proofs.File.Place
import ThemeSheet.Proofs.Text.Split

namespace ThemeSheet

namespace Text

/-- **What is put behind a text belongs to its last piece.** -/
theorem splitOn_append_of_last {sep : Char} {t s name : Text} {front : List Text} (hs : sep ∉ s)
    (h : splitOn sep t = front ++ [name]) : splitOn sep (t ++ s) = front ++ [name ++ s] := by
  have hpieces : ∀ piece ∈ front ++ [name], sep ∉ piece := fun piece hpiece => (mem_splitOn (h ▸ hpiece)).1
  have hjoin : t ++ s = join [sep] (front ++ [name ++ s]) := by
    rw [join_append _ _ (List.cons_ne_nil _ _), join, ← List.append_assoc]
    congr 1
    rw [← join_splitOn sep t, h, join_append _ _ (List.cons_ne_nil _ _), join]
  rw [hjoin, splitOn_join (by simp)]
  rw [List.forall_mem_append, List.forall_mem_singleton] at hpieces ⊢
  exact ⟨hpieces.1, List.not_mem_append hpieces.2 hs⟩

/-- Separators at the beginning stand before empty pieces. -/
theorem splitOn_replicate_append (sep : Char) (n : Nat) (t : Text) :
    splitOn sep (List.replicate n sep ++ t) = List.replicate n [] ++ splitOn sep t := by
  induction n with
  | zero => rfl
  | succ n ih => rw [List.replicate_succ, List.cons_append, splitOn, if_pos rfl, ih]; rfl

/-- A text ends with another one exactly if something stands before it. -/
theorem endsWith_iff {s t : Text} : endsWith s t = true ↔ ∃ front, t = front ++ s := by
  rw [endsWith, beginsWith_iff]
  constructor
  · rintro ⟨r, hr⟩
    exact ⟨r.reverse, by rw [← List.reverse_reverse t, hr, List.reverse_append, List.reverse_reverse]⟩
  · rintro ⟨front, rfl⟩
    exact ⟨front.reverse, List.reverse_append⟩

/-- **A text ends as its last piece does,** up to the separator. -/
theorem endsWith_last {sep : Char} {t s name : Text} (hs : sep ∉ s) (h : (splitOn sep t).getLast? = some name) :
    endsWith s t = endsWith s name := by
  rw [Bool.eq_iff_iff, endsWith_iff, endsWith_iff]
  constructor
  · rintro ⟨front, rfl⟩
    obtain ⟨pieces, piece, hsplit⟩ := splitOn_append_last hs front
    rw [hsplit, List.getLast?_concat] at h
    exact ⟨piece, (Option.some.inj h).symm⟩
  · rintro ⟨front, rfl⟩
    have hpieces := List.dropLast_append_getLast? _ h
    rw [← join_splitOn sep t, ← hpieces, join_append _ _ (List.cons_ne_nil _ _), join, ← List.append_assoc]
    exact ⟨_, rfl⟩

end Text

open Text

/-! ### Where a path begins -/

namespace Anchor

/-- An anchor is written as slashes. -/
theorem written_eq_replicate (a : Anchor) : a.written = List.replicate a.written.length '/' := by
  cases a <;> rfl

/-- **An anchor is read back** in front of a name. -/
theorem ofText_written {c : Char} (hc : c ≠ '/') (a : Anchor) (t : Text) : ofText (a.written ++ c :: t) = a := by
  cases a <;> simp [ofText, written, hc]

/-- What stands behind a name says nothing about the anchor. -/
theorem ofText_append {c : Char} {t : Text} (hc : c ≠ '/') (h : c ∈ t) (s : Text) : ofText (t ++ s) = ofText t := by
  have htake : (t ++ s).takeWhile (· == '/') = t.takeWhile (· == '/') := by
    obtain ⟨before, after, rfl⟩ := List.append_of_mem h
    rw [List.append_assoc, List.cons_append]
    induction before with
    | nil => simp [hc]
    | cons d before ih => by_cases hd : d = '/' <;> simp_all
  rw [ofText, ofText, htake]

end Anchor

namespace Path

variable {p q : Path} {t s name : Text}

/-- **A path that a text can name:** its names are not empty, are no single dots and hold no slashes. -/
def IsProper (p : Path) : Prop := ∀ part ∈ p.parts, isName part = true ∧ '/' ∉ part

/-- The path that a text names is one that a text can name. -/
theorem isProper_ofText (t : Text) : (ofText t).IsProper := fun _ hpart =>
  let ⟨hmem, hname⟩ := List.mem_filter.1 hpart
  ⟨hname, (mem_splitOn hmem).1⟩

/-- Such paths joined are such a path. -/
theorem IsProper.join (hp : p.IsProper) (hq : q.IsProper) : (p.join q).IsProper := by
  cases habsolute : q.isAbsolute with
  | true => rwa [join_of_absolute _ habsolute]
  | false =>
    rw [join_of_relative _ habsolute]
    exact List.forall_mem_append.2 ⟨hp, hq⟩

/-- The pieces of the written form: empty ones for the slashes of the anchor, and the names. -/
theorem splitOn_written (hp : p.IsProper) (hne : p.parts ≠ []) :
    splitOn '/' p.written = List.replicate p.anchor.written.length [] ++ p.parts := by
  rw [written, if_neg fun h => hne h.2, Anchor.written_eq_replicate, splitOn_replicate_append,
    List.length_replicate, splitOn_join hne fun _ hpart => (hp _ hpart).2]

/-- **A path is read back from its written form.** -/
theorem ofText_written (hp : p.IsProper) : ofText p.written = p := by
  obtain ⟨anchor, parts⟩ := p
  cases parts with
  | nil => cases anchor <;> decide
  | cons part parts =>
    obtain ⟨hname, hslash⟩ := hp part (List.mem_cons_self ..)
    have hnames : (splitOn '/' (written ⟨anchor, part :: parts⟩)).filter isName = part :: parts := by
      rw [splitOn_written hp (List.cons_ne_nil _ _), List.filter_append,
        List.filter_eq_nil_iff.2 fun piece hpiece => by rw [List.eq_of_mem_replicate hpiece]; decide]
      exact List.filter_eq_self.2 fun piece hpiece => (hp piece hpiece).1
    rw [isName, decide_eq_true_iff] at hname
    obtain ⟨c, rest, rfl⟩ := List.exists_cons_of_ne_nil hname.1
    have hbegin : ∃ behind, written ⟨anchor, (c :: rest) :: parts⟩ = anchor.written ++ c :: behind := by
      rw [written, if_neg fun h => List.cons_ne_nil _ _ h.2]
      cases parts with
      | nil => exact ⟨rest, rfl⟩
      | cons next parts => exact ⟨rest ++ ['/'] ++ Text.join ['/'] (next :: parts), by rw [Text.join]; rfl⟩
    obtain ⟨behind, hbehind⟩ := hbegin
    rw [ofText, hnames, hbehind, Anchor.ofText_written fun hc => hslash (hc ▸ List.mem_cons_self ..)]

/-! ### A suffix behind the last name -/

/-- The path with a suffix behind its last name. -/
def extend (p : Path) (s : Text) : Path := ⟨p.anchor, p.parts.dropLast ++ (p.parts.getLast?.map (· ++ s)).toList⟩

/-- A name with a suffix is a name. -/
theorem isName_append (h : isName name = true) (s : Text) : isName (name ++ s) = true := by
  rw [isName, decide_eq_true_iff] at h ⊢
  refine ⟨fun hnil => h.1 (List.append_eq_nil_iff.1 hnil).1, fun hdot => ?_⟩
  rcases List.append_eq_singleton_iff.1 hdot with ⟨hname, -⟩ | ⟨hname, -⟩
  · exact h.1 hname
  · exact h.2 hname

/-- The suffix comes behind the last name. -/
theorem extend_of_getLast? (h : p.parts.getLast? = some name) (s : Text) :
    p.extend s = ⟨p.anchor, p.parts.dropLast ++ [name ++ s]⟩ := by
  rw [extend, h]
  rfl

/-- Such a path with a suffix without slashes is such a path. -/
theorem IsProper.extend (hp : p.IsProper) (hs : '/' ∉ s) : (p.extend s).IsProper := by
  rw [Path.extend]
  refine List.forall_mem_append.2 ⟨fun part hpart => hp part (List.dropLast_subset _ hpart), fun part hpart => ?_⟩
  obtain ⟨name, hname, rfl⟩ := Option.map_eq_some_iff.1 (Option.mem_toList.1 hpart)
  obtain ⟨hproper, hslash⟩ := hp name (List.mem_of_getLast? hname)
  exact ⟨isName_append hproper s, List.not_mem_append hslash hs⟩

/-- **A suffix behind the written form** goes to the last name. -/
theorem written_extend (h : p.parts.getLast? = some name) (s : Text) : (p.extend s).written = p.written ++ s := by
  have hparts := List.dropLast_append_getLast? name h
  have hne : p.parts ≠ [] := List.ne_nil_of_mem (List.mem_of_getLast? h)
  rw [extend_of_getLast? h, written, written, if_neg (by simp), if_neg fun hh => hne hh.2, ← hparts,
    join_append _ _ (List.cons_ne_nil _ _), join_append _ _ (List.cons_ne_nil _ _)]
  simp [Text.join]

/-- **A suffix behind a text that ends with a name** goes to that name. -/
theorem ofText_append (h : (splitOn '/' t).getLast? = some name) (hname : isName name = true) (hs : '/' ∉ s) :
    (ofText t).parts.getLast? = some name ∧ ofText (t ++ s) = (ofText t).extend s := by
  have hsplit := (List.dropLast_append_getLast? _ h).symm
  have hfilter (last : Text) (hlast : isName last = true) :
      ((splitOn '/' t).dropLast ++ [last]).filter isName = (splitOn '/' t).dropLast.filter isName ++ [last] := by
    rw [List.filter_append, List.filter_singleton, hlast]
    rfl
  have hparts : (ofText t).parts = (splitOn '/' t).dropLast.filter isName ++ [name] := by
    rw [← hfilter name hname, ← hsplit]
    rfl
  have hlast : (ofText t).parts.getLast? = some name := by rw [hparts, List.getLast?_concat]
  refine ⟨hlast, ?_⟩
  have hmem := mem_splitOn (List.mem_of_getLast? h)
  obtain ⟨c, rest, hc⟩ := List.exists_cons_of_ne_nil (of_decide_eq_true hname).1
  have hslash : c ≠ '/' := fun he => hmem.1 (by rw [hc, he]; exact List.mem_cons_self ..)
  rw [extend_of_getLast? hlast, hparts, List.dropLast_concat, ← hfilter _ (isName_append hname s),
    ← splitOn_append_of_last hs hsplit]
  exact congrArg (Path.mk · _) (Anchor.ofText_append hslash (hmem.2 c (by rw [hc]; exact List.mem_cons_self ..)) s)

/-- A suffix goes to the last name of the path that is taken from a place. -/
theorem join_extend (hne : q.parts ≠ []) (s : Text) : (p.join q).extend s = p.join (q.extend s) := by
  cases habsolute : q.isAbsolute with
  | true => rw [join_of_absolute _ habsolute, join_of_absolute p (q := q.extend s) habsolute]
  | false =>
    rw [join_of_relative _ habsolute, join_of_relative p (q := q.extend s) habsolute, extend, extend]
    simp [List.dropLast_append_of_ne_nil hne, List.getLast?_append_of_ne_nil _ hne]

/-- **The written form of a path ends as its last name does.** -/
theorem endsWith_written (hp : p.IsProper) (h : p.parts.getLast? = some name) (hs : '/' ∉ s) :
    endsWith s p.written = endsWith s name := by
  have hne : p.parts ≠ [] := List.ne_nil_of_mem (List.mem_of_getLast? h)
  refine endsWith_last hs ?_
  rw [splitOn_written hp hne, List.getLast?_append_of_ne_nil _ hne, h]

end Path
end ThemeSheet
