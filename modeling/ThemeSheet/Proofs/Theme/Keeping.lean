/-
# Which other definitions stay

The pass for a variable goes from a definition of it to the last semicolon of the line,
not to the first one, so that definitions of other variables go too where they follow on
that line.  A definition stays just where its semicolon is not the end of such a stretch;
those that stay keep their order, whatever lines their values reach over.
-/

import ThemeSheet.Proofs.Text.InOrder
import ThemeSheet.Proofs.Theme.Definition

namespace ThemeSheet
namespace Theme

open Text Variable

/-- **A name that can stand in a definition:** there is one, on one line, and without a semicolon. -/
structure IsPlainName (name : Text) : Prop where
  ne_nil : name ≠ []
  notMem_feed : '\n' ∉ name
  notMem_semicolon : ';' ∉ name

/-- **A definition of a variable that is not in the list,** up to its first semicolon, in any layout. -/
def IsOtherDefinition (names : List Text) (d : Text) : Prop :=
  ∃ other blanks value, d = other ++ blanks ++ ':' :: value ++ [';'] ∧ IsPlainName other ∧ other ∉ names ∧
    (∀ c ∈ blanks, isBlank c = true) ∧ ';' ∉ value

/-- **Does the text end with a definition of one of the variables?**  There may be semicolons in it. -/
def EndsDefined (names : List Text) (t : Text) : Prop :=
  ∃ name ∈ names, ∃ d, IsDefinition name d ∧ d <:+ t

/-- **Definitions that stand in order in a text** with `before` in front of it, none of them at the end of a
definition of one of the variables. -/
inductive StandClear (names : List Text) : Text → List Text → Text → Prop
  | nil (before t : Text) : StandClear names before [] t
  | cons {before d t : Text} {ds : List Text} (gap : Text) (clear : ¬ EndsDefined names (before ++ gap ++ d))
      (rest : StandClear names (before ++ gap ++ d) ds t) : StandClear names before (d :: ds) (gap ++ d ++ t)

variable {name d l t u : Text} {names : List Text}

/-- A text ends with a definition if its end does. -/
theorem EndsDefined.mono (h : EndsDefined names t) (hu : t <:+ u) : EndsDefined names u := by
  obtain ⟨name, hname, d, hd, hdt⟩ := h
  exact ⟨name, hname, d, hd, hdt.trans hu⟩

/-- A definition up to its first semicolon ends there. -/
theorem IsOtherDefinition.exists_semicolon (h : IsOtherDefinition names d) :
    ∃ front, d = front ++ [';'] ∧ ';' ∉ front := by
  obtain ⟨other, blanks, value, rfl, hother, -, hblanks, hvalue⟩ := h
  have hsemicolon : ';' ∉ blanks := fun hm => absurd (hblanks _ hm) (by decide)
  exact ⟨other ++ blanks ++ ':' :: value, rfl, by simp [hother.notMem_semicolon, hsemicolon, hvalue]⟩

/-! ### Names -/

/-- A name of written characters can stand in a definition. -/
theorem IsPlainName.of_isWrittenNameChar {w : Text} (hw : ∀ c ∈ w, isWrittenNameChar c = true) :
    IsPlainName ('@' :: w) where
  ne_nil := List.cons_ne_nil '@' w
  notMem_feed := List.not_mem_cons_of_ne_of_not_mem (by decide) fun hm => absurd (hw _ hm) (by decide)
  notMem_semicolon := List.not_mem_cons_of_ne_of_not_mem (by decide) fun hm => absurd (hw _ hm) (by decide)

/-- The name of a definition that is read can stand in one. -/
theorem IsPlainName.of_ofLine? {line : Text} {d : Definition} (h : Definition.ofLine? line = some d) :
    IsPlainName d.name := by
  unfold Definition.ofLine? at h
  split at h
  · dsimp only at h
    split at h
    · split at h
      · simp at h
      · obtain ⟨value, -, rfl⟩ := Option.map_eq_some_iff.1 h
        exact .of_isWrittenNameChar fun c hc => List.mem_takeWhile_imp (List.mem_filter.1 hc).1
    · simp at h
  · simp at h

/-- **A variable that has been collected has such a name.** -/
theorem IsPlainName.of_collect {patterns : List Pattern} {content raw value : Text} {known : Variable.Collection}
    (h : Collection.collect (.ok patterns) content raw = .ok known) (hvalue : known.value name = .ok value) :
    IsPlainName name := by
  have hdefined {t : Text} (hname : name ∈ (definitions t).map Definition.name) : IsPlainName name := by
    obtain ⟨d, hd, rfl⟩ := List.mem_map.1 hname
    obtain ⟨line, -, hline⟩ := List.mem_filterMap.1 hd
    exact .of_ofLine? hline
  obtain ⟨colors, hcolors, hknown⟩ := Fallible.bind_eq_ok.1 h
  obtain rfl := Except.ok.inj hknown
  obtain ⟨colors', hcolors', hnames⟩ := colorTable_eq_ok patterns content
  obtain rfl : colors = colors' := Except.ok.inj (hcolors.symm.trans hcolors')
  rw [Collection.value] at hvalue
  split at hvalue
  · next v hv =>
    rw [get?_values] at hv
    rcases Option.or_eq_some_iff.1 hv with hraw | ⟨-, hcolor⟩
    · rw [plainTable] at hraw
      obtain ⟨d, hd, he⟩ := List.mem_map.1 (Table.mem_of_mem_ofList ((Table.mem_entries_iff _).2 hraw))
      exact hdefined (List.mem_map.2 ⟨d, hd, (Prod.mk.inj he).1⟩)
    · exact hdefined (hnames name v hcolor).2.2.2
  · exact absurd hvalue (by simp)

/-! ### The pass for one variable -/

/-- **A definition goes on to every later semicolon of its line.** -/
theorem isDefinition_of_prefix (hname : IsPlainName name) (hl : '\n' ∉ l) (hd : IsDefinition name d)
    (h : d <+: l ++ ';' :: t) : IsDefinition name (l ++ [';']) := by
  obtain ⟨r, h⟩ := h
  obtain ⟨spaces, text, rfl, hspaces, -⟩ := hd
  have hsplit : l ++ ';' :: t = (name ++ spaces ++ [':']) ++ (text ++ ';' :: r) := by
    rw [← h]
    simp
  rcases append_eq_append_cases hsplit with ⟨v, hv⟩ | ⟨w, hw, hfront, hw'⟩
  · rw [hv, ← List.append_assoc] at hsplit
    obtain rfl : l = name ++ spaces ++ [':'] ++ v := List.append_cancel_right hsplit
    exact ⟨spaces, v, by simp, hspaces, fun hm => hl (List.mem_append_right _ hm)⟩
  · -- the name and the colon would hold the semicolon
    obtain ⟨x, w, rfl⟩ := List.exists_cons_of_ne_nil hw
    obtain ⟨rfl, -⟩ := List.cons.inj hw'
    have hsemicolon : ';' ∈ name ++ spaces ++ [':'] := hfront ▸ by simp
    have hspace : ';' ∉ spaces := fun hm => absurd (hspaces _ hm) (by decide)
    exact absurd hsemicolon (by simp [hname.notMem_semicolon, hspace])

/-- **On a line the definition that is found reaches to the last semicolon.** -/
theorem definitionOf_eq_some_iff {new rest : Text} (hl : '\n' ∉ l) :
    definitionOf name l = some (new, rest) ↔ new = [] ∧ ';' ∉ rest ∧ ∃ d, IsDefinition name d ∧ l = d ++ rest := by
  have hlast {d rest : Text} (hd : IsDefinition name d) (h : l = d ++ rest) (hrest : ';' ∉ rest) :
      ∃ front, lastCut? (dropPrefix? [';']) l = some (front, rest) := by
    obtain ⟨spaces, text, rfl, -⟩ := hd
    exact ⟨name ++ spaces ++ ':' :: text, lastCut?_mark_eq_some_iff.2 ⟨by rw [h, List.append_assoc]; rfl, hrest⟩⟩
  constructor
  · intro h
    obtain ⟨rfl, d, hd, he⟩ := definitionOf_eq_some h
    obtain ⟨r, hr, hsemicolon⟩ := definitionOf_of_prefix hl hd ⟨rest, he.symm⟩
    obtain rfl : rest = r := (Prod.mk.inj (Option.some.inj (h.symm.trans hr))).2
    exact ⟨rfl, hsemicolon, d, hd, he⟩
  · rintro ⟨rfl, hrest, d, hd, he⟩
    obtain ⟨r, hr, hsemicolon⟩ := definitionOf_of_prefix hl hd ⟨rest, he.symm⟩
    obtain ⟨-, d', hd', he'⟩ := definitionOf_eq_some hr
    obtain ⟨front, hcut⟩ := hlast hd he hrest
    obtain ⟨front', hcut'⟩ := hlast hd' he' hsemicolon
    rw [hr, (Prod.mk.inj (Option.some.inj (hcut.symm.trans hcut'))).2]

/-- What has no semicolon and stands on the same line is what is left behind a definition. -/
theorem definitionOf_append_of_notMem {l v : Text} (hlv : '\n' ∉ l ++ v) (hv : ';' ∉ v) :
    definitionOf name (l ++ v) = (definitionOf name l).map fun read => (read.1, read.2 ++ v) := by
  have hl : '\n' ∉ l := fun hm => hlv (List.mem_append_left _ hm)
  cases hfound : definitionOf name l with
  | some found =>
    obtain ⟨new, rest⟩ := found
    obtain ⟨rfl, hrest, d, hd, rfl⟩ := (definitionOf_eq_some_iff hl).1 hfound
    exact (definitionOf_eq_some_iff hlv).2 ⟨rfl, by simp [hrest, hv], d, hd, by simp⟩
  | none =>
    refine Option.eq_none_iff_forall_ne_some.2 fun read hr => ?_
    obtain ⟨new, r⟩ := read
    obtain ⟨-, d, hd, he⟩ := definitionOf_eq_some hr
    rcases append_eq_append_cases he with ⟨w, rfl⟩ | ⟨w, hw, rfl, rfl⟩
    · obtain ⟨r', hr', -⟩ := definitionOf_of_prefix hl hd
        ⟨w, (List.append_cancel_right (by rw [he, List.append_assoc])).symm⟩
      exact absurd (hfound.symm.trans hr') (by simp)
    · -- the semicolon at the end of the definition would stand behind
      obtain ⟨spaces, text, hlast, -⟩ := hd
      have hmem := congrArg List.getLast? hlast
      rw [List.getLast?_concat, List.getLast?_append_of_ne_nil _ hw] at hmem
      exact absurd (List.mem_append_left r (List.mem_of_getLast? hmem)) hv

/-- What has no semicolon does not change what is found in front of it. -/
theorem seesApart_definitionOf_of_notMem (hname : IsPlainName name) (hu : ';' ∉ u) (t : Text) :
    SeesApart (definitionOf name) t u := by
  have hkeeps := keepsToLine_definitionOf hname.notMem_feed hname.ne_nil
  refine hkeeps.seesApart_of_line fun _ l _ hl => ?_
  by_cases hfeed : '\n' ∈ u
  · obtain ⟨v, more, rfl, hv⟩ := List.eq_append_cons_of_mem hfeed
    have hlv : '\n' ∉ l ++ v := by simp [hl, hv]
    rw [← List.append_assoc, hkeeps.line _ _ hlv,
      definitionOf_append_of_notMem hlv fun hm => hu (List.mem_append_left _ hm), Option.map_map]
    congr 1
    funext read
    obtain ⟨x, r⟩ := read
    simp
  · exact definitionOf_append_of_notMem (by simp [hl, hfeed]) hu

/-- A semicolon at which no definition ends is not looked behind. -/
theorem seesApart_definitionOf_of_not_endsDefined (hname : IsPlainName name) (h : ¬ EndsDefined [name] (t ++ [';']))
    (u : Text) : SeesApart (definitionOf name) t (';' :: u) := by
  refine (keepsToLine_definitionOf hname.notMem_feed hname.ne_nil).seesApart_of_line fun front l ht hl => ?_
  have hnone {v : Text} (hv : v <+: l ++ ';' :: u) : definitionOf name v = none := by
    refine Option.eq_none_iff_forall_ne_some.2 fun ⟨new, r⟩ hr => h ?_
    obtain ⟨-, d, hd, rfl⟩ := definitionOf_eq_some hr
    refine ⟨name, List.mem_singleton_self name, _, isDefinition_of_prefix hname hl hd
      ((List.prefix_append d r).trans hv), ?_⟩
    rw [ht, List.append_assoc]
    exact List.suffix_append front _
  rw [hnone (List.prefix_refl _), hnone (List.prefix_append ..)]
  rfl

/-- Without semicolons, nothing is defined. -/
theorem not_defines_of_notMem (ht : ';' ∉ t) : ¬ Defines name t := by
  rintro ⟨d, ⟨spaces, text, rfl, -⟩, hinside⟩
  exact ht (hinside.subset (by simp))

/-- **A pass leaves what has no semicolon** at the end of a text. -/
theorem pass_append (hname : IsPlainName name) (hu : ';' ∉ u) (t : Text) :
    replaceMatches (definitionOf name) (t ++ u) = replaceMatches (definitionOf name) t ++ u := by
  rw [replaceMatches_append_of_apart (keepsToLine_definitionOf hname.notMem_feed hname.ne_nil).suffix
    (seesApart_definitionOf_of_notMem hname hu t),
    replaceMatches_definitionOf_of_not_defines (not_defines_of_notMem hu)]

/-- **A pass goes over a semicolon** at which no definition of the variable ends. -/
theorem pass_semicolon (hname : IsPlainName name) (h : ¬ EndsDefined [name] (t ++ [';'])) (u : Text) :
    replaceMatches (definitionOf name) (t ++ ';' :: u) =
      replaceMatches (definitionOf name) t ++ ';' :: replaceMatches (definitionOf name) u := by
  have hnone : definitionOf name (';' :: u) = none := by
    obtain ⟨c, w, rfl⟩ := List.exists_cons_of_ne_nil hname.ne_nil
    have hc : ¬ c = ';' := fun hc => hname.notMem_semicolon (hc ▸ List.mem_cons_self ..)
    rw [definitionOf, dropPrefix?, if_neg hc]
    rfl
  rw [replaceMatches_append_of_apart (keepsToLine_definitionOf hname.notMem_feed hname.ne_nil).suffix
    (seesApart_definitionOf_of_not_endsDefined hname h u), replaceMatches_of_none hnone]

/-! ### The ends of lines -/

/-- The line at the end of a text. -/
theorem exists_last_line (t : Text) : '\n' ∉ t ∨ ∃ front l, t = front ++ '\n' :: l ∧ '\n' ∉ l := by
  cases hcut : lastCut? (dropPrefix? ['\n']) t with
  | none => exact .inl (lastCut?_mark_eq_none_iff.1 hcut)
  | some cut => exact .inr ⟨cut.1, cut.2, lastCut?_mark_eq_some_iff.1 hcut⟩

/-- **Only the last line decides** whether a text ends with a definition. -/
theorem EndsDefined.of_feed (hnames : ∀ name ∈ names, IsPlainName name)
    (h : EndsDefined names (t ++ '\n' :: u)) : EndsDefined names u := by
  obtain ⟨name, hname, d, hd, hdt⟩ := h
  have hfeed := hd.notMem_feed (hnames name hname).notMem_feed
  rcases List.suffix_or_suffix_of_suffix hdt (List.suffix_append t ('\n' :: u)) with hdu | hud
  · rcases List.suffix_cons_iff.1 hdu with rfl | hdu
    · exact absurd (List.mem_cons_self ..) hfeed
    · exact ⟨name, hname, d, hd, hdu⟩
  · exact absurd (hud.subset (List.mem_cons_self ..)) hfeed

/-- **A line with a definition ends with one at every later semicolon.** -/
theorem endsDefined_of_defines (hname : name ∈ names) (hplain : IsPlainName name) (hl : '\n' ∉ l)
    (h : Defines name (l ++ [';'])) : EndsDefined names (l ++ [';']) := by
  obtain ⟨d, hd, front, after, hinside⟩ := h
  have hsuffix : d ++ after <:+ l ++ [';'] := ⟨front, by rw [← hinside, List.append_assoc]⟩
  rcases List.eq_nil_or_concat' after with rfl | ⟨after, c, rfl⟩
  · rw [List.append_nil] at hsuffix
    exact ⟨name, hname, d, hd, hsuffix⟩
  · rw [← List.append_assoc] at hinside hsuffix
    obtain ⟨hfront, hc⟩ := List.append_inj' hinside rfl
    obtain rfl : c = ';' := (List.cons.inj hc).1
    have hline : '\n' ∉ d ++ after := fun hm => hl <| by
      rw [← hfront, List.append_assoc]
      exact List.mem_append_right front hm
    exact ⟨name, hname, _, isDefinition_of_prefix hplain hline hd ((List.prefix_append d _).trans
      (List.prefix_append (d ++ after) [';'])), hsuffix⟩

/-! ### The passes for all variables -/

/-- Definitions are left out on both sides of a line feed. -/
theorem withoutDefinitions_feed (hnames : ∀ name ∈ names, IsPlainName name) (t u : Text) :
    withoutDefinitions names (t ++ '\n' :: u) = withoutDefinitions names t ++ '\n' :: withoutDefinitions names u := by
  induction names with
  | nil => rfl
  | cons name names ih =>
    obtain ⟨hname, hnames⟩ := List.forall_mem_cons.1 hnames
    have hkeeps := keepsToLine_definitionOf hname.notMem_feed hname.ne_nil
    simp only [withoutDefinitions, List.foldr_cons] at ih ⊢
    rw [ih hnames, hkeeps.replaceMatches_feed]

/-- A text without semicolons stays behind one from which definitions are left out. -/
theorem withoutDefinitions_append (hnames : ∀ name ∈ names, IsPlainName name) (hu : ';' ∉ u) (t : Text) :
    withoutDefinitions names (t ++ u) = withoutDefinitions names t ++ u := by
  induction names with
  | nil => rfl
  | cons name names ih =>
    obtain ⟨hname, hnames⟩ := List.forall_mem_cons.1 hnames
    simp only [withoutDefinitions, List.foldr_cons] at ih ⊢
    rw [ih hnames, pass_append hname hu]

/-- A text without definitions of the variables stays as it is. -/
theorem withoutDefinitions_eq_self (h : ∀ name ∈ names, ¬ Defines name t) : withoutDefinitions names t = t := by
  induction names with
  | nil => rfl
  | cons name names ih =>
    obtain ⟨hname, hnames⟩ := List.forall_mem_cons.1 h
    simp only [withoutDefinitions, List.foldr_cons] at ih ⊢
    rw [ih hnames, replaceMatches_definitionOf_of_not_defines hname]

/-- Where no definition of the variables ends, the passes bring about no end of another one. -/
theorem endsDefined_of_withoutDefinitions {others : List Text} (hnames : ∀ name ∈ names, IsPlainName name)
    (hothers : ∀ name ∈ others, IsPlainName name) (h : ¬ EndsDefined names (t ++ [';']))
    (hends : EndsDefined others (withoutDefinitions names t ++ [';'])) : EndsDefined others (t ++ [';']) := by
  have hline {l : Text} (hl : '\n' ∉ l) (hclear : ¬ EndsDefined names (l ++ [';'])) : withoutDefinitions names l = l :=
    withoutDefinitions_eq_self fun name hname hdef =>
      hclear (endsDefined_of_defines hname (hnames name hname) hl (hdef.mono (List.prefix_append ..).isInfix))
  rcases exists_last_line t with ht | ⟨front, l, rfl, hl⟩
  · rwa [hline ht h] at hends
  · have hsuffix : l ++ [';'] <:+ front ++ '\n' :: l ++ [';'] := ⟨front ++ ['\n'], by simp⟩
    rw [withoutDefinitions_feed hnames, hline hl fun hends => h (hends.mono hsuffix), List.append_assoc] at hends
    exact (hends.of_feed hothers).mono hsuffix

/-- **The passes go over a semicolon** at which no definition of the variables ends. -/
theorem withoutDefinitions_semicolon (hnames : ∀ name ∈ names, IsPlainName name)
    (h : ¬ EndsDefined names (t ++ [';'])) (u : Text) :
    withoutDefinitions names (t ++ ';' :: u) = withoutDefinitions names t ++ ';' :: withoutDefinitions names u := by
  induction names with
  | nil => rfl
  | cons name names ih =>
    obtain ⟨hname, hnames⟩ := List.forall_mem_cons.1 hnames
    have hrest : ¬ EndsDefined names (t ++ [';']) := fun ⟨other, ho, hd⟩ => h ⟨other, List.mem_cons_of_mem _ ho, hd⟩
    have hfirst : ¬ EndsDefined [name] (t ++ [';']) := fun ⟨other, ho, hd⟩ =>
      h ⟨other, List.mem_singleton.1 ho ▸ List.mem_cons_self .., hd⟩
    have hpass := pass_semicolon hname (t := withoutDefinitions names t) (fun hends => hfirst
      (endsDefined_of_withoutDefinitions hnames (fun other ho => List.mem_singleton.1 ho ▸ hname) hrest hends))
      (withoutDefinitions names u)
    rw [← ih hnames hrest] at hpass
    exact hpass

/-- **A definition whose end is no end of a definition of the variables stays where it is.** -/
theorem withoutDefinitions_of_clear (hnames : ∀ name ∈ names, IsPlainName name) {a b front : Text}
    (hfront : ';' ∉ front) (h : ¬ EndsDefined names (a ++ (front ++ [';']))) :
    withoutDefinitions names (a ++ (front ++ [';']) ++ b) =
      withoutDefinitions names a ++ (front ++ [';']) ++ withoutDefinitions names b := by
  have hsemicolon := withoutDefinitions_semicolon hnames (t := a ++ front) (by rwa [List.append_assoc]) b
  rw [withoutDefinitions_append hnames hfront] at hsemicolon
  simpa using hsemicolon

/-! ### What is lost -/

/-- **The passes over a line** leave a front of it in which none of the variables is defined, and behind that
no semicolon. -/
theorem withoutDefinitions_line (hnames : ∀ name ∈ names, IsPlainName name) (hl : '\n' ∉ l) : ∃ front rest,
    withoutDefinitions names l = front ++ rest ∧ front <+: l ∧ ';' ∉ rest ∧ ∀ name ∈ names, ¬ Defines name front := by
  induction names with
  | nil => exact ⟨l, [], (List.append_nil l).symm, List.prefix_refl l, List.not_mem_nil, by simp⟩
  | cons name names ih =>
    obtain ⟨hname, hnames⟩ := List.forall_mem_cons.1 hnames
    obtain ⟨front, rest, hpasses, hfront, hrest, hnot⟩ := ih hnames
    obtain ⟨kept, behind, hpass, hkept, hbehind, hnone⟩ := pass_line name fun hm => hl (hfront.subset hm)
    refine ⟨kept, behind ++ rest, ?_, hkept.trans hfront, by simp [hbehind, hrest], List.forall_mem_cons.2 ⟨hnone, ?_⟩⟩
    · rw [withoutDefinitions, List.foldr_cons]
      rw [withoutDefinitions] at hpasses
      rw [hpasses, pass_append hname hrest, hpass, List.append_assoc]
    · exact fun other ho hdef => hnot other ho (hdef.mono hkept.isInfix)

/-- The semicolons of a front without definitions all stay. -/
theorem count_le_of_prefix (hnames : ∀ name ∈ names, IsPlainName name) {front : Text} (hfront : front <+: l)
    (hnot : ∀ name ∈ names, ¬ Defines name front) : front.count ';' ≤ (withoutDefinitions names l).count ';' := by
  cases hcut : lastCut? (dropPrefix? [';']) front with
  | none => simp [List.count_eq_zero.2 (lastCut?_mark_eq_none_iff.1 hcut)]
  | some cut =>
    obtain ⟨first, last⟩ := cut
    obtain ⟨rfl, hlast⟩ := lastCut?_mark_eq_some_iff.1 hcut
    obtain ⟨rest, rfl⟩ := hfront
    have hprefix : first ++ [';'] <+: first ++ ';' :: last := ⟨last, by simp⟩
    have hclear : ¬ EndsDefined names (first ++ [';']) := fun ⟨name, hname, d, hd, hsuffix⟩ =>
      hnot name hname ⟨d, hd, hsuffix.isInfix.trans hprefix.isInfix⟩
    rw [List.append_assoc, List.cons_append, withoutDefinitions_semicolon hnames hclear, withoutDefinitions_eq_self
      fun name hname hdef => hnot name hname (hdef.mono (List.prefix_append first _).isInfix)]
    simp [List.count_eq_zero.2 hlast]

/-- **A semicolon at which a definition ends is lost,** and none comes up for it. -/
theorem count_le_of_endsDefined (hnames : ∀ name ∈ names, IsPlainName name) (h : EndsDefined names (t ++ [';']))
    (u : Text) : (withoutDefinitions names (t ++ ';' :: u)).count ';' ≤
      (withoutDefinitions names t).count ';' + (withoutDefinitions names u).count ';' := by
  -- on one line a front stays that ends before the semicolon
  have hline {l m : Text} (hl : '\n' ∉ l) (hm : '\n' ∉ m) (h : EndsDefined names (l ++ [';'])) :
      (withoutDefinitions names (l ++ ';' :: m)).count ';' ≤ (withoutDefinitions names l).count ';' := by
    obtain ⟨front, rest, hpasses, hfront, hrest, hnot⟩ := withoutDefinitions_line hnames
      (show '\n' ∉ l ++ ';' :: m by simp [hl, hm])
    have hshort : front <+: l := by
      rcases List.prefix_or_prefix_of_prefix hfront (List.prefix_append l (';' :: m)) with hf | ⟨w, rfl⟩
      · exact hf
      · cases w with
        | nil => simp
        | cons c w =>
          obtain rfl : c = ';' := by
            obtain ⟨v, hv⟩ := hfront
            rw [List.append_assoc] at hv
            exact (List.cons.inj (List.append_cancel_left hv)).1
          obtain ⟨name, hname, d, hd, hsuffix⟩ := h
          exact absurd ⟨d, hd, hsuffix.isInfix.trans ⟨[], w, by simp⟩⟩ (hnot name hname)
    rw [hpasses, List.count_append, List.count_eq_zero.2 hrest]
    exact count_le_of_prefix hnames hshort hnot
  have hright {l : Text} (hl : '\n' ∉ l) (h : EndsDefined names (l ++ [';'])) :
      (withoutDefinitions names (l ++ ';' :: u)).count ';' ≤
        (withoutDefinitions names l).count ';' + (withoutDefinitions names u).count ';' := by
    by_cases hu : '\n' ∈ u
    · obtain ⟨m, more, rfl, hm⟩ := List.eq_append_cons_of_mem hu
      have hle := hline hl hm h
      rw [← List.cons_append, ← List.append_assoc, withoutDefinitions_feed hnames, withoutDefinitions_feed hnames]
      simp only [List.count_append]
      omega
    · exact (hline hl hu h).trans (Nat.le_add_right ..)
  rcases exists_last_line t with ht | ⟨front, l, rfl, hl⟩
  · exact hright ht h
  · have hle := hright hl (EndsDefined.of_feed hnames (by rwa [List.append_assoc] at h))
    rw [List.append_assoc, List.cons_append, withoutDefinitions_feed hnames, withoutDefinitions_feed hnames]
    simp only [List.count_append, List.count_cons]
    omega

/-- **Another definition stays between what stays on both sides of it** if and only if its end is not the end
of a definition of one of the variables. -/
theorem withoutDefinitions_around_iff (hnames : ∀ name ∈ names, IsPlainName name) (hd : IsOtherDefinition names d)
    (a b : Text) : withoutDefinitions names (a ++ d ++ b) =
      withoutDefinitions names a ++ d ++ withoutDefinitions names b ↔ ¬ EndsDefined names (a ++ d) := by
  obtain ⟨front, rfl, hfront⟩ := hd.exists_semicolon
  refine ⟨fun heq hends => ?_, withoutDefinitions_of_clear hnames hfront⟩
  have hle := count_le_of_endsDefined hnames (t := a ++ front) (by rwa [List.append_assoc]) b
  have hsame : a ++ front ++ ';' :: b = a ++ (front ++ [';']) ++ b := by simp
  rw [hsame, heq, withoutDefinitions_append hnames hfront] at hle
  simp only [List.count_append, List.count_cons_self, List.count_nil] at hle
  omega

/-! ### All other definitions -/

/-- **Definitions that are not at the end of another one stay in order.** -/
theorem StandClear.inOrder (hnames : ∀ name ∈ names, IsPlainName name) {before : Text} {ds : List Text}
    (hds : ∀ d ∈ ds, IsOtherDefinition names d) (h : StandClear names before ds t) :
    InOrder ds (withoutDefinitions names t) := by
  induction h with
  | nil => exact .nil _
  | cons gap clear _ ih =>
    obtain ⟨hd, hds⟩ := List.forall_mem_cons.1 hds
    have hclear : ¬ EndsDefined names (gap ++ _) := fun hends =>
      clear (hends.mono (by rw [List.append_assoc]; exact List.suffix_append ..))
    rw [(withoutDefinitions_around_iff hnames hd gap _).2 hclear]
    exact .cons _ (ih hds)

/-- **What is written** is the text without the definitions of the variables, lines in front of it and line
feeds behind it. -/
theorem exists_prependDefinitions_eq {known : Variable.Collection} (hnames : ∀ name ∈ names, IsPlainName name)
    (hvalues : ∀ name ∈ names, ∃ value, known.value name = .ok value) (css : Text) :
    ∃ top, prependDefinitions known css names =
        .ok (top ++ withoutDefinitions names css ++ List.replicate names.length '\n') ∧
      (top = [] ∨ ∃ lines, top = lines ++ ['\n']) := by
  induction names with
  | nil => exact ⟨[], by simp [prependDefinitions, withoutDefinitions, pure, Except.pure], .inl rfl⟩
  | cons name names ih =>
    obtain ⟨hname, hnames⟩ := List.forall_mem_cons.1 hnames
    obtain ⟨⟨value, hvalue⟩, hvalues⟩ := List.forall_mem_cons.1 hvalues
    obtain ⟨top, hout, htop⟩ := ih hnames hvalues
    have hkeeps := keepsToLine_definitionOf hname.notMem_feed hname.ne_nil
    obtain ⟨top', hpass, htop'⟩ : ∃ top', replaceMatches (definitionOf name) (top ++ withoutDefinitions names css) =
        top' ++ withoutDefinitions (name :: names) css ∧ (top' = [] ∨ ∃ lines, top' = lines ++ ['\n']) := by
      rcases htop with rfl | ⟨lines, rfl⟩
      · exact ⟨[], rfl, .inl rfl⟩
      · refine ⟨replaceMatches (definitionOf name) lines ++ ['\n'], ?_, .inr ⟨_, rfl⟩⟩
        rw [List.append_assoc, List.singleton_append, hkeeps.replaceMatches_feed]
        simp [withoutDefinitions]
    refine ⟨name ++ ": ".toList ++ value ++ ";\n".toList ++ top', ?_, .inr ?_⟩
    · rw [prependDefinitions_cons, hout]
      refine Fallible.bind_eq_ok.2 ⟨_, rfl, ?_⟩
      rw [prependOne, hkeeps.replaceMatches_feeds, hpass]
      refine Fallible.bind_eq_ok.2 ⟨value, hvalue, congrArg Except.ok ?_⟩
      simp [List.replicate_succ']
    · rcases htop' with rfl | ⟨lines, rfl⟩
      · exact ⟨name ++ ": ".toList ++ value ++ [';'], by simp⟩
      · exact ⟨name ++ ": ".toList ++ value ++ ";\n".toList ++ lines, by simp⟩

/-- **A definition of another variable is lost only at the end of a definition of a variable of the list.**  Where
every variable of the list has a value, the definitions are put in front of what stays of the text.  A definition
of a variable that is not in the list stays between what stays on both sides if and only if its semicolon is not
the end of a definition of one that is, which may hold semicolons; those that stay keep their order. -/
theorem prependDefinitions_keeps {known : Variable.Collection} (hnames : ∀ name ∈ names, IsPlainName name)
    (hvalues : ∀ name ∈ names, ∃ value, known.value name = .ok value) (css : Text) :
    (∃ top out, prependDefinitions known css names = .ok out ∧
      out = top ++ withoutDefinitions names css ++ List.replicate names.length '\n' ∧
      ∀ ds, (∀ d ∈ ds, IsOtherDefinition names d) → StandClear names [] ds css → InOrder ds out) ∧
    ∀ a d b, css = a ++ d ++ b → IsOtherDefinition names d →
      (withoutDefinitions names css = withoutDefinitions names a ++ d ++ withoutDefinitions names b ↔
        ¬ EndsDefined names (a ++ d)) := by
  constructor
  · obtain ⟨top, hout, -⟩ := exists_prependDefinitions_eq hnames hvalues css
    exact ⟨top, _, hout, rfl, fun ds hds hclear => (hclear.inOrder hnames hds).around _ _⟩
  · rintro a d b rfl hd
    exact withoutDefinitions_around_iff hnames hd a b

/-- The main theme color alone is known. -/
def onlyPrimary : Variable.Collection := ⟨.ofList [(primary, "#123456".toList)], .ofList []⟩

/-- What stands on later lines stays, what follows on the line does not. -/
theorem prependDefinitions_keeps_shared :
    let css := "@primary-color: red; @other: blue;\n@list: a,\n  b; @last: c;".toList
    (∃ out, prependDefinitions onlyPrimary css [primary] = .ok out ∧
      InOrder ["@list: a,\n  b;".toList, "@last: c;".toList] out) ∧
    withoutDefinitions [primary] css ≠
      withoutDefinitions [primary] "@primary-color: red; ".toList ++ "@other: blue;".toList ++
        withoutDefinitions [primary] "\n@list: a,\n  b; @last: c;".toList := by
  intro css
  have hplain : ∀ name ∈ [primary], IsPlainName name := by
    intro name hname
    obtain rfl := List.mem_singleton.1 hname
    exact ⟨by decide, by decide, by decide⟩
  have hvalues : ∀ name ∈ [primary], ∃ value, onlyPrimary.value name = .ok value := by
    intro name hname
    obtain rfl := List.mem_singleton.1 hname
    exact ⟨"#123456".toList, by decide +kernel⟩
  have hother (w value : Text) (hw : IsPlainName ('@' :: w)) (hne : '@' :: w ≠ primary) (hvalue : ';' ∉ value) :
      IsOtherDefinition [primary] ('@' :: w ++ ':' :: value ++ [';']) :=
    ⟨'@' :: w, [], value, by simp, hw, fun h => hne (List.mem_singleton.1 h), by simp, hvalue⟩
  have hclear {front : Text} (t line : Text) (hfront : front = t ++ '\n' :: line) (h : ¬ primary <:+: line) :
      ¬ EndsDefined [primary] front := by
    intro hends
    rw [hfront] at hends
    obtain ⟨name, hname, d, ⟨spaces, text, rfl, -⟩, hsuffix⟩ := hends.of_feed hplain
    obtain rfl := List.mem_singleton.1 hname
    exact h (List.IsInfix.trans ⟨[], spaces ++ ':' :: text ++ [';'], by simp⟩ hsuffix.isInfix)
  obtain ⟨⟨top, out, hout, -, hkeeps⟩, hiff⟩ := prependDefinitions_keeps hplain hvalues css
  constructor
  · refine ⟨out, hout, hkeeps _ ?_ ?_⟩
    · intro d hd
      rcases List.mem_cons.1 hd with rfl | hd
      · exact hother "list".toList " a,\n  b".toList ⟨by decide, by decide, by decide⟩ (by decide)
          (by decide)
      · obtain rfl := List.mem_singleton.1 hd
        exact hother "last".toList " c".toList ⟨by decide, by decide, by decide⟩ (by decide)
          (by decide)
    · have hcss : css = "@primary-color: red; @other: blue;\n".toList ++ "@list: a,\n  b;".toList ++
          (" ".toList ++ "@last: c;".toList ++ []) := by
        decide +kernel
      rw [hcss]
      refine .cons _ ?_ (.cons _ ?_ (.nil _ []))
      · exact hclear "@primary-color: red; @other: blue;\n@list: a,".toList "  b;".toList (by decide +kernel)
          (by decide)
      · exact hclear "@primary-color: red; @other: blue;\n@list: a,".toList "  b; @last: c;".toList
          (by decide +kernel) (by decide)
  · refine fun hstays => (hiff "@primary-color: red; ".toList "@other: blue;".toList
      "\n@list: a,\n  b; @last: c;".toList rfl ?_).1 hstays ?_
    · exact hother "other".toList " blue".toList ⟨by decide, by decide, by decide⟩ (by decide)
        (by decide)
    · exact ⟨primary, List.mem_singleton_self _, "@primary-color: red; @other: blue;".toList,
        ⟨[], " red; @other: blue".toList, rfl, by simp, by decide⟩, List.suffix_refl _⟩

/-- **Not every definition of another variable stays:** one goes that follows on the line. -/
theorem not_forall_prependDefinitions_keeps : ¬ ∀ (known : Variable.Collection) (css : Text) (names ds : List Text)
    (out : Text), (∀ name ∈ names, ∃ value, known.value name = .ok value) →
    (∀ d ∈ ds, IsOtherDefinition names d) → InOrder ds css → prependDefinitions known css names = .ok out →
    InOrder ds out := by
  intro hall
  have hother : IsOtherDefinition [primary] "@other: blue;".toList :=
    ⟨"@other".toList, [], " blue".toList, rfl, ⟨by decide, by decide, by decide⟩, by decide, by simp, by decide⟩
  have hgone : prependDefinitions onlyPrimary "@primary-color: red; @other: blue;".toList [primary] =
      .ok "@primary-color: #123456;\n\n".toList := by
    decide +kernel
  have hstays := hall onlyPrimary "@primary-color: red; @other: blue;".toList [primary] ["@other: blue;".toList] _
    (fun name hname => ⟨"#123456".toList, by rw [List.mem_singleton.1 hname]; decide +kernel⟩)
    (fun d hd => List.mem_singleton.1 hd ▸ hother) (.cons "@primary-color: red; ".toList (.nil [])) hgone
  exact absurd (hstays.infix_of_mem (List.mem_singleton_self _)) (by decide)

end Theme
end ThemeSheet
