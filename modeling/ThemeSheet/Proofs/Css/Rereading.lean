/-
# What printed rules are read as

The lines of a pruned style sheet are read again as declarations with the same text: the
value has one separator before it, and perhaps one behind it, where the source may have
had others or none, and units stand as their written form says.
-/

import ThemeSheet.Proofs.Css.Reprinting

namespace ThemeSheet
namespace Css

/-! ### Readers of values -/

namespace ValueReader

/-- **Two readers that know the same,** but for the nodes themselves. -/
structure Alike (r s : ValueReader) : Prop where
  phase : r.phase = s.phase
  content : r.hasContent = s.hasContent
  late : r.hasLateBlock = s.hasLateBlock

/-- Readers that know the same know the same behind a node and its softened form. -/
theorem Alike.push_soft {r s : ValueReader} (h : Alike r s) (n : Node) :
    Alike (r.push n) (s.push n.soft) := by
  obtain ⟨read, importance, content, late⟩ := r
  obtain ⟨read', importance', content', late'⟩ := s
  obtain ⟨hphase, rfl, rfl⟩ := h
  unfold push
  rw [n.isSpace_soft]
  split
  · exact ⟨hphase, rfl, rfl⟩
  · rw [n.isLiteral_soft, n.isImportantWord_soft]
    -- the same phase of both readers
    cases importance <;> cases importance' <;> cases hphase
    all_goals simp only [pushContent, n.isCurly_soft]
    · split <;> exact ⟨rfl, rfl, rfl⟩
    · split <;> exact ⟨rfl, rfl, rfl⟩
    · exact ⟨rfl, rfl, rfl⟩

/-- Readers that know the same know the same behind nodes and their softened forms. -/
theorem Alike.foldl_soft {r s : ValueReader} (h : Alike r s) (ns : List Node) :
    Alike (ns.foldl push r) ((ns.map Node.soft).foldl push s) := by
  induction ns generalizing r s with
  | nil => exact h
  | cons n ns ih => exact ih (h.push_soft n)

/-- Separators tell a reader nothing. -/
theorem alike_spaces (r : ValueReader) {ns : List Node} (h : AllSpace ns) : Alike (ns.foldl push r) r := by
  rw [foldl_push_spaces r h]
  exact ⟨rfl, rfl, rfl⟩

/-- Knowing the same is symmetric. -/
theorem Alike.symm {r s : ValueReader} (h : Alike r s) : Alike s r := ⟨h.phase.symm, h.content.symm, h.late.symm⟩

/-- Knowing the same is transitive. -/
theorem Alike.trans {r s t : ValueReader} (h : Alike r s) (h' : Alike s t) : Alike r t :=
  ⟨h.phase.trans h'.phase, h.content.trans h'.content, h.late.trans h'.late⟩

/-- **A reader learns the same from a value and from its written form,** whatever separators stand
around it. -/
theorem alike_written {a b a' b' : List Node} (core : List Node) (ha : AllSpace a) (hb : AllSpace b)
    (ha' : AllSpace a') (hb' : AllSpace b') :
    Alike ((a ++ (core ++ b)).foldl push start) ((a' ++ (core.map Node.soft ++ b')).foldl push start) := by
  simp only [List.foldl_append]
  have hfront : Alike (a.foldl push start) (a'.foldl push start) :=
    (alike_spaces start ha).trans (alike_spaces start ha').symm
  exact ((alike_spaces _ hb).trans (hfront.foldl_soft core)).trans (alike_spaces _ hb').symm

end ValueReader

/-- **The written form of a value ends where it does.** -/
theorem Declaration.IsDelimited.written {name : Text} {a core b a' b' : List Node} {important : Bool}
    (h : Declaration.IsDelimited ⟨name, a ++ (core ++ b), important⟩) (ha : AllSpace a) (hb : AllSpace b)
    (ha' : AllSpace a') (hb' : AllSpace b') :
    Declaration.IsDelimited ⟨name, a' ++ (core.map Node.soft ++ b'), important⟩ := by
  have halike := ValueReader.alike_written core ha hb ha' hb'
  refine ⟨?_, by rw [← halike.late]; exact h.block, by rw [← halike.phase]; exact h.mark,
    fun hi => by rw [← halike.phase]; exact h.unmarked hi⟩
  simp only [List.mem_append, List.mem_map]
  rintro n (hn | ⟨m, hm, rfl⟩ | hn)
  · exact not_isLiteral_of_isSpace (ha' n hn)
  · rw [m.isLiteral_soft]
    exact h.semicolon m (by simp [hm])
  · exact not_isLiteral_of_isSpace (hb' n hn)

/-! ### Addresses and blanks -/

/-- A text is what is left of it with blanks around it. -/
theorem exists_strip (t : Text) : ∃ a b, t = a ++ (Text.strip t ++ b) ∧
    (∀ c ∈ a, isBlank c = true) ∧ ∀ c ∈ b, isBlank c = true := by
  have hfront := List.takeWhile_append_dropWhile (p := isBlank) (l := t)
  have hback := List.takeWhile_append_dropWhile (p := isBlank) (l := (t.dropWhile isBlank).reverse)
  refine ⟨t.takeWhile isBlank, ((t.dropWhile isBlank).reverse.takeWhile isBlank).reverse, ?_,
    fun c hc => List.mem_takeWhile_imp hc, fun c hc => List.mem_takeWhile_imp (List.mem_reverse.1 hc)⟩
  rw [Text.strip, Text.trim, ← List.reverse_append, hback, List.reverse_reverse, hfront]

/-- A cut at a character that the front lacks lies behind the front. -/
theorem cut_front {c : Char} {w x a r : Text} (hc : c ∉ w) (h : w ++ x = a ++ c :: r) :
    ∃ a', x = a' ++ c :: r := by
  rcases List.append_eq_append_iff.1 h with ⟨a', -, hx⟩ | ⟨c', hw, hr⟩
  · exact ⟨a', hx⟩
  · cases c' with
    | nil => exact ⟨[], hr.symm⟩
    | cons d c' =>
      obtain ⟨rfl, -⟩ := List.cons.inj hr
      exact absurd (by simp [hw]) hc

/-- A cut at a character that the back lacks lies before the back. -/
theorem cut_back {c : Char} {x v p r : Text} (hc : c ∉ v) (h : x ++ v = p ++ c :: r) :
    ∃ r', x = p ++ c :: r' := by
  rcases List.append_eq_append_iff.1 h with ⟨a', -, hv⟩ | ⟨c', hx, hr⟩
  · exact absurd (by simp [hv]) hc
  · cases c' with
    | nil => exact absurd (by simp [show v = c :: r from hr.symm]) hc
    | cons d c' =>
      obtain ⟨rfl, -⟩ := List.cons.inj hr
      exact ⟨c', hx⟩

/-- **Blanks around a text make no address.** -/
theorem hasUrl_strip (t : Text) : hasUrl (Text.strip t) = hasUrl t := by
  obtain ⟨w, v, ht, hw, hv⟩ := exists_strip t
  generalize Text.strip t = s at ht
  subst ht
  rw [Bool.eq_iff_iff, hasUrl_iff, hasUrl_iff]
  constructor
  · rintro ⟨a, b, c, rfl, hb⟩
    exact ⟨w ++ a, b, c ++ v, by simp, hb⟩
  · rintro ⟨a, b, c, habc, hb⟩
    have hletter : 'u' ∉ w := fun h => absurd (hw _ h) (by decide)
    have hbracket : ')' ∉ v := fun h => absurd (hv _ h) (by decide)
    obtain ⟨a', ha'⟩ := cut_front (r := "rl(".toList ++ b ++ ')' :: c) hletter (by simpa using habc)
    obtain ⟨c', hc'⟩ := cut_back (p := a' ++ "url(".toList ++ b) (r := c) hbracket (by simpa using ha')
    exact ⟨a', b, c', hc', hb⟩

/-! ### Declarations that stay -/

/-- Nothing is left of separators when they are left out. -/
theorem filter_spaces {ns : List Node} (h : AllSpace ns) : ns.filter (fun n => !n.isSpace) = [] := by
  rw [List.filter_eq_nil_iff]
  intro n hn
  simp [h n hn]

/-- **The nodes of a value without its separators** are read as their written form says. -/
theorem filter_written {a b a' b' : List Node} (core : List Node) (ha : AllSpace a) (hb : AllSpace b)
    (ha' : AllSpace a') (hb' : AllSpace b') :
    (a' ++ (core.map Node.soft ++ b')).filter (fun n => !n.isSpace) =
      ((a ++ (core ++ b)).filter fun n => !n.isSpace).map Node.soft := by
  have hsoft : (core.map Node.soft).filter (fun n => !n.isSpace) =
      (core.filter fun n => !n.isSpace).map Node.soft := by
    rw [List.filter_map]
    exact congrArg _ (List.filter_congr fun n _ => by rw [Function.comp, n.isSpace_soft])
  simp only [List.filter_append, filter_spaces ha, filter_spaces hb, filter_spaces ha', filter_spaces hb',
    hsoft, List.nil_append, List.append_nil]

/-- Whether a value is a number alone does not depend on softening nor on the separators around it. -/
theorem Declaration.isNumeric_written {name : Text} {a b a' b' : List Node} (core : List Node)
    (important : Bool) (ha : AllSpace a) (hb : AllSpace b) (ha' : AllSpace a') (hb' : AllSpace b') :
    Declaration.isNumeric ⟨name, a' ++ (core.map Node.soft ++ b'), important⟩ =
      Declaration.isNumeric ⟨name, a ++ (core ++ b), important⟩ := by
  simp only [Declaration.isNumeric, filter_written core ha hb ha' hb']
  generalize (a ++ (core ++ b)).filter (fun n => !n.isSpace) = rest
  rcases rest with _ | ⟨n, _ | ⟨m, rest⟩⟩
  · rfl
  · rw [List.map_cons, List.map_nil]
    cases n with
    | token t => rw [Node.soft]; cases t <;> rfl
    | _ => rw [Node.soft]
  · simp

/-- **A declaration stays** if one with the same name and the written form of its value does. -/
theorem Declaration.isKept_written {name : Text} {a core b a' b' : List Node} {important : Bool}
    (h : IsCore core) (hs : Css.Stands (a ++ (core ++ b))) (ha : IsMargin a) (hb : IsMargin b)
    (ha' : IsMargin a') (hb' : IsMargin b') :
    Declaration.isKept ⟨name, a' ++ (core.map Node.soft ++ b'), important⟩ =
      Declaration.isKept ⟨name, a ++ (core ++ b), important⟩ := by
  have hurl : hasUrl (Css.written (a' ++ (core.map Node.soft ++ b'))) =
      hasUrl (Css.written (a ++ (core ++ b))) := by
    rw [← hasUrl_strip, h.strip_written_soft ha' hb', ← hasUrl_strip (Css.written (a ++ _)),
      h.strip_written hs ha hb]
  rw [isKept, isKept, hurl,
    isNumeric_written core important ha.allSpace hb.allSpace ha'.allSpace hb'.allSpace]
  rfl

/-! ### The text of a declaration -/

/-- The mark of importance as it is written. -/
def writtenMark (important : Bool) : List Node :=
  if important then [.mark '!', .token (.ident "important".toList)] else []

/-- The written mark of importance is one. -/
theorem isMarkOf_writtenMark (important : Bool) : IsMarkOf important (writtenMark important) := by
  cases important with
  | false => exact .absent
  | true => exact .given (a := []) (b := []) (by simp [AllSpace]) (by decide) (by simp [AllSpace])

/-- A semicolon is spelled by itself. -/
theorem spelled_end (k : Text) : Spelled k (Node.allLexemes [.mark ';']) (';' :: k) := by
  rw [Node.allLexemes_cons, Node.allLexemes_nil, List.append_nil, Node.mark, Node.lexemes]
  exact (spells_mark (.inr (.inl rfl)) k).spelled

/-- The mark of importance and the semicolon behind it are spelled as they are written. -/
theorem spelled_writtenMark (k : Text) :
    Spelled k (Node.allLexemes (writtenMark true ++ [.mark ';']))
      ('!' :: ("important".toList ++ ';' :: k)) := by
  have hword : IsIdent "important".toList := ⟨by decide, by decide⟩
  rw [Node.allLexemes_append, writtenMark, if_pos rfl, Node.allLexemes_cons, Node.allLexemes_cons,
    Node.allLexemes_nil, Node.mark, Node.lexemes, Node.lexemes]
  exact .piece (s := ['!']) (spells_mark (.inr (.inr rfl)) _)
    (.piece (hword.spells (.inr rfl) k) (spelled_end k))

/-- A separator made of blanks is a margin. -/
theorem isMargin_single {run : Text} (h : ∀ c ∈ run, isBlank c = true) :
    IsMargin [.token (.space run)] := by
  intro n hn
  exact ⟨run, List.mem_singleton.1 hn, h⟩

/-- The separator behind a core is a margin. -/
theorem isMargin_spaceBehind (core : List Node) : IsMargin (spaceBehind core) := by
  unfold spaceBehind
  split
  · simp [IsMargin]
  · exact isMargin_single (by decide)

/-- No separator stands at the beginning of a core. -/
theorem IsCore.head_not_isSpace {core : List Node} (h : IsCore core) {t : Text}
    (ht : core = [] → t.head?.any isSpace = false) : (tightText core ++ t).head?.any isSpace = false := by
  by_cases hcore : core = []
  · rw [hcore, tightText_nil]
    exact ht hcore
  · obtain ⟨d, u, hd⟩ := List.exists_cons_of_ne_nil (h.isSolid hcore).ne_nil
    have hfront := (h.isSolid hcore).front d (by rw [hd]; rfl)
    rw [hd]
    cases hspace : isSpace d with
    | false => simpa using hspace
    | true =>
      rw [isBlank_of_isSpace hspace] at hfront
      exact Bool.noConfusion hfront

/-- A separator can be spelled before what does not begin with one. -/
theorem Spelled.behind_space {w k t : Text} {ns : List Node} (h : Spelled k (Node.allLexemes ns) t)
    (hne : w ≠ []) (hw : ∀ c ∈ w, isSpace c = true) (ht : t.head?.any isSpace = false) :
    Spelled k (Node.allLexemes (.token (.space w) :: ns)) (w ++ t) := by
  rw [Node.allLexemes_cons, Node.lexemes]
  exact .piece (.space hne hw ht) h

/-- **The value of a declaration is read as its written form says,** up to the semicolon. -/
theorem IsCore.spelled_value {core : List Node} (h : IsCore core) (important : Bool) :
    ∃ a b, IsMargin a ∧ IsMargin b ∧ ∀ k, Spelled k
      (Node.allLexemes (a ++ (core.map Node.soft ++ (b ++ (writtenMark important ++ [.mark ';'])))))
      (' ' :: (tightText core ++ ((if important then " !important".toList else []) ++ ';' :: k))) := by
  have hspace : IsMargin [.token (.space [' '])] := isMargin_single (by decide)
  cases important with
  | false =>
    refine ⟨[.token (.space [' '])], [], hspace, by simp [IsMargin], fun k => ?_⟩
    have hvalue := (h.spelled_semicolon k).append (spelled_end k)
    rw [← Node.allLexemes_append] at hvalue
    exact hvalue.behind_space (w := [' ']) (by simp) (by decide) (h.head_not_isSpace fun _ => rfl)
  | true =>
    by_cases hne : core = []
    · refine ⟨[.token (.space [' ', ' '])], [], isMargin_single (by decide), by simp [IsMargin], fun k => ?_⟩
      subst hne
      rw [tightText_nil]
      exact (spelled_writtenMark k).behind_space (w := [' ', ' ']) (by simp) (by decide) rfl
    · refine ⟨[.token (.space [' '])], spaceBehind core, hspace, isMargin_spaceBehind core, fun k => ?_⟩
      have hvalue := (h.spelled_space hne (k := '!' :: ("important".toList ++ ';' :: k)) rfl rfl).append
        (spelled_writtenMark k)
      rw [← Node.allLexemes_append, List.append_assoc] at hvalue
      exact hvalue.behind_space (w := [' ']) (by simp) (by decide) (h.head_not_isSpace fun h => absurd h hne)

/-! ### Lines -/

/-- **What a declaration is read as where its line stands.** -/
structure Declaration.Reread (d d' : Declaration) : Prop where
  name : d'.name = d.name
  nodes : d'.value.filter (fun n => !n.isSpace) = (d.value.filter fun n => !n.isSpace).map Node.soft
  line : d'.line = d.line
  kept : d'.isKept = d.isKept
  numerals : overlongs (Node.allLexemes d'.value) = []

/-- No numeral of a core is too long, also softened and with other separators around it. -/
theorem overlongs_core {core a b : List Node} (h : IsCore core) (ha : AllSpace a) (hb : AllSpace b) :
    overlongs (Node.allLexemes (a ++ (core.map Node.soft ++ b))) = [] := by
  rw [overlongs_nodes_append, overlongs_nodes_append, overlongs_spaces ha, overlongs_spaces hb,
    Node.allLexemes_soft, overlongs_soft, h.stands.numerals]
  rfl

/-- **The line of a declaration is read as a declaration with the same line.** -/
theorem Declaration.Stands.reread {d : Declaration} (h : d.Stands) :
    ∃ d' ns, d.Reread d' ∧ d'.LaidOut ns ∧
      ∀ k, Spelled k (Node.allLexemes (.token (.space "\n  ".toList) :: (ns ++ [.mark ';'])))
        ('\n' :: (d.line ++ k)) := by
  obtain ⟨name, value, important⟩ := d
  obtain ⟨hdelimited, hident, -, hvalue⟩ := h
  simp only at hident hvalue
  obtain ⟨a, core, b, rfl, ha, hb, hcore⟩ := hvalue.exists_core
  obtain ⟨a', b', ha', hb', hspelled⟩ := hcore.spelled_value important
  have hstrip := hcore.strip_written hvalue ha hb
  refine ⟨⟨name, a' ++ (core.map Node.soft ++ b'), important⟩, _,
    ⟨rfl, filter_written core ha.allSpace hb.allSpace ha'.allSpace hb'.allSpace, ?_, ?_, ?_⟩,
    .intro (a := []) (m := writtenMark important) ?_ (by simp [AllSpace]) (isMarkOf_writtenMark important),
    fun k => ?_⟩
  · simp only [line, hstrip, hcore.strip_written_soft ha' hb']
  · exact isKept_written hcore hvalue ha hb ha' hb'
  · exact overlongs_core hcore ha'.allSpace hb'.allSpace
  · exact hdelimited.written ha.allSpace hb.allSpace ha'.allSpace hb'.allSpace
  · have hname := Spelled.piece (hident.spells (.inl rfl) _)
      (.piece (s := [':']) (spells_mark (.inl rfl) _) (hspelled k))
    have hhead : ∀ t : Text, (name ++ t).head?.any isSpace = false := by
      obtain ⟨c, u, rfl, hc⟩ := hident.eq_cons
      exact fun _ => isSpace_of_isNamePart hc
    have hline := Spelled.piece (s := "\n  ".toList) (.space (by decide) (by decide) (hhead _)) hname
    have htext : '\n' :: (line ⟨name, a ++ (core ++ b), important⟩ ++ k) = "\n  ".toList ++
        (name ++ ([':'] ++ (' ' :: (tightText core ++ ((if important then " !important".toList else []) ++
          ';' :: k))))) := by
      rw [line, hstrip, show "\n  ".toList = ['\n', ' ', ' '] from rfl]
      simp only [List.append_assoc, List.cons_append, List.nil_append]
    rw [htext]
    simp only [List.append_assoc, List.cons_append, List.nil_append, Node.allLexemes_cons, Node.lexemes,
      Node.mark] at hline ⊢
    exact hline

section Reread

variable {ds ds' : List Declaration} (h : List.Forall₂ Declaration.Reread ds ds')

include h

/-- Declarations that are read again have the same lines. -/
theorem lines_of_reread : ds'.map Declaration.line = ds.map Declaration.line := by
  induction h with
  | nil => rfl
  | cons hd _ ih => rw [List.map_cons, List.map_cons, hd.line, ih]

/-- Declarations that are read again are kept as they were. -/
theorem isKept_of_reread (hkept : ∀ d ∈ ds, d.isKept = true) : ∀ d' ∈ ds', d'.isKept = true := by
  induction h with
  | nil => simp
  | cons hd _ ih =>
    obtain ⟨hfirst, hrest⟩ := List.forall_mem_cons.1 hkept
    exact List.forall_mem_cons.2 ⟨hd.kept.trans hfirst, ih hrest⟩

/-- No numeral of declarations that are read again is too long. -/
theorem overlongs_of_reread : overlongs (Node.allLexemes (ds'.flatMap Declaration.value)) = [] := by
  induction h with
  | nil => rfl
  | cons hd _ ih => rw [List.flatMap_cons, overlongs_nodes_append, hd.numerals, ih]; rfl

end Reread

/-- **The lines of declarations are read as declarations with the same lines.** -/
theorem reread_lines {ds : List Declaration} (h : ∀ d ∈ ds, d.Stands) :
    ∃ ds' ns, List.Forall₂ Declaration.Reread ds ds' ∧ Content ds' ns ∧
      ∀ k, Spelled ('\x7d' :: k) (Node.allLexemes ns)
        (ds.flatMap (fun d => '\n' :: d.line) ++ '\n' :: '\x7d' :: k) := by
  induction ds with
  | nil =>
    refine ⟨[], [.token (.space ['\n'])], .nil, .skip (.inl rfl) .nil, fun k => ?_⟩
    rw [Node.allLexemes_cons, Node.lexemes, Node.allLexemes_nil]
    exact Spells.spelled (s := ['\n']) (.space (by simp) (by decide) rfl)
  | cons d ds ih =>
    obtain ⟨hd, hds⟩ := List.forall_mem_cons.1 h
    obtain ⟨d', ms, hreread, hlaid, hline⟩ := hd.reread
    obtain ⟨ds', ns, hrereads, hcontent, hspelled⟩ := ih hds
    refine ⟨d' :: ds', .token (.space "\n  ".toList) :: (ms ++ .mark ';' :: ns), .cons hreread hrereads,
      .skip (.inl rfl) (.cons hlaid hcontent), fun k => ?_⟩
    have hboth := (hline _).append (hspelled k)
    rw [← Node.allLexemes_append] at hboth
    simpa only [List.cons_append, List.append_assoc, List.nil_append, List.flatMap_cons] using hboth

/-! ### Rules -/

/-- A selector that is read again is a selector. -/
theorem isSelector_soft {core b : List Node} (h : IsSelector (core ++ b)) (hne : core ≠ [])
    {b' : List Node} (hb' : AllSpace b') : IsSelector (core.map Node.soft ++ b') := by
  obtain ⟨n, core', rfl⟩ := List.exists_cons_of_ne_nil hne
  refine ⟨?_, ?_, ?_, ?_⟩
  · simp only [List.mem_append, List.mem_map]
    rintro m (⟨m', hm', rfl⟩ | hm)
    · rw [m'.isCurly_soft]
      exact h.curly m' (List.mem_append_left _ hm')
    · obtain ⟨run, rfl⟩ := Node.eq_space (hb' m hm)
      rfl
  · rintro m ⟨⟩
    rw [n.isSpace_soft]
    exact h.space n rfl
  · rintro m ⟨⟩
    rw [isSheetMark, n.isLiteral_soft, n.isLiteral_soft]
    exact h.sheetMark n rfl
  · intro name hname
    obtain ⟨t, rfl, ht⟩ := Node.soft_eq_token (Option.some.inj hname)
    cases t with
    | atKeyword name' => exact h.atKeyword name' rfl
    | _ => cases ht

/-- **A selector is read as its written form says,** up to the block of its rule. -/
theorem IsCore.reread_selector {core b : List Node} (h : IsCore core) (hselector : IsSelector (core ++ b)) :
    ∃ selector, IsSelector selector ∧ Text.strip (Css.written selector) = tightText core ∧
      overlongs (Node.allLexemes selector) = [] ∧ ∀ {ds content u rest items}, Content ds content →
        Spelled ('\x7d' :: rest) (Node.allLexemes content) u → Printed items rest →
        Printed (.style selector ds :: items) (tightText core ++ ' ' :: '\x7b' :: u) := by
  by_cases hne : core = []
  · subst hne
    refine ⟨[], isSelector_nil, by rw [tightText_nil]; rfl, by rw [Node.allLexemes_nil]; rfl, ?_⟩
    intro ds content u rest items hcontent hu hrest
    rw [tightText_nil]
    refine .space (by decide) (.style isSelector_nil hcontent ?_ hu hrest)
    rw [Node.allLexemes_nil]
    exact .nil
  · have hb' := isMargin_spaceBehind core
    have hnil : IsMargin [] := by simp [IsMargin]
    refine ⟨core.map Node.soft ++ spaceBehind core, isSelector_soft hselector hne hb'.allSpace,
      h.strip_written_soft hnil hb', overlongs_core h hnil.allSpace hb'.allSpace, ?_⟩
    intro ds content u rest items hcontent hu hrest
    exact .style (isSelector_soft hselector hne hb'.allSpace) hcontent (h.spelled_space hne rfl rfl) hu hrest

/-- A written rule and what follows, with the lines of its declarations apart. -/
theorem KeptRule.written_append (selector rest : Text) {ds : List Declaration} (h : ds ≠ []) :
    KeptRule.written ⟨selector, ds⟩ ++ rest =
      selector ++ ' ' :: '\x7b' :: (ds.flatMap (fun d => '\n' :: d.line) ++ '\n' :: '\x7d' :: rest) := by
  have hlines := Text.join_begin ['\n'] (show ds.map Declaration.line ≠ [] by simpa using h)
  rw [List.flatMap_map] at hlines
  rw [show (fun d : Declaration => '\n' :: d.line) = fun d => ['\n'] ++ d.line from rfl, ← hlines,
    KeptRule.written, show " \x7b\n".toList = [' ', '\x7b', '\n'] from rfl,
    show "\n\x7d".toList = ['\n', '\x7d'] from rfl]
  simp only [List.append_assoc, List.cons_append, List.nil_append]

/-- **The text of a rule that stays is read as a rule with the same text.** -/
theorem reread_rule {selector : List Node} (hselector : IsSelector selector) (hs : Stands selector)
    {ds : List Declaration} (h : ∀ d ∈ ds, d.Stands ∧ d.isKept = true) (hne : ds ≠ [])
    (hprobe : Text.beginsWith probeSelector (Text.strip (written selector)) = false) :
    ∃ item : Item, List.Forall₂ Declaration.Reread ds item.declarations ∧ item.kept?.map KeptRule.written =
        some (KeptRule.written ⟨Text.strip (written selector), ds⟩) ∧
      overlongs (Node.allLexemes item.nodes) = [] ∧
      ∀ items rest, Printed items rest →
        Printed (item :: items) (KeptRule.written ⟨Text.strip (written selector), ds⟩ ++ rest) := by
  obtain ⟨ds', content, hreread, hcontent, hspelled⟩ := reread_lines fun d hd => (h d hd).1
  have hlines := lines_of_reread hreread
  have hkept := isKept_of_reread hreread fun d hd => (h d hd).2
  have hnumerals := overlongs_of_reread hreread
  obtain ⟨a, core, b, rfl, ha, hb, hcore⟩ := hs.exists_core
  obtain rfl : a = [] := by
    cases a with
    | nil => rfl
    | cons n a =>
      have := hselector.space n rfl
      rw [ha.allSpace n (List.mem_cons_self ..)] at this
      exact Bool.noConfusion this
  obtain ⟨selector', hselector', hstrip', hnumerals', hprinted⟩ := hcore.reread_selector hselector
  rw [hcore.strip_written hs ha hb] at hprobe ⊢
  have hds' : ds' ≠ [] := by
    rintro rfl
    exact hne (by simpa using hlines.symm)
  refine ⟨.style selector' ds', hreread, ?_, ?_, fun items rest hrest => ?_⟩
  · rw [Item.kept?, keptRule?, List.filter_eq_self.2 hkept, hstrip', hprobe, List.isEmpty_eq_false_iff.2 hds']
    simp only [Bool.or_self, Bool.false_eq_true, if_false, Option.map_some, KeptRule.written, hlines]
  · rw [Item.nodes, overlongs_nodes_append, hnumerals', hnumerals]
    rfl
  · rw [KeptRule.written_append _ _ hne]
    exact hprinted hcontent (hspelled rest) hrest

end Css
end ThemeSheet
