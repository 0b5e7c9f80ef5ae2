/-
# Names in the values of declarations

A flat rule is a selector and declarations between braces, in any layout: blanks and
line feeds belong to the pieces around them.  Putting colors in leaves the rules and
their declarations in their places.  A value is reached from its colon to the end of
the line, and on every later line only from the first colon of that line on.  So a
name that has a color is left in a value exactly if it stands on a later line of it,
before the first colon there.
-/

import ThemeSheet.Proofs.Fallible
import ThemeSheet.Proofs.Style.Token

namespace ThemeSheet
namespace Style

open Text Variable

/-! ### Flat rules -/

/-- A declaration, with the blanks around its property and its value. -/
structure Declaration where
  property : Text
  value : Text

/-- The written form of a declaration. -/
def Declaration.written (d : Declaration) : Text := d.property ++ ':' :: (d.value ++ [';'])

/-- A rule whose block holds declarations only, with the blanks around its selector and before the brace
that closes the block. -/
structure FlatRule where
  selector : Text
  declarations : List Declaration
  closing : Text

/-- The written form of a rule. -/
def FlatRule.written (r : FlatRule) : Text :=
  r.selector ++ '\x7b' :: (r.declarations.flatMap Declaration.written ++ (r.closing ++ ['\x7d']))

/-- A text of flat rules. -/
def sheet (rules : List FlatRule) (trailing : Text) : Text := rules.flatMap FlatRule.written ++ trailing

/-- The first of several declarations, written out before a text. -/
theorem written_cons (d : Declaration) (ds : List Declaration) (t : Text) :
    (d :: ds).flatMap Declaration.written ++ t =
      d.property ++ ':' :: (d.value ++ ';' :: (ds.flatMap Declaration.written ++ t)) := by
  simp [Declaration.written]

/-- The first of several rules, written out. -/
theorem sheet_cons (r : FlatRule) (rules : List FlatRule) (trailing : Text) : sheet (r :: rules) trailing =
    r.selector ++ '\x7b' :: (r.declarations.flatMap Declaration.written ++
      (r.closing ++ '\x7d' :: sheet rules trailing)) := by
  simp [sheet, FlatRule.written]

/-- Neither braces nor semicolons. -/
def IsPlain (t : Text) : Prop := ';' ∉ t ∧ '\x7b' ∉ t ∧ '\x7d' ∉ t

/-- Whether a text is plain can be checked. -/
instance (t : Text) : Decidable (IsPlain t) := inferInstanceAs (Decidable (_ ∧ _ ∧ _))

/-- The property ends at its colon, and the value, which may hold colons, at its semicolon. -/
structure Declaration.IsSound (d : Declaration) : Prop where
  property : IsPlain d.property
  colon : ':' ∉ d.property
  value : IsPlain d.value

/-- The selector, which may hold colons, ends at its brace, and so does what stands behind the last
declaration. -/
structure FlatRule.IsSound (r : FlatRule) : Prop where
  selector : IsPlain r.selector
  declarations : ∀ d ∈ r.declarations, d.IsSound
  closing : IsPlain r.closing
  colon : ':' ∉ r.closing

/-- **The rules of a text,** and what stands behind the last one. -/
structure IsSheet (rules : List FlatRule) (trailing : Text) : Prop where
  rules : ∀ r ∈ rules, r.IsSound
  trailing : IsPlain trailing

/-! ### The pieces can be read off the text -/

/-- A text that goes on with one mark does not go on with another one first. -/
theorem append_mark_ne {x y : Char} {a b c d : Text} (hxy : x ≠ y) (hx : x ∉ c) (hy : y ∉ a) :
    a ++ x :: b ≠ c ++ y :: d := by
  intro h
  rcases List.append_eq_append_iff.1 h with ⟨w, rfl, hw⟩ | ⟨w, rfl, hw⟩
  · cases w with
    | nil => exact hxy (List.cons.inj hw).1
    | cons z w => exact hx (by rw [(List.cons.inj hw).1]; simp)
  · cases w with
    | nil => exact hxy (List.cons.inj hw).1.symm
    | cons z w => exact hy (by rw [(List.cons.inj hw).1]; simp)

/-- **The declarations of a block** and what stands behind them can be read off it. -/
theorem declarations_inj {ds ds' : List Declaration} {closing closing' rest rest' : Text}
    (hds : ∀ d ∈ ds, d.IsSound) (hds' : ∀ d ∈ ds', d.IsSound) (hc : IsPlain closing ∧ ':' ∉ closing)
    (hc' : IsPlain closing' ∧ ':' ∉ closing')
    (h : ds.flatMap Declaration.written ++ (closing ++ '\x7d' :: rest) =
      ds'.flatMap Declaration.written ++ (closing' ++ '\x7d' :: rest')) :
    ds = ds' ∧ closing = closing' ∧ rest = rest' := by
  induction ds generalizing ds' with
  | nil =>
    cases ds' with
    | nil =>
      obtain ⟨hclosing, hrest⟩ := append_mark_inj hc.1.2.2 hc'.1.2.2 h
      exact ⟨rfl, hclosing, hrest⟩
    | cons d' ds' =>
      rw [written_cons] at h
      exact absurd h (append_mark_ne (by decide) (hds' d' (List.mem_cons_self ..)).property.2.2 hc.2)
  | cons d ds ih =>
    have hd := hds d (List.mem_cons_self ..)
    cases ds' with
    | nil =>
      rw [written_cons] at h
      exact absurd h.symm (append_mark_ne (by decide) hd.property.2.2 hc'.2)
    | cons d' ds' =>
      have hd' := hds' d' (List.mem_cons_self ..)
      rw [written_cons, written_cons] at h
      obtain ⟨hproperty, h⟩ := append_mark_inj hd.colon hd'.colon h
      obtain ⟨hvalue, h⟩ := append_mark_inj hd.value.1 hd'.value.1 h
      obtain ⟨rfl, hclosing⟩ := ih (fun e he => hds e (List.mem_cons_of_mem _ he))
        (fun e he => hds' e (List.mem_cons_of_mem _ he)) h
      refine ⟨?_, hclosing⟩
      cases d
      cases d'
      rw [List.cons.injEq, Declaration.mk.injEq]
      exact ⟨⟨hproperty, hvalue⟩, rfl⟩

/-- **A text is a text of flat rules in one way only.** -/
theorem sheet_inj {rules rules' : List FlatRule} {trailing trailing' : Text} (h : IsSheet rules trailing)
    (h' : IsSheet rules' trailing') (he : sheet rules trailing = sheet rules' trailing') :
    rules = rules' ∧ trailing = trailing' := by
  induction rules generalizing rules' with
  | nil =>
    cases rules' with
    | nil => exact ⟨rfl, he⟩
    | cons r' rules' =>
      rw [sheet_cons] at he
      exact absurd (show '\x7b' ∈ trailing from (show trailing = _ from he) ▸ by simp) h.trailing.2.1
  | cons r rules ih =>
    have hr := h.rules r (List.mem_cons_self ..)
    cases rules' with
    | nil =>
      rw [sheet_cons] at he
      exact absurd (show '\x7b' ∈ trailing' from (show _ = trailing' from he) ▸ by simp) h'.trailing.2.1
    | cons r' rules' =>
      have hr' := h'.rules r' (List.mem_cons_self ..)
      rw [sheet_cons, sheet_cons] at he
      obtain ⟨hselector, he⟩ := append_mark_inj hr.selector.2.1 hr'.selector.2.1 he
      obtain ⟨hdeclarations, hclosing, he⟩ := declarations_inj hr.declarations hr'.declarations
        ⟨hr.closing, hr.colon⟩ ⟨hr'.closing, hr'.colon⟩ he
      obtain ⟨rfl, htrailing⟩ := ih ⟨fun e he => h.rules e (List.mem_cons_of_mem _ he), h.trailing⟩
        ⟨fun e he => h'.rules e (List.mem_cons_of_mem _ he), h'.trailing⟩ he
      refine ⟨?_, htrailing⟩
      cases r
      cases r'
      rw [List.cons.injEq, FlatRule.mk.injEq]
      exact ⟨⟨hselector, hdeclarations, hclosing⟩, rfl⟩

/-! ### What becomes of the pieces -/

variable {color? : Text → Option Text} {w s t : Text} {seen : Bool} {c : Char}

/-- What the text did not hold is held by colors alone. -/
theorem notMem_substituteFrom (hcolors : GivesDigits color?) (hhash : c ≠ '#')
    (hdigit : isHexDigit c = false) (h : c ∉ t) : c ∉ substituteFrom color? seen t := by
  induction t using name_induction generalizing seen with
  | nil => rwa [substituteFrom_nil]
  | plain d t hd ih =>
    rw [List.mem_cons, not_or] at h
    rw [substituteFrom_cons hd, List.mem_cons, not_or]
    exact ⟨h.1, ih h.2⟩
  | name w t hw ht ih =>
    rw [List.mem_append, not_or] at h
    rw [substituteFrom_name hw ht, List.mem_append, not_or]
    refine ⟨?_, ih h.2⟩
    split
    · cases hf : color? ('@' :: w) with
      | none => exact h.1
      | some color =>
        obtain ⟨ds, rfl, hds⟩ := hcolors _ _ hf
        rw [Option.getD_some, List.mem_cons, not_or]
        exact ⟨hhash, fun hm => Bool.noConfusion (hdigit.symm.trans (hds c hm))⟩
    · exact h.1

/-- A plain text stays plain when colors come in. -/
theorem IsPlain.substituteFrom (hcolors : GivesDigits color?) (h : IsPlain t) :
    IsPlain (substituteFrom color? seen t) :=
  ⟨notMem_substituteFrom hcolors (by decide) (by decide) h.1,
    notMem_substituteFrom hcolors (by decide) (by decide) h.2.1,
    notMem_substituteFrom hcolors (by decide) (by decide) h.2.2⟩

/-- **A mark that ends names** stays in its place between what becomes of the text on either side. -/
theorem substituteFrom_mark (hat : c ≠ '@') (hmark : c ∈ marks) (seen : Bool) (s t : Text) :
    substituteFrom color? seen (s ++ c :: t) =
      substituteFrom color? seen s ++ c :: substituteFrom color? (sees (seesAfter seen s) c) t := by
  rw [substituteFrom_append seen s (nameEnds_of_mark hmark t), substituteFrom_cons hat]

/-- **What becomes of a declaration:** its value is read with a colon seen. -/
def Declaration.Becomes (color? : Text → Option Text) (d d' : Declaration) : Prop :=
  d'.value = substituteFrom color? true d.value ∧ (d.IsSound → d'.IsSound)

/-- **What becomes of a rule:** it has as many declarations. -/
def FlatRule.Becomes (color? : Text → Option Text) (r r' : FlatRule) : Prop :=
  List.Forall₂ (Declaration.Becomes color?) r.declarations r'.declarations ∧ (r.IsSound → r'.IsSound)

/-- Declarations become declarations, one by one, and the reading goes on behind them. -/
theorem exists_declarations (hcolors : GivesDigits color?)
    (ds : List Declaration) (seen : Bool) :
    ∃ ds' seen', List.Forall₂ (Declaration.Becomes color?) ds ds' ∧ ∀ t,
      substituteFrom color? seen (ds.flatMap Declaration.written ++ t) =
        ds'.flatMap Declaration.written ++ substituteFrom color? seen' t := by
  induction ds generalizing seen with
  | nil => exact ⟨[], seen, .nil, fun t => rfl⟩
  | cons d ds ih =>
    obtain ⟨ds', seen', hds, hrest⟩ := ih (sees (seesAfter true d.value) ';')
    refine ⟨⟨substituteFrom color? seen d.property, substituteFrom color? true d.value⟩ :: ds', seen',
      .cons ⟨rfl, fun h => ⟨h.property.substituteFrom hcolors,
        notMem_substituteFrom hcolors (by decide) (by decide) h.colon, h.value.substituteFrom hcolors⟩⟩ hds,
      fun t => ?_⟩
    have hseen : sees (seesAfter seen d.property) ':' = true := by simp [sees]
    rw [written_cons, substituteFrom_mark (by decide) (by decide), hseen,
      substituteFrom_mark (by decide) (by decide), hrest, written_cons]

/-- **Rules stay rules.** -/
theorem exists_sheet (hcolors : GivesDigits color?) (rules : List FlatRule)
    (trailing : Text) (seen : Bool) : ∃ rules' trailing',
      substituteFrom color? seen (sheet rules trailing) = sheet rules' trailing' ∧
      List.Forall₂ (FlatRule.Becomes color?) rules rules' ∧ (IsPlain trailing → IsPlain trailing') := by
  induction rules generalizing seen with
  | nil => exact ⟨[], substituteFrom color? seen trailing, rfl, .nil, (·.substituteFrom hcolors)⟩
  | cons r rules ih =>
    obtain ⟨ds', seen₁, hds, hblock⟩ :=
      exists_declarations hcolors r.declarations (sees (seesAfter seen r.selector) '\x7b')
    obtain ⟨rules', trailing', hrest, hrules, htrailing⟩ := ih (sees (seesAfter seen₁ r.closing) '\x7d')
    refine ⟨⟨substituteFrom color? seen r.selector, ds', substituteFrom color? seen₁ r.closing⟩ :: rules',
      trailing', ?_, .cons ⟨hds, fun h => ?_⟩ hrules, htrailing⟩
    · rw [sheet_cons, substituteFrom_mark (by decide) (by decide), hblock,
        substituteFrom_mark (by decide) (by decide), hrest, sheet_cons]
    · refine ⟨h.selector.substituteFrom hcolors, fun d' hd' => ?_, h.closing.substituteFrom hcolors,
        notMem_substituteFrom hcolors (by decide) (by decide) h.colon⟩
      obtain ⟨d, hd, -, hsound⟩ := Fallible.exists_of_mem_right hds hd'
      exact hsound (h.declarations d hd)

/-! ### Names that are left -/

/-- **Does the text hold a whole name that has a color?** -/
def HoldsName (color? : Text → Option Text) (t : Text) : Prop :=
  ∃ before w after, t = before ++ '@' :: w ++ after ∧ (∀ c ∈ w, isNameChar c = true) ∧
    nameEnds after = true ∧ (color? ('@' :: w)).isSome = true

/-- The empty text holds no name. -/
theorem not_holdsName_nil : ¬ HoldsName color? [] := by
  rintro ⟨before, w, after, h, -⟩
  simp at h

/-- Names begin with an at sign only. -/
theorem holdsName_cons (hc : c ≠ '@') : HoldsName color? (c :: t) ↔ HoldsName color? t := by
  constructor
  · rintro ⟨before, w, after, h, hw, hafter, hcolor⟩
    cases before with
    | nil => exact absurd (List.cons.inj h).1 hc
    | cons d before => exact ⟨before, w, after, (List.cons.inj h).2, hw, hafter, hcolor⟩
  · rintro ⟨before, w, after, rfl, hw, hafter, hcolor⟩
    exact ⟨c :: before, w, after, rfl, hw, hafter, hcolor⟩

/-- A beginning without at signs holds no name. -/
theorem holdsName_skip (hs : '@' ∉ s) : HoldsName color? (s ++ t) ↔ HoldsName color? t := by
  induction s with
  | nil => rfl
  | cons c s ih =>
    rw [List.mem_cons, not_or] at hs
    rw [List.cons_append, holdsName_cons (Ne.symm hs.1), ih hs.2]

/-- **At a name** the text holds the longest one that stands there. -/
theorem holdsName_name (hw : ∀ c ∈ w, isNameChar c = true) (ht : nameEnds t = true) :
    HoldsName color? ('@' :: w ++ t) ↔ (color? ('@' :: w)).isSome = true ∨ HoldsName color? t := by
  have hat : '@' ∉ w := notMem_of_isNameChar hw (isNameChar_of_mark (by decide))
  constructor
  · rintro ⟨before, w', after, h, hw', hafter, hcolor⟩
    cases before with
    | nil =>
      have hrun := congrArg (List.takeWhile isNameChar) (List.cons.inj h).2
      rw [List.append_eq, List.append_eq, takeWhile_run hw (not_isNameChar_of_nameEnds ht),
        takeWhile_run hw' (not_isNameChar_of_nameEnds hafter)] at hrun
      exact .inl (hrun ▸ hcolor)
    | cons d before =>
      refine .inr ((holdsName_skip hat).1 ?_)
      exact ⟨before, w', after, (List.cons.inj h).2, hw', hafter, hcolor⟩
  · rintro (hcolor | ⟨before, w', after, rfl, hw', hafter, hcolor⟩)
    · exact ⟨[], w, t, rfl, hw, ht, hcolor⟩
    · exact ⟨'@' :: w ++ before, w', after, by simp, hw', hafter, hcolor⟩

/-- **A mark that ends names** stands in none. -/
theorem holdsName_mark (hat : c ≠ '@') (hmark : c ∈ marks) :
    HoldsName color? (s ++ c :: t) ↔ HoldsName color? s ∨ HoldsName color? t := by
  induction s using name_induction with
  | nil =>
    rw [List.nil_append, holdsName_cons hat]
    exact (or_iff_right not_holdsName_nil).symm
  | plain d s hd ih => rw [List.cons_append, holdsName_cons hd, holdsName_cons hd, ih]
  | name w s hw hs ih =>
    have hends : nameEnds (s ++ c :: t) = true := by
      cases s with
      | nil => exact nameEnds_of_mark hmark t
      | cons d s => exact hs
    rw [List.append_assoc, holdsName_name hw hends, holdsName_name hw hs, ih, or_assoc]

/-- **Behind a colon no name is left on the line.** -/
theorem not_holdsName_substituteFrom (hcolors : GivesDigits color?)
    (hfeed : '\n' ∉ t) : ¬ HoldsName color? (substituteFrom color? true t) := by
  induction t using name_induction with
  | nil => rw [substituteFrom_nil]; exact not_holdsName_nil
  | plain c t hc ih =>
    rw [List.mem_cons, not_or] at hfeed
    have hsees : sees true c = true := by rw [sees, bne_iff_ne.2 (Ne.symm hfeed.1)]; rfl
    rw [substituteFrom_cons hc, hsees, holdsName_cons hc]
    exact ih hfeed.2
  | name w t hw ht ih =>
    have ih := ih fun hm => hfeed (List.mem_append_right _ hm)
    rw [substituteFrom_name hw ht, if_pos rfl]
    cases hf : color? ('@' :: w) with
    | none =>
      rw [Option.getD_none, holdsName_name hw (nameEnds_substituteFrom hcolors ht), hf]
      simpa using ih
    | some color =>
      have hat : '@' ∉ color := fun hm => ((hcolors _ _ hf).ne _ hm).1 rfl
      rwa [Option.getD_some, holdsName_skip hat]

/-- Before the first colon of a line every name is left. -/
theorem holdsName_line (hcolors : GivesDigits color?) {line : Text}
    (hfeed : '\n' ∉ line) :
    HoldsName color? (substituteFrom color? false line) ↔ HoldsName color? (line.takeWhile (· != ':')) := by
  rw [substituteFrom_line]
  cases hd : line.dropWhile (· != ':') with
  | nil => rw [substituteFrom_nil, List.append_nil]
  | cons c values =>
    obtain rfl := eq_colon_of_dropWhile hd
    have hvalues : '\n' ∉ values := fun hm =>
      hfeed ((List.dropWhile_suffix _).mem (hd ▸ List.mem_cons_of_mem _ hm))
    rw [substituteFrom_cons (by decide), show sees true ':' = true from rfl,
      holdsName_mark (by decide) (by decide)]
    exact or_iff_left (not_holdsName_substituteFrom hcolors hvalues)

/-- Lines hold a name exactly if one of them does. -/
theorem holdsName_join {ls : List Text} :
    HoldsName color? (join ['\n'] ls) ↔ ∃ l ∈ ls, HoldsName color? l := by
  induction ls with
  | nil => simpa [join] using not_holdsName_nil
  | cons l ls ih =>
    cases ls with
    | nil => simp [join]
    | cons l' ls =>
      rw [join, List.append_assoc, List.singleton_append, holdsName_mark (by decide) (by decide), ih]
      simp only [List.mem_cons, exists_eq_or_imp]

/-- **A name is left in a value** exactly if it stands on a later line, before the first colon there. -/
theorem holdsName_value (hcolors : GivesDigits color?) (value : Text) :
    HoldsName color? (substituteFrom color? true value) ↔
      ∃ line ∈ (lines value).tail, HoldsName color? (line.takeWhile (· != ':')) := by
  obtain ⟨first, rest, hsplit⟩ := List.exists_cons_of_ne_nil (splitOn_ne_nil '\n' value)
  have hlines : ∀ l ∈ first :: rest, '\n' ∉ l := fun l hl => (mem_splitOn (hsplit ▸ hl)).1
  conv_lhs => rw [← join_splitOn '\n' value, hsplit, substituteFrom_join true hlines, holdsName_join]
  have hfirst := not_holdsName_substituteFrom hcolors (hlines first (List.mem_cons_self ..))
  rw [lines, hsplit, List.tail_cons]
  simp only [List.mem_cons, exists_eq_or_imp, or_iff_right hfirst]
  constructor
  · rintro ⟨l, hl, hholds⟩
    obtain ⟨line, hline, rfl⟩ := List.mem_map.1 hl
    exact ⟨line, hline, (holdsName_line hcolors (hlines line (List.mem_cons_of_mem _ hline))).1 hholds⟩
  · rintro ⟨line, hline, hholds⟩
    exact ⟨_, List.mem_map_of_mem hline,
      (holdsName_line hcolors (hlines line (List.mem_cons_of_mem _ hline))).2 hholds⟩

/-- **After colors are put into flat rules, a value holds a name that has a color exactly if the name stood
on a later line of the value, before the first colon there.** The text stays one of flat rules, with as many
declarations in each, and there is only one way to read it so. -/
theorem holdsName_substituteColors_iff (colors : Table Text)
    (h : ∀ e ∈ colors.entries, IsVariable e.1 ∧ IsDigits e.2) {rules : List FlatRule} {trailing : Text}
    (hsheet : IsSheet rules trailing) :
    (∃ rules' trailing', IsSheet rules' trailing' ∧
      substituteColors (sheet rules trailing) colors = sheet rules' trailing') ∧
    ∀ rules' trailing', IsSheet rules' trailing' →
      substituteColors (sheet rules trailing) colors = sheet rules' trailing' →
        List.Forall₂ (fun r r' => List.Forall₂ (fun d d' : Declaration =>
          HoldsName colors.get? d'.value ↔
            ∃ line ∈ (lines d.value).tail, HoldsName colors.get? (line.takeWhile (· != ':')))
          r.declarations r'.declarations) rules rules' := by
  have hcolors : GivesDigits colors.get? := givesDigits_lookup fun e he => (h e he).2
  obtain ⟨rules', trailing', hrun, hrules, htrailing⟩ := exists_sheet hcolors rules trailing false
  have honce : substituteColors (sheet rules trailing) colors = sheet rules' trailing' :=
    (foldl_pass_eq h _).trans hrun
  have hsheet' : IsSheet rules' trailing' := by
    refine ⟨fun r' hr' => ?_, htrailing hsheet.trailing⟩
    obtain ⟨r, hr, -, hsound⟩ := Fallible.exists_of_mem_right hrules hr'
    exact hsound (hsheet.rules r hr)
  refine ⟨⟨rules', trailing', hsheet', honce⟩, fun other rest hother hread => ?_⟩
  obtain ⟨rfl, -⟩ := sheet_inj hsheet' hother (honce.symm.trans hread)
  refine hrules.imp fun r r' hr => hr.1.imp fun d d' hd => ?_
  rw [hd.1]
  exact holdsName_value hcolors d.value

/-- A color for one name. -/
def primary : Table Text := .ofList [("@primary-color".toList, "#123456".toList)]

/-- The table with one name gives a variable a color in digits. -/
theorem isDigits_primary : ∀ e ∈ primary.entries, IsVariable e.1 ∧ IsDigits e.2 := by
  have hentries : primary.entries = [("@primary-color".toList, "#123456".toList)] := by decide
  rw [hentries]
  intro e he
  rw [List.mem_singleton.1 he]
  exact ⟨⟨"primary-color".toList, rfl, by decide, by decide⟩, "123456".toList, rfl, by decide⟩

/-- The value that goes on behind the line of its colon. -/
def gradientValue : Text := " linear-gradient(\n    @primary-color,\n    red)".toList

/-- A rule with such a value. -/
def gradient : FlatRule := ⟨"a ".toList, [⟨"\n  background".toList, gradientValue⟩], ['\n']⟩

/-- The rule with a value over several lines is a sheet. -/
theorem isSheet_gradient : IsSheet [gradient] ['\n'] := by
  refine ⟨fun r hr => ?_, by decide⟩
  rw [List.mem_singleton.1 hr]
  refine ⟨by decide, fun d hd => ?_, by decide, by decide⟩
  rw [List.mem_singleton.1 hd]
  exact ⟨by decide, by decide, by decide⟩

/-- The second line of the value holds the name. -/
theorem holdsName_line_gradient : HoldsName primary.get? "    @primary-color,".toList :=
  ⟨"    ".toList, "primary-color".toList, [','], rfl, by decide, by decide, by decide⟩

/-- The name stays in the value, since it does not stand on the line of the colon. -/
theorem holdsName_substituteColors_iff_gradient : ∃ rules' trailing', IsSheet rules' trailing' ∧
    substituteColors (sheet [gradient] ['\n']) primary = sheet rules' trailing' ∧
    ∃ r ∈ rules', ∃ d ∈ r.declarations, HoldsName primary.get? d.value := by
  obtain ⟨⟨rules', trailing', hsheet, hread⟩, hall⟩ :=
    holdsName_substituteColors_iff primary isDigits_primary isSheet_gradient
  have hrules := hall rules' trailing' hsheet hread
  obtain ⟨r, hr, hdeclarations⟩ := Fallible.exists_of_mem_left hrules (List.mem_singleton_self gradient)
  obtain ⟨d, hd, hvalue⟩ := Fallible.exists_of_mem_left hdeclarations (List.mem_singleton_self _)
  exact ⟨rules', trailing', hsheet, hread, r, hr, d, hd,
    hvalue.2 ⟨"    @primary-color,".toList, by decide, holdsName_line_gradient⟩⟩

/-- **A value may hold a name that has a color** after colors are put in. -/
theorem not_forall_not_holdsName : ¬ ∀ (colors : Table Text) (rules : List FlatRule) (trailing : Text),
    (∀ e ∈ colors.entries, IsVariable e.1 ∧ IsDigits e.2) → IsSheet rules trailing →
    ∀ rules' trailing', IsSheet rules' trailing' →
      substituteColors (sheet rules trailing) colors = sheet rules' trailing' →
      ∀ r ∈ rules', ∀ d ∈ r.declarations, ¬ HoldsName colors.get? d.value := by
  intro hall
  have hstays : substituteColors (sheet [gradient] ['\n']) primary = sheet [gradient] ['\n'] := by
    decide +kernel
  refine hall primary [gradient] ['\n'] isDigits_primary isSheet_gradient _ _ isSheet_gradient hstays gradient
    (List.mem_singleton_self _) _ (List.mem_singleton_self _) ?_
  exact ⟨" linear-gradient(\n    ".toList, "primary-color".toList, ",\n    red)".toList, rfl,
    by decide, by decide, by decide⟩

end Style
end ThemeSheet
